import FastPP.LogprobTaken

namespace FastPP

namespace ExtendRow

variable {H V : Type} {logprobOf : H → Nat → V} {states : List H} {base : Nat}
  {rows : List ExtendRow}

theorem segments_length : (segments logprobOf states base rows).length = rows.length := by
  induction rows generalizing base with
  | nil => rfl
  | cons row rows ih =>
    unfold segments
    rw [List.length_cons, ih, List.length_cons]

theorem segments_at (logprobOf : H → Nat → V) (states : List H) (base : Nat) {k : Nat}
    {row : ExtendRow} (hk : rows[k]? = some row) :
    (segments logprobOf states base rows)[k]? = some (row.segment logprobOf states
      (base + (((rows.take k).map ExtendRow.ids).flatten).length)) := by
  induction rows generalizing base k with
  | nil => cases hk
  | cons first rows ih =>
    unfold segments
    cases k with
    | zero =>
      obtain rfl := Option.some.inj hk
      rfl
    | succ k =>
      have hk' : rows[k]? = some row := hk
      rw [List.getElem?_cons_succ, ih _ hk', List.take_succ_cons, List.map_cons, List.flatten_cons,
        List.length_append, Nat.add_assoc]

theorem segments_lengths (logprobOf : H → Nat → V) (hrows : ∀ row ∈ rows, row.Valid)
    (hlen : base + ((rows.map ExtendRow.ids).flatten).length ≤ states.length) :
    (segments logprobOf states base rows).map (fun segment => segment.length + 1) =
      rows.map num := by
  induction rows generalizing base with
  | nil => rfl
  | cons row rows ih =>
    rw [List.map_cons, List.flatten_cons, List.length_append, ← Nat.add_assoc] at hlen
    unfold segments
    rw [List.map_cons, List.map_cons, segment_length (hrows row List.mem_cons_self) (by omega),
      ih (fun r hr => hrows r (List.mem_cons_of_mem _ hr)) hlen]

/-- The own entries of request `k` begin after all entries of the requests before it. -/
theorem offset_segments (logprobOf : H → Nat → V) (hrows : ∀ row ∈ rows, row.Valid)
    (hlen : base + ((rows.map ExtendRow.ids).flatten).length ≤ states.length) (k : Nat) :
    Segments.offset (segments logprobOf states base rows) k = ((rows.take k).map num).sum := by
  unfold Segments.offset
  rw [List.map_take, segments_lengths logprobOf hrows hlen, List.map_take]

/-- The array is as long as all segments with their last entries. -/
theorem closed_length (logprobOf : H → Nat → V) (hrows : ∀ row ∈ rows, row.Valid)
    (hlen : base + ((rows.map ExtendRow.ids).flatten).length ≤ states.length) {lasts : List V}
    (hlasts : lasts.length = rows.length) :
    (Segments.closed (segments logprobOf states base rows) lasts).flatten.length =
      (rows.map num).sum := by
  rw [← segments_lengths logprobOf hrows hlen]
  exact Segments.closed_length (hlasts.trans segments_length.symm)

end ExtendRow

section Offsets

variable {cfg : LogprobConfig} {heap : Nat → Req} {fields : Nat → LogprobFields}
  {reqs : List Nat}

/-- `logprob_pt` never passes the own entries of a request, and it reaches them only if all
requests before report their logprobs. -/
theorem advanced_le (hext : ∀ q ∈ reqs, (heap q).ExtendsRow) :
    ∃ pt : Nat, advanced cfg heap fields reqs = pt ∧
      pt ≤ ((reqs.map fun q => (heap q).extendRow).map ExtendRow.num).sum ∧
      (pt = ((reqs.map fun q => (heap q).extendRow).map ExtendRow.num).sum ↔
        ∀ q ∈ reqs, reportsLogprobs cfg (heap q) (fields q) = true) := by
  induction reqs with
  | nil => exact ⟨0, rfl, le_rfl, fun _ _ h => (nomatch h), fun _ => rfl⟩
  | cons q reqs ih =>
    obtain ⟨pt, hpt, hle, hall⟩ := ih fun q' hq' => hext q' (List.mem_cons_of_mem _ hq')
    have hq := hext q List.mem_cons_self
    have hpos := hq.valid.num_pos
    rw [List.map_cons, List.map_cons, List.sum_cons]
    unfold advanced at hpt ⊢
    rw [List.map_cons, List.sum_cons, hpt]
    by_cases hreports : reportsLogprobs cfg (heap q) (fields q) = true
    · refine ⟨(heap q).extendRow.num + pt, ?_, by omega, ?_⟩
      · rw [if_pos hreports, hq.num, Nat.cast_add]
      · rw [Nat.add_left_cancel_iff, hall, List.forall_mem_cons]
        exact ⟨fun h => ⟨hreports, h⟩, fun h => h.2⟩
    · refine ⟨pt, ?_, by omega, ?_⟩
      · rw [if_neg hreports, zero_add]
      · constructor
        · intro h
          omega
        · intro h
          exact absurd (h q List.mem_cons_self) hreports

end Offsets

/-- The batch's tensors for its requests, as `prepare_for_extend` left them. -/
structure ScheduleBatch.Extends (batch : ScheduleBatch) (heap : Nat → Req) (reqs : List Nat) :
    Prop where
  rows : ∀ q ∈ reqs, (heap q).ExtendsRow
  inputIds : batch.inputIds = some ((reqs.map fun q => (heap q).extendRow).map ExtendRow.ids).flatten
  lens : batch.extendLogprobStartLens.zip batch.extendLens =
    (reqs.map fun q => (heap q).extendRow).map ExtendRow.lens

/-- The processor lays out the own entries of all requests, each with one more at its end, and
each request that reports its logprobs gets its own entries with the ids of its own positions. -/
structure OwnLogprobs (cfg : LogprobConfig) (heap : Nat → Req) (fields : Nat → LogprobFields)
    (reqs : List Nat) (model : ModelOutput) (output : LogitsProcessorOutput) (tokens : List Nat) :
    Prop where
  layout : ∃ lasts, lasts.length = reqs.length ∧ output.inputTokenLogprobs =
    (Segments.closed (ExtendRow.segments model.logprobOf model.hiddenStates 0
      (reqs.map fun q => (heap q).extendRow)) lasts).flatten
  given : ∃ fields', processLogprobs cfg heap output (reqs.zip tokens) 0 0 fields = some fields' ∧
    ∀ k q token segment, reqs[k]? = some q → tokens[k]? = some token →
      (ExtendRow.segments model.logprobOf model.hiddenStates 0
        (reqs.map fun q => (heap q).extendRow))[k]? = some segment →
      reportsLogprobs cfg (heap q) (fields q) = true →
      ∃ vals vals' ids ids', vals ++ vals' = segment ∧ ids ++ ids' = (heap q).extendRow.nextIds ∧
        LogprobFields.Gives (heap q) (fields q) (fields' q) (output.nextTokenLogprobs k) token
          vals vals' ids ids'

/-- The first request is not empty, and each one that reports its logprobs has the entries that it
takes: none, or those after requests that all report theirs. -/
structure LogprobsLineUp (cfg : LogprobConfig) (heap : Nat → Req) (fields : Nat → LogprobFields)
    (reqs : List Nat) : Prop where
  first : ∀ q ∈ reqs.head?, (heap q).extendRow.ids ≠ []
  takesOwn : ∀ q ∈ reqs, reportsLogprobs cfg (heap q) (fields q) = true →
    TakesOwn cfg (heap q) (fields q)
  aligned : ∀ k q, reqs[k]? = some q → reportsLogprobs cfg (heap q) (fields q) = true →
    (heap q).extendRow.num = 1 ∨
      ∀ q' ∈ reqs.take k, reportsLogprobs cfg (heap q') (fields q') = true

variable {cfg : LogprobConfig} {heap : Nat → Req} {fields fields' : Nat → LogprobFields}
  {reqs tokens : List Nat} {batch : ScheduleBatch} {model : ModelOutput} {inputIds : List Nat}

/-- What the loop takes for a request that reports its logprobs. -/
theorem takes_at (hnodup : reqs.Nodup) (hrows : ∀ q ∈ reqs, (heap q).ExtendsRow)
    (htokens : tokens.length = reqs.length) {output : LogitsProcessorOutput}
    (h : processLogprobs cfg heap output (reqs.zip tokens) 0 0 fields = some fields')
    {k q token : Nat} (hq : reqs[k]? = some q) (htoken : tokens[k]? = some token)
    (hreports : reportsLogprobs cfg (heap q) (fields q) = true) :
    ∃ pt : Nat, advanced cfg heap fields (reqs.take k) = pt ∧
      ((fields q).inputTokenLogprobsVal = none → (heap q).logprobStartLen = 0 →
        (heap q).fillIds ≠ []) ∧
      LogprobFields.Gives (heap q) (fields q) (fields' q) (output.nextTokenLogprobs k) token
        (LogprobFields.takenInput (heap q) (fields q) pt output)
        (LogprobFields.takenOutput (heap q) (fields q) pt output)
        (LogprobFields.takenInputIds cfg (heap q) (fields q))
        (LogprobFields.takenOutputIds (heap q) (fields q)) := by
  obtain ⟨pt, hpt, _⟩ : ∃ pt : Nat, advanced cfg heap fields (reqs.take k) = pt ∧ _ :=
    advanced_le fun q' hq' => hrows q' (List.mem_of_mem_take hq')
  have hfst : (reqs.zip tokens).map Prod.fst = reqs := List.map_fst_zip htokens.ge
  have hrow : (reqs.zip tokens)[k]? = some (q, token) := by
    rw [List.getElem?_zip_eq_some]
    exact ⟨hq, htoken⟩
  obtain ⟨num, hadd⟩ := (processLogprobs_row (by rwa [hfst]) h hrow).2 hreports
  rw [List.map_take, hfst, hpt, zero_add, zero_add] at hadd
  obtain ⟨_, hne, hgives⟩ := LogprobFields.add_gives hadd
  exact ⟨pt, hpt, hne, hgives⟩

/-- The own entries of request `k` in the laid out array. -/
theorem own_at {lasts : List Rat} (hrows : ∀ q ∈ reqs, (heap q).ExtendsRow)
    (hlasts : lasts.length = reqs.length)
    (hlen : ((((reqs.map fun q => (heap q).extendRow).map ExtendRow.ids).flatten).length =
      model.hiddenStates.length))
    {k q : Nat} {segment : List Rat} (hq : reqs[k]? = some q)
    (hsegment : (ExtendRow.segments model.logprobOf model.hiddenStates 0
      (reqs.map fun q => (heap q).extendRow))[k]? = some segment) :
    segment.length + 1 = (heap q).extendRow.num ∧
      ((Segments.closed (ExtendRow.segments model.logprobOf model.hiddenStates 0
        (reqs.map fun q => (heap q).extendRow)) lasts).flatten.drop
          ((((reqs.take k).map fun q => (heap q).extendRow).map ExtendRow.num).sum)).take
            ((heap q).extendRow.num - 1) = segment := by
  have hvalid : ∀ row ∈ reqs.map fun q => (heap q).extendRow, row.Valid := by
    intro row hrow
    obtain ⟨q, hq, rfl⟩ := List.mem_map.mp hrow
    exact (hrows q hq).valid
  have hbound : 0 + (((reqs.map fun q => (heap q).extendRow).map ExtendRow.ids).flatten).length ≤
      model.hiddenStates.length := by omega
  obtain ⟨hk, hat⟩ := List.getElem?_eq_some_iff.mp hsegment
  have hlengths := congrArg (·[k]?) (ExtendRow.segments_lengths model.logprobOf hvalid
    hbound)
  simp only [List.getElem?_map, hsegment, hq, Option.map_some, Option.some.injEq] at hlengths
  refine ⟨hlengths, ?_⟩
  have hoffset := ExtendRow.offset_segments model.logprobOf hvalid hbound k
  rw [← List.map_take] at hoffset
  have hfound := Segments.take_drop_offset
    (hlasts.trans (by rw [ExtendRow.segments_length, List.length_map])) hk
  rw [hoffset, hat] at hfound
  rw [← hlengths, Nat.add_sub_cancel]
  exact hfound

/-- Requests that line up get their own logprobs. -/
theorem LogprobsLineUp.own (hnodup : reqs.Nodup) (hbatch : batch.Extends heap reqs)
    (hupdate : ∀ q ∈ reqs, reportsLogprobs cfg (heap q) (fields q) = true →
      (fields q).lastUpdateDecodeTokens ≤ (heap q).fillIds.length)
    (hids : batch.inputIds = some inputIds) (hlen : model.hiddenStates.length = inputIds.length)
    (htokens : tokens.length = reqs.length) (h : LogprobsLineUp cfg heap fields reqs) :
    OwnLogprobs cfg heap fields reqs model (forwardLogprobs model inputIds
      batch.extendLogprobStartLens batch.extendLens) tokens := by
  have hvalid : ∀ row ∈ reqs.map fun q => (heap q).extendRow, row.Valid := by
    intro row hrow
    obtain ⟨q, hq, rfl⟩ := List.mem_map.mp hrow
    exact (hbatch.rows q hq).valid
  obtain rfl := Option.some.inj (hids.symm.trans hbatch.inputIds)
  have hfirst : ∀ row ∈ (reqs.map fun q => (heap q).extendRow).head?, row.ids ≠ [] := by
    intro row hrow
    rw [List.head?_map] at hrow
    obtain ⟨q, hq, rfl⟩ := Option.map_eq_some_iff.mp hrow
    exact h.first q hq
  obtain ⟨lasts, hlasts, hlayout⟩ := ExtendRow.layout model.logprobOf hvalid hlen
    (Nat.zero_le _) List.drop_zero (.inr hfirst)
  rw [List.length_map] at hlasts
  rw [Nat.cast_zero, ← hbatch.lens] at hlayout
  refine ⟨⟨lasts, hlasts, hlayout⟩, ?_⟩
  have hfst : (reqs.zip tokens).map Prod.fst = reqs := List.map_fst_zip htokens.ge
  obtain ⟨fields', hrun⟩ : ∃ fields', processLogprobs cfg heap (forwardLogprobs model _
      batch.extendLogprobStartLens batch.extendLens) (reqs.zip tokens) 0 0 fields = some fields' := by
    apply processLogprobs_exists
    · rwa [hfst]
    · rw [hfst]
      exact fun q hq hreports => (h.takesOwn q hq hreports).padded
  refine ⟨fields', hrun, ?_⟩
  intro k q token segment hq htoken hsegment hreports
  have hmem := List.mem_of_getElem? hq
  have hown := h.takesOwn q hmem hreports
  obtain ⟨pt, hpt, _, hgives⟩ := takes_at hnodup hbatch.rows htokens hrun hq htoken hreports
  refine ⟨_, _, _, _, ?_, LogprobFields.taken_ids (hbatch.rows q hmem) (hupdate q hmem hreports)
    hown, hgives⟩
  rw [LogprobFields.taken_vals (hbatch.rows q hmem) hown]
  obtain ⟨hnum, hat⟩ := own_at hbatch.rows hlasts hlen.symm hq hsegment
  rcases h.aligned k q hq hreports with hone | hall
  · have hnil : segment = [] := List.eq_nil_of_length_eq_zero (by omega)
    rw [hone, Nat.sub_self, List.take_zero, hnil]
  · obtain ⟨pt', hpt', _, hiff⟩ : ∃ pt' : Nat, advanced cfg heap fields (reqs.take k) = pt' ∧ _ :=
      advanced_le fun q' hq' => hbatch.rows q' (List.mem_of_mem_take hq')
    have hsame : pt = pt' := by exact_mod_cast hpt.symm.trans hpt'
    rw [hsame, hiff.mpr hall]
    rw [← hlayout] at hat
    exact hat

end FastPP
