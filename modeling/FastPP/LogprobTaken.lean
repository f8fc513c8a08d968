import FastPP.LogprobPointer

namespace FastPP

section Pointer

variable {cfg : LogprobConfig} {heap : Nat → Req} {fields fields' : Nat → LogprobFields}
  {output : LogitsProcessorOutput} {rows : List (Nat × Nat)} {i k : Nat} {pt : Int}

/-- The entries that `logprob_pt` goes over for the requests. -/
def advanced (cfg : LogprobConfig) (heap : Nat → Req) (fields : Nat → LogprobFields)
    (reqs : List Nat) : Int :=
  (reqs.map fun q =>
    if reportsLogprobs cfg (heap q) (fields q) then (heap q).numInputLogprobs else 0).sum

/-- The loop leaves the requests that are not in its rows. -/
theorem processLogprobs_other (h : processLogprobs cfg heap output rows i pt fields = some fields')
    {q : Nat} (hq : q ∉ rows.map Prod.fst) : fields' q = fields q := by
  induction rows generalizing i pt fields with
  | nil =>
    obtain rfl := Option.some.inj h
    rfl
  | cons row rows ih =>
    obtain ⟨q', token⟩ := row
    rw [List.map_cons, List.mem_cons, not_or] at hq
    unfold processLogprobs at h
    split at h
    next =>
      obtain ⟨⟨added, num⟩, _, h⟩ := Option.bind_eq_some_iff.mp h
      rw [ih h hq.2, Function.update_of_ne hq.1]
    next => exact ih h hq.2

theorem advanced_update {q : Nat} {added : LogprobFields} {reqs : List Nat} (hq : q ∉ reqs) :
    advanced cfg heap (Function.update fields q added) reqs = advanced cfg heap fields reqs := by
  unfold advanced
  congr 1
  apply List.map_congr_left
  intro q' hq'
  have hne : q' ≠ q := fun h => hq (h ▸ hq')
  rw [Function.update_of_ne hne]

/-- A request that reports its logprobs does it with what the requests before it left of
`logprob_pt`. -/
theorem processLogprobs_row (hnodup : (rows.map Prod.fst).Nodup)
    (h : processLogprobs cfg heap output rows i pt fields = some fields')
    {q token : Nat} (hrow : rows[k]? = some (q, token)) :
    (reportsLogprobs cfg (heap q) (fields q) = false → fields' q = fields q) ∧
    (reportsLogprobs cfg (heap q) (fields q) = true → ∃ num,
      (fields q).addLogprobReturnValues cfg (heap q) (i + k) token
        (pt + advanced cfg heap fields ((rows.take k).map Prod.fst)) output =
          some (fields' q, num)) := by
  induction rows generalizing i k pt fields with
  | nil => cases hrow
  | cons row rows ih =>
    obtain ⟨q', token'⟩ := row
    rw [List.map_cons] at hnodup
    obtain ⟨hout, hnodup⟩ := List.nodup_cons.mp hnodup
    unfold processLogprobs at h
    cases k with
    | zero =>
      obtain ⟨rfl, rfl⟩ := Prod.mk.inj (Option.some.inj hrow)
      split at h
      next hreports =>
        obtain ⟨⟨added, num⟩, hadd, h⟩ := Option.bind_eq_some_iff.mp h
        refine ⟨fun hfalse => absurd (hreports.symm.trans hfalse) (by decide), fun _ => ⟨num, ?_⟩⟩
        rw [processLogprobs_other h hout, Function.update_self]
        simpa [advanced] using hadd
      next hreports =>
        refine ⟨fun _ => processLogprobs_other h hout, fun htrue => absurd htrue hreports⟩
    | succ k =>
      have hrow' : rows[k]? = some (q, token) := hrow
      have hmem : q ∈ rows.map Prod.fst :=
        List.mem_map.mpr ⟨(q, token), List.mem_of_getElem? hrow', rfl⟩
      have hne : q ≠ q' := fun h => hout (h ▸ hmem)
      have hindex : i + (k + 1) = i + 1 + k := by omega
      have htake : q' ∉ (rows.take k).map Prod.fst := fun h =>
        hout ((List.take_sublist k rows).map Prod.fst |>.subset h)
      rw [List.take_succ_cons, List.map_cons, hindex]
      split at h
      next hreports =>
        obtain ⟨⟨added, num⟩, hadd, h⟩ := Option.bind_eq_some_iff.mp h
        have hnum := (LogprobFields.add_gives hadd).1
        have := ih hnodup h hrow'
        rw [Function.update_of_ne hne, advanced_update htake] at this
        have hadvance : pt + advanced cfg heap fields (q' :: (rows.take k).map Prod.fst) =
            pt + num + advanced cfg heap fields ((rows.take k).map Prod.fst) := by
          unfold advanced
          rw [List.map_cons, List.sum_cons, if_pos hreports, hnum]
          omega
        rw [hadvance]
        exact this
      next hreports =>
        have hadvance : pt + advanced cfg heap fields (q' :: (rows.take k).map Prod.fst) =
            pt + advanced cfg heap fields ((rows.take k).map Prod.fst) := by
          unfold advanced
          rw [List.map_cons, List.sum_cons, if_neg hreports, zero_add]
        rw [hadvance]
        exact ih hnodup h hrow'

/-- The loop raises no exception if every first token that is padded exists. -/
theorem processLogprobs_exists (hnodup : (rows.map Prod.fst).Nodup)
    (hne : ∀ q ∈ rows.map Prod.fst, reportsLogprobs cfg (heap q) (fields q) = true →
      (fields q).inputTokenLogprobsVal = none → (heap q).logprobStartLen = 0 →
        (heap q).fillIds ≠ []) :
    ∃ fields', processLogprobs cfg heap output rows i pt fields = some fields' := by
  induction rows generalizing i pt fields with
  | nil => exact ⟨_, rfl⟩
  | cons row rows ih =>
    obtain ⟨q, token⟩ := row
    rw [List.map_cons] at hnodup hne
    obtain ⟨hout, hnodup⟩ := List.nodup_cons.mp hnodup
    unfold processLogprobs
    split
    next hreports =>
      obtain ⟨added, hadd⟩ : ∃ added, (fields q).addLogprobReturnValues cfg (heap q) i token pt
          output = some (added, (heap q).numInputLogprobs) :=
        LogprobFields.add_exists (hne q List.mem_cons_self hreports)
      have hrest : ∀ q' ∈ rows.map Prod.fst,
          reportsLogprobs cfg (heap q') (Function.update fields q added q') = true →
          (Function.update fields q added q').inputTokenLogprobsVal = none →
          (heap q').logprobStartLen = 0 → (heap q').fillIds ≠ [] := by
        intro q' hq'
        have hother : q' ≠ q := fun h => hout (h ▸ hq')
        rw [Function.update_of_ne hother]
        exact hne q' (List.mem_cons_of_mem _ hq')
      obtain ⟨last, hlast⟩ := ih hnodup hrest
      exact ⟨last, Option.bind_eq_some_iff.mpr ⟨_, hadd, hlast⟩⟩
    next => exact ih hnodup fun q' hq' => hne q' (List.mem_cons_of_mem _ hq')

end Pointer

/-- A request has the entries that it takes: a first token to pad, not more recomputed tokens than
entries, exactly these if its input logprobs are set, and no id that is clipped. -/
structure TakesOwn (cfg : LogprobConfig) (req : Req) (fields : LogprobFields) : Prop where
  padded : fields.inputTokenLogprobsVal = none → req.logprobStartLen = 0 → req.fillIds ≠ []
  recomputed : fields.lastUpdateDecodeTokens < req.extendRow.num
  kept : fields.inputTokenLogprobsVal.isSome →
    fields.lastUpdateDecodeTokens + 1 = req.extendRow.num
  unclipped : ∀ id ∈ req.extendRow.nextIds.take
      (req.extendRow.num - 1 - fields.lastUpdateDecodeTokens),
    id + 1 < cfg.vocabSize ∨ id = 0

/-- The lengths of a request are those of its extended part. -/
structure Req.ExtendsRow (req : Req) : Prop where
  valid : req.extendRow.Valid
  prefix_le : req.prefixLen ≤ req.fillIds.length
  num : req.numInputLogprobs = req.extendRow.num

namespace LogprobFields

variable {cfg : LogprobConfig} {req : Req} {fields : LogprobFields} {output : LogitsProcessorOutput}
  {pt : Nat}

theorem clipId_eq {vocabSize id : Nat} : clipId vocabSize id = id ↔ id + 1 < vocabSize ∨ id = 0 := by
  unfold clipId
  split
  next h => exact ⟨fun _ => .inl h, fun _ => rfl⟩
  next h => exact ⟨fun hzero => .inr hzero.symm, fun hor => (hor.resolve_left h).symm⟩

/-- The ids after the own states are the last fill ids. -/
theorem nextIds_eq (h : req.ExtendsRow) :
    req.extendRow.nextIds = req.fillIds.drop (req.fillIds.length + 1 - req.extendRow.num) ∧
      req.extendRow.nextIds.length + 1 = req.extendRow.num ∧
      req.extendRow.num ≤ req.fillIds.length + 1 := by
  have hge := h.valid.startLen_ge
  have hlt := h.valid.startLen_lt
  have hle := h.prefix_le
  have hids : req.extendRow.ids.length = req.fillIds.length - req.prefixLen := List.length_drop
  have hnum : req.extendRow.num = (req.extendRow.ids.length - req.extendRow.startLen).toNat := rfl
  have hnext : req.extendRow.nextIds =
      req.fillIds.drop (req.prefixLen + (req.extendRow.startLen.toNat + 1)) := List.drop_drop
  by_cases hne : req.extendRow.ids = []
  · rw [hne, List.length_nil] at hids hlt hnum
    rw [hnext, List.drop_of_length_le (by omega), List.drop_of_length_le (by omega)]
    refine ⟨rfl, ?_, ?_⟩
    · rw [List.length_nil]
      omega
    · omega
  · have hnonneg := h.valid.startLen_nonneg hne
    rw [hnext, List.length_drop]
    refine ⟨?_, ?_, ?_⟩
    · congr 1
      omega
    · omega
    · omega

theorem taken_vals (h : req.ExtendsRow) (hown : TakesOwn cfg req fields) :
    takenInput req fields pt output ++ takenOutput req fields pt output =
      (output.inputTokenLogprobs.drop pt).take (req.extendRow.num - 1) := by
  have hlt := hown.recomputed
  have hnum := h.num
  have hstop : (pt : Int) + req.numInputLogprobs - 1 - fields.lastUpdateDecodeTokens =
      (pt + (req.extendRow.num - 1 - fields.lastUpdateDecodeTokens) : Nat) := by
    rw [hnum]
    omega
  have hend : (pt : Int) + req.numInputLogprobs - 1 = (pt + (req.extendRow.num - 1) : Nat) := by
    rw [hnum]
    omega
  have hinput : takenInput req fields pt output = (output.inputTokenLogprobs.drop pt).take
      (req.extendRow.num - 1 - fields.lastUpdateDecodeTokens) := by
    unfold takenInput
    split
    next hset =>
      have hkept := hown.kept hset
      have hzero : req.extendRow.num - 1 - fields.lastUpdateDecodeTokens = 0 := by omega
      rw [hzero, List.take_zero]
    next =>
      rw [hstop, ExtendRow.sliceBetween_eq (by omega) (by omega)]
      congr 1
      omega
  have houtput : takenOutput req fields pt output = (output.inputTokenLogprobs.drop
      (pt + (req.extendRow.num - 1 - fields.lastUpdateDecodeTokens))).take
        fields.lastUpdateDecodeTokens := by
    unfold takenOutput
    split
    next hzero => rw [hzero, List.take_zero]
    next =>
      rw [hstop, hend, ExtendRow.sliceBetween_eq (by omega) (by omega)]
      congr 1
      omega
  have hsum : req.extendRow.num - 1 = req.extendRow.num - 1 - fields.lastUpdateDecodeTokens +
      fields.lastUpdateDecodeTokens := by omega
  rw [hinput, houtput, hsum, List.take_add, List.drop_drop, ← hsum]

/-- Without a bound the ids of the output logprobs are as many as were recomputed. -/
theorem takenOutputIds_eq (hupdate : fields.lastUpdateDecodeTokens ≤ req.fillIds.length) :
    takenOutputIds req fields =
      req.fillIds.drop (req.fillIds.length - fields.lastUpdateDecodeTokens) := by
  unfold takenOutputIds
  split
  next hzero => rw [hzero, Nat.sub_zero, List.drop_length]
  next =>
    rw [ExtendRow.sliceBetween_eq (by omega) (by omega), List.take_of_length_le]
    · congr 1
      omega
    · rw [List.length_drop]
      omega

theorem takenInputIds_eq (h : req.ExtendsRow)
    (hrec : fields.lastUpdateDecodeTokens < req.extendRow.num)
    (hkept : fields.inputTokenLogprobsVal.isSome →
      fields.lastUpdateDecodeTokens + 1 = req.extendRow.num) :
    takenInputIds cfg req fields = (req.extendRow.nextIds.take
      (req.extendRow.num - 1 - fields.lastUpdateDecodeTokens)).map (clipId cfg.vocabSize) := by
  obtain ⟨hnext, hcount, hle⟩ := nextIds_eq h
  have hnum := h.num
  unfold takenInputIds
  split
  next hset =>
    have := hkept hset
    have hzero : req.extendRow.num - 1 - fields.lastUpdateDecodeTokens = 0 := by omega
    rw [hzero, List.take_zero, List.map_nil]
  next =>
    rw [hnum, ExtendRow.sliceBetween_eq (by omega) (by omega), hnext]
    congr 2
    · omega
    · congr 1
      omega

theorem taken_ids (h : req.ExtendsRow)
    (hupdate : fields.lastUpdateDecodeTokens ≤ req.fillIds.length) (hown : TakesOwn cfg req fields) :
    takenInputIds cfg req fields ++ takenOutputIds req fields = req.extendRow.nextIds := by
  obtain ⟨hnext, hcount, hle⟩ := nextIds_eq h
  have hlt := hown.recomputed
  rw [takenInputIds_eq h hown.recomputed hown.kept, takenOutputIds_eq hupdate]
  have hclip : (req.extendRow.nextIds.take
      (req.extendRow.num - 1 - fields.lastUpdateDecodeTokens)).map (clipId cfg.vocabSize) =
      req.extendRow.nextIds.take (req.extendRow.num - 1 - fields.lastUpdateDecodeTokens) := by
    apply (List.map_congr_left fun id hid => clipId_eq.mpr (hown.unclipped id hid)).trans
    exact List.map_id _
  have hdrop : req.fillIds.drop (req.fillIds.length - fields.lastUpdateDecodeTokens) =
      req.extendRow.nextIds.drop (req.extendRow.num - 1 - fields.lastUpdateDecodeTokens) := by
    rw [hnext, List.drop_drop]
    congr 1
    omega
  rw [hclip, hdrop, List.take_append_drop]

/-- Only a request that has the entries it takes gets the ids of its own positions. -/
theorem takesOwn_of_ids (h : req.ExtendsRow)
    (hupdate : fields.lastUpdateDecodeTokens ≤ req.fillIds.length)
    (hpadded : fields.inputTokenLogprobsVal = none → req.logprobStartLen = 0 → req.fillIds ≠ [])
    (hids : takenInputIds cfg req fields ++ takenOutputIds req fields = req.extendRow.nextIds) :
    TakesOwn cfg req fields := by
  obtain ⟨hnext, hcount, hle⟩ := nextIds_eq h
  have houtput : takenOutputIds req fields = _ := takenOutputIds_eq hupdate
  have hlength := congrArg List.length hids
  have houtlen : (takenOutputIds req fields).length = fields.lastUpdateDecodeTokens := by
    rw [houtput, List.length_drop]
    omega
  rw [List.length_append, houtlen] at hlength
  have hrec : fields.lastUpdateDecodeTokens < req.extendRow.num := by omega
  have hkept : fields.inputTokenLogprobsVal.isSome →
      fields.lastUpdateDecodeTokens + 1 = req.extendRow.num := by
    intro hset
    have hnil : takenInputIds cfg req fields = [] := by
      unfold takenInputIds
      rw [if_pos hset]
    rw [hnil, List.length_nil, Nat.zero_add] at hlength
    omega
  refine ⟨hpadded, hrec, hkept, ?_⟩
  intro id hid
  have hinput : takenInputIds cfg req fields = _ := takenInputIds_eq h hrec hkept
  rw [hinput] at hids
  have hclip := List.append_inj_left (hids.trans (List.take_append_drop
    (req.extendRow.num - 1 - fields.lastUpdateDecodeTokens) _).symm) (by rw [List.length_map])
  have hfixed := List.map_inj_left.mp (hclip.trans (List.map_id _).symm)
  exact clipId_eq.mp (hfixed id hid)

end LogprobFields

end FastPP
