import FastPP.LogprobLaw
import FastPP.RebalanceLaw

namespace FastPP

/-- The states before a request differ from the others, and a logprob tells which state it is of. -/
def twoStates (before after : Nat) : ModelOutput where
  hiddenStates := List.replicate before [0] ++ List.replicate after [1]
  logprobOf state _ := state.headD 0
  rows := ⟨fun _ => 0, fun _ => 0, fun _ => [], fun _ => [], fun _ => [], fun _ => []⟩

section AlignedRows

variable {cfg : LogprobConfig} {heap : Nat → Req} {fields : Nat → LogprobFields}
  {reqs tokens : List Nat} {batch : ScheduleBatch} {inputIds : List Nat}

theorem twoStates_length (before after : Nat) :
    (twoStates before after).hiddenStates.length = before + after := by
  unfold twoStates
  rw [List.length_append, List.length_replicate, List.length_replicate]

theorem exists_of_mem_zipWith {α β γ : Type} {f : α → β → γ} {xs : List α} {ys : List β} {z : γ}
    (h : z ∈ List.zipWith f xs ys) : ∃ x ∈ xs, ∃ y, z = f x y := by
  rw [← List.map_uncurry_zip_eq_zipWith] at h
  obtain ⟨⟨x, y⟩, hpair, rfl⟩ := List.mem_map.mp h
  exact ⟨x, (List.of_mem_zip hpair).1, y, rfl⟩

/-- All entries before a request are of the states before it. -/
theorem twoStates_before {rows rows' : List ExtendRow} {before after : Nat} {ids : List Nat}
    (hrows : ∀ row ∈ rows, row.Valid) (hbefore : ((rows.map ExtendRow.ids).flatten).length = before)
    (hfirst : ∀ row ∈ rows.head?, row.ids ≠ []) {x : Rat}
    (hx : x ∈ (List.zipWith (twoStates before after).logprobOf
      (prunedSlices (twoStates before after).hiddenStates 0
        ((rows ++ rows').map ExtendRow.lens)) ids).take (rows.map ExtendRow.num).sum) :
    x = 0 := by
  have hlength : (prunedSlices (twoStates before after).hiddenStates (0 : Nat)
      (rows.map ExtendRow.lens)).length = (rows.map ExtendRow.num).sum := by
    apply ExtendRow.prunedSlices_length hrows _ (.inr hfirst)
    rw [twoStates_length, hbefore]
    omega
  have hsplit := ExtendRow.prunedSlices_append (twoStates before after).hiddenStates 0 rows
    rows'
  rw [Nat.cast_zero] at hlength hsplit
  rw [hsplit, List.take_zipWith, ← hlength, List.take_left] at hx
  obtain ⟨state, hstate, y, rfl⟩ := exists_of_mem_zipWith hx
  have hmem : state ∈ (twoStates before after).hiddenStates.take
      (0 + ((rows.map ExtendRow.ids).flatten).length) := ExtendRow.mem_prunedSlices hstate
  unfold twoStates at hmem
  rw [hbefore, Nat.zero_add, List.take_left' List.length_replicate] at hmem
  rw [List.eq_of_mem_replicate hmem]
  rfl

/-- The entries of a request are of the states from its own on. -/
theorem twoStates_own {row : ExtendRow} {before after : Nat} {x : Rat}
    (hx : x ∈ row.segment (twoStates before after).logprobOf
      (twoStates before after).hiddenStates before) : x = 1 := by
  obtain ⟨state, hstate, y, rfl⟩ := exists_of_mem_zipWith hx
  have hmem := List.mem_of_mem_take (List.mem_of_mem_drop hstate)
  unfold twoStates at hmem
  rw [List.drop_left' List.length_replicate] at hmem
  rw [List.eq_of_mem_replicate hmem]
  rfl

/-- The first request of a batch whose array is laid out is not empty. -/
theorem first_nonempty (hbatch : batch.Extends heap reqs) {model : ModelOutput}
    (hids : batch.inputIds = some inputIds) (hlen : model.hiddenStates.length = inputIds.length)
    {lasts : List Rat} (hlasts : lasts.length = reqs.length)
    (hlayout : (forwardLogprobs model inputIds batch.extendLogprobStartLens
      batch.extendLens).inputTokenLogprobs =
      (Segments.closed (ExtendRow.segments model.logprobOf model.hiddenStates 0
        (reqs.map fun q => (heap q).extendRow)) lasts).flatten) :
    ∀ q ∈ reqs.head?, (heap q).extendRow.ids ≠ [] := by
  cases reqs with
  | nil => exact fun q hq => (nomatch hq)
  | cons q reqs =>
    intro q' hq'
    obtain rfl := Option.some.inj hq'
    intro hnil
    have hvalid : ∀ row ∈ (q :: reqs).map fun q => (heap q).extendRow, row.Valid := by
      intro row hrow
      obtain ⟨q, hq, rfl⟩ := List.mem_map.mp hrow
      exact (hbatch.rows q hq).valid
    have hinput := Option.some.inj (hids.symm.trans hbatch.inputIds)
    have hclosed := ExtendRow.closed_length model.logprobOf hvalid
      (by rw [Nat.zero_add, ← hinput]; exact hlen.ge) (hlasts.trans (List.length_map _).symm)
    rw [← hlayout] at hclosed
    have hrow := (hbatch.rows q List.mem_cons_self).valid
    have hpos := hrow.num_pos
    have hslice : sliceBetween model.hiddenStates ((0 : Nat) + (heap q).extendRow.startLen)
        ((0 : Nat) + (heap q).extendRow.ids.length) = [] := by
      have hge := hrow.startLen_ge
      have hlt := hrow.startLen_lt
      rw [hnil, List.length_nil] at hlt ⊢
      have hstart : ((0 : Nat) : Int) + (heap q).extendRow.startLen = -1 := by omega
      rw [hstart]
      exact ExtendRow.sliceBetween_before
    have hrest : (prunedSlices model.hiddenStates (0 + (heap q).extendRow.ids.length : Nat)
        ((reqs.map fun q => (heap q).extendRow).map ExtendRow.lens)).length ≤
        ((reqs.map fun q => (heap q).extendRow).map ExtendRow.num).sum :=
      ExtendRow.prunedSlices_length_le fun row hrow => hvalid row (List.mem_cons_of_mem _ hrow)
    have hle : (forwardLogprobs model inputIds batch.extendLogprobStartLens
        batch.extendLens).inputTokenLogprobs.length ≤
        (prunedSlices model.hiddenStates 0
          (batch.extendLogprobStartLens.zip batch.extendLens)).length := by
      unfold forwardLogprobs
      rw [List.length_zipWith]
      exact Nat.min_le_left _ _
    have hall := ExtendRow.prunedSlices_cons model.hiddenStates 0 (heap q).extendRow
      (reqs.map fun q => (heap q).extendRow)
    rw [hslice, List.nil_append] at hall
    rw [hbatch.lens] at hle
    rw [List.map_cons, List.map_cons, List.sum_cons] at hclosed
    have hcount : (prunedSlices model.hiddenStates 0
        (((q :: reqs).map fun q => (heap q).extendRow).map ExtendRow.lens)).length ≤
        ((reqs.map fun q => (heap q).extendRow).map ExtendRow.num).sum := by
      rw [← hall] at hrest
      exact hrest
    omega

/-- What stands before the own entries of a request is of an earlier one. -/
theorem entry_before {rows rows' : List ExtendRow} {before after pt : Nat}
    (hbatch : batch.Extends heap reqs)
    (hsplit : reqs.map (fun q => (heap q).extendRow) = rows ++ rows')
    (hbefore : ((rows.map ExtendRow.ids).flatten).length = before)
    (hfirst : ∀ q ∈ reqs.head?, (heap q).extendRow.ids ≠ [])
    (hpt : pt < (rows.map ExtendRow.num).sum) {x : Rat}
    (hx : (forwardLogprobs (twoStates before after) inputIds batch.extendLogprobStartLens
      batch.extendLens).inputTokenLogprobs[pt]? = some x) : x = 0 := by
  have hmem : ∀ row ∈ rows, row ∈ reqs.map fun q => (heap q).extendRow := by
    intro row hrow
    rw [hsplit]
    exact List.mem_append_left _ hrow
  have hvalid : ∀ row ∈ rows, row.Valid := by
    intro row hrow
    obtain ⟨q, hq, rfl⟩ := List.mem_map.mp (hmem row hrow)
    exact (hbatch.rows q hq).valid
  have hhead : ∀ row ∈ rows.head?, row.ids ≠ [] := by
    intro row hrow
    have hall : (reqs.map fun q => (heap q).extendRow).head? = some row := by
      rw [hsplit, List.head?_append, hrow]
      rfl
    rw [List.head?_map] at hall
    obtain ⟨q, hq, rfl⟩ := Option.map_eq_some_iff.mp hall
    exact hfirst q hq
  apply twoStates_before hvalid hbefore hhead
  have htake := List.mem_of_getElem? ((List.getElem?_take_of_lt hpt).trans hx)
  unfold forwardLogprobs at htake
  rw [hbatch.lens, hsplit] at htake
  exact htake

end AlignedRows

variable {cfg : LogprobConfig} {heap : Nat → Req} {fields : Nat → LogprobFields}
  {reqs tokens : List Nat} {batch : ScheduleBatch} {inputIds : List Nat}

/-- Whatever the model computes, each request gets its own logprobs. -/
def OwnLogprobsAlways (cfg : LogprobConfig) (heap : Nat → Req) (fields : Nat → LogprobFields)
    (reqs : List Nat) (batch : ScheduleBatch) : Prop :=
  ∀ model tokens inputIds, batch.inputIds = some inputIds →
    model.hiddenStates.length = inputIds.length → tokens.length = reqs.length →
    OwnLogprobs cfg heap fields reqs model (forwardLogprobs model inputIds
      batch.extendLogprobStartLens batch.extendLens) tokens

/-- With states that tell a request from those before it, only one that begins where `logprob_pt`
stands gets its own entries. -/
theorem aligned_of_own (hnodup : reqs.Nodup) (hbatch : batch.Extends heap reqs)
    (h : OwnLogprobsAlways cfg heap fields reqs batch) {k q : Nat} (hq : reqs[k]? = some q)
    (hreports : reportsLogprobs cfg (heap q) (fields q) = true)
    (hown : TakesOwn cfg (heap q) (fields q)) :
    (heap q).extendRow.num = 1 ∨
      ∀ q' ∈ reqs.take k, reportsLogprobs cfg (heap q') (fields q') = true := by
  by_contra hnot
  obtain ⟨hnum, hnot⟩ := not_or.mp hnot
  have hmem := List.mem_of_getElem? hq
  obtain ⟨pt, hpt, hle, hiff⟩ : ∃ pt : Nat, advanced cfg heap fields (reqs.take k) = pt ∧ _ :=
    advanced_le fun q' hq' => hbatch.rows q' (List.mem_of_mem_take hq')
  have hlt := lt_of_le_of_ne hle fun h => hnot (hiff.mp h)
  have hsplit : reqs.map (fun q => (heap q).extendRow) =
      (reqs.take k).map (fun q => (heap q).extendRow) ++
        (reqs.drop k).map fun q => (heap q).extendRow := by
    rw [← List.map_append, List.take_append_drop]
  generalize hbefore : ((((reqs.take k).map fun q => (heap q).extendRow).map
    ExtendRow.ids).flatten).length = before
  generalize hafter : ((((reqs.drop k).map fun q => (heap q).extendRow).map
    ExtendRow.ids).flatten).length = after
  have hlen : (twoStates before after).hiddenStates.length =
      (((reqs.map fun q => (heap q).extendRow).map ExtendRow.ids).flatten).length := by
    rw [twoStates_length, hsplit, List.map_append, List.flatten_append, List.length_append, hbefore,
      hafter]
  have hk := (List.getElem?_eq_some_iff.mp hq).1
  have htoken : (List.replicate reqs.length 0)[k]? = some 0 := by
    rw [List.getElem?_replicate, if_pos hk]
  have hright := h _ (List.replicate reqs.length 0) _ hbatch.inputIds hlen List.length_replicate
  obtain ⟨lasts, hlasts, hlayout⟩ := hright.layout
  obtain ⟨fields', hrun, hgiven⟩ := hright.given
  have hrow : (reqs.map fun q => (heap q).extendRow)[k]? = some (heap q).extendRow := by
    rw [List.getElem?_map, hq, Option.map_some]
  have hsegment := ExtendRow.segments_at (twoStates before after).logprobOf
    (twoStates before after).hiddenStates 0 hrow
  rw [← List.map_take, hbefore, Nat.zero_add] at hsegment
  obtain ⟨vals, vals', ids, ids', hvals, _, hgives⟩ := hgiven k q 0 _ hq htoken hsegment hreports
  obtain ⟨pt', hpt', _, hgives'⟩ := takes_at hnodup hbatch.rows List.length_replicate hrun hq htoken
    hreports
  have hsame : pt' = pt := by exact_mod_cast hpt'.symm.trans hpt
  obtain ⟨rfl, rfl, _, _⟩ := hgives.unique hgives'
  rw [LogprobFields.taken_vals (hbatch.rows q hmem) hown, hsame] at hvals
  have hlength := (own_at hbatch.rows hlasts hlen.symm hq hsegment).1
  have hpos := (hbatch.rows q hmem).valid.num_pos
  obtain ⟨x, rest, hcons⟩ := List.exists_cons_of_length_pos
    (show 0 < ((heap q).extendRow.segment (twoStates before after).logprobOf
      (twoStates before after).hiddenStates before).length by omega)
  have hone : x = 1 := twoStates_own (hcons ▸ List.mem_cons_self)
  have hzero : x = 0 := by
    have hnonempty := first_nonempty hbatch hbatch.inputIds hlen hlasts hlayout
    apply entry_before hbatch hsplit hbefore hnonempty hlt
    have hhead := congrArg (·[0]?) (hvals.trans hcons)
    rw [List.getElem?_take_of_lt (by omega), List.getElem?_drop, Nat.add_zero] at hhead
    exact hhead
  exact absurd (hone.symm.trans hzero) (by decide)

/-- Requests that get their own logprobs whatever the model computes line up. -/
theorem lineUp_of_own (hnodup : reqs.Nodup) (hbatch : batch.Extends heap reqs)
    (hupdate : ∀ q ∈ reqs, reportsLogprobs cfg (heap q) (fields q) = true →
      (fields q).lastUpdateDecodeTokens ≤ (heap q).fillIds.length)
    (h : OwnLogprobsAlways cfg heap fields reqs batch) :
    LogprobsLineUp cfg heap fields reqs := by
  have hids := hbatch.inputIds
  have hlen := (twoStates_length 0 (((reqs.map fun q => (heap q).extendRow).map
    ExtendRow.ids).flatten).length).trans (Nat.zero_add _)
  have hown := h _ (List.replicate reqs.length 0) _ hids hlen List.length_replicate
  obtain ⟨lasts, hlasts, hlayout⟩ := hown.layout
  have htakes : ∀ q ∈ reqs, reportsLogprobs cfg (heap q) (fields q) = true →
      TakesOwn cfg (heap q) (fields q) := by
    intro q hq hreports
    obtain ⟨k, hk, rfl⟩ := List.mem_iff_getElem.mp hq
    have hat : reqs[k]? = some reqs[k] := List.getElem?_eq_getElem hk
    have htoken : (List.replicate reqs.length 0)[k]? = some 0 := by
      rw [List.getElem?_replicate, if_pos hk]
    obtain ⟨fields', hrun, hgiven⟩ := hown.given
    have hrow : (reqs.map fun q => (heap q).extendRow)[k]? = some (heap reqs[k]).extendRow := by
      rw [List.getElem?_map, hat, Option.map_some]
    obtain ⟨vals, vals', ids, ids', _, hnext, hgives⟩ :=
      hgiven k _ 0 _ hat htoken (ExtendRow.segments_at _ _ _ hrow) hreports
    obtain ⟨pt, _, hpadded, hgives'⟩ := takes_at hnodup hbatch.rows List.length_replicate hrun hat
      htoken hreports
    obtain ⟨_, _, rfl, rfl⟩ := hgives.unique hgives'
    exact LogprobFields.takesOwn_of_ids (hbatch.rows _ hq) (hupdate _ hq hreports) hpadded hnext
  refine ⟨first_nonempty hbatch hids hlen hlasts hlayout, htakes, ?_⟩
  intro k q hq hreports
  exact aligned_of_own hnodup hbatch h hq hreports
    (htakes q (List.mem_of_getElem? hq) hreports)

end FastPP

namespace FastPP

namespace Sched

variable {M : Type} [MemoryPools M] {S S' : Sched M}

/-- `prepare_for_extend` sets the fields of each request once. -/
theorem placeReqs_heap {pairs : List (Nat × Nat)} (hnodup : (pairs.map Prod.fst).Nodup)
    (h : S.placeReqs pairs = some S') :
    (∀ q ∉ pairs.map Prod.fst, S'.heap q = S.heap q) ∧
    ∀ q ∈ pairs.map Prod.fst, S'.heap q = (S.heap q).prepareForExtend ∧
      ((S.heap q).fillIds.length : Int) - (S.heap q).prefixLen = (S.heap q).extendInputLen := by
  induction pairs generalizing S with
  | nil =>
    obtain rfl := Option.some.inj h
    exact ⟨fun q _ => rfl, fun q hq => (nomatch hq)⟩
  | cons pair pairs ih =>
    rw [List.map_cons] at hnodup ⊢
    obtain ⟨hout, hnodup⟩ := List.nodup_cons.mp hnodup
    obtain ⟨S₁, hplace, h⟩ := Option.bind_eq_some_iff.mp h
    obtain ⟨hother, hplaced⟩ := ih hnodup h
    unfold placeReq at hplace
    dsimp only at hplace
    split at hplace
    next hlen =>
      obtain rfl := Option.some.inj hplace
      constructor
      · intro q hq
        rw [List.mem_cons, not_or] at hq
        rw [hother q hq.2]
        simp [setReq, hq.1]
      · intro q hq
        rcases List.mem_cons.mp hq with rfl | hq
        · rw [hother _ hout]
          exact ⟨by simp [setReq], hlen⟩
        · have hne : q ≠ pair.1 := fun h => hout (h ▸ hq)
          have := hplaced q hq
          simpa [setReq, hne] using this
    next => cases hplace

end Sched

/-- The lengths that `prepare_for_extend` sets. -/
theorem Req.prepareForExtend_extendsRow {req : Req} (hpre : req.prefixLen ≤ req.fillIds.length)
    (hlen : (req.fillIds.length : Int) - req.prefixLen = req.extendInputLen) :
    req.prepareForExtend.ExtendsRow ∧
      req.prepareForExtend.extendInputLen = req.prepareForExtend.extendRow.ids.length := by
  have hids : req.prepareForExtend.extendRow.ids.length = req.fillIds.length - req.prefixLen :=
    List.length_drop
  have hcount : req.prepareForExtend.extendInputLen =
      req.prepareForExtend.extendRow.ids.length := by
    rw [hids]
    show req.extendInputLen = _
    omega
  have hstart : req.prepareForExtend.extendRow.startLen =
      if (req.prefixLen : Int) ≤ req.logprobStartLen then
        min (req.logprobStartLen - req.prefixLen) (req.extendInputLen - 1)
      else req.extendInputLen - 1 := rfl
  have hvalid : req.prepareForExtend.extendRow.Valid := by
    refine ⟨?_, ?_, fun hne => ?_⟩
    · rw [hstart]
      split
      next => omega
      next => omega
    · rw [hstart, hids]
      split
      next => omega
      next => omega
    · have hpos := List.length_pos_iff.mpr hne
      rw [hstart]
      split
      next => omega
      next => omega
  refine ⟨⟨hvalid, hpre, ?_⟩, hcount⟩
  rw [hvalid.num_eq, ← hcount]
  rfl

namespace Sched

variable {M : Type} [MemoryPools M] {S S' : Sched M} {reqs : List Nat} {batch : ScheduleBatch}

/-- The batch of `prepare_for_extend` and its requests. -/
theorem prepareForExtend_extends (hnodup : reqs.Nodup)
    (hpre : ∀ q ∈ reqs, (S.heap q).prefixLen ≤ (S.heap q).fillIds.length)
    (h : S.prepareForExtend reqs = some (S', batch)) :
    batch.Extends S'.heap reqs ∧ ∀ q ∈ reqs, S'.heap q = (S.heap q).prepareForExtend := by
  obtain ⟨⟨rows, mem⟩, halloc, h⟩ := Option.bind_eq_some_iff.mp h
  obtain ⟨locs, _, h⟩ := Option.bind_eq_some_iff.mp h
  obtain ⟨S₁, hplace, h⟩ := Option.bind_eq_some_iff.mp h
  obtain ⟨mem', _, h⟩ := Option.bind_eq_some_iff.mp h
  obtain ⟨rfl, rfl⟩ := Prod.mk.inj (Option.some.inj h)
  have hlen : rows.length = reqs.length := MemoryPools.allocReqSlots_length halloc
  have hfst : (reqs.zip rows).map Prod.fst = reqs := List.map_fst_zip hlen.ge
  obtain ⟨_, hplaced⟩ := placeReqs_heap (by rwa [hfst]) hplace
  rw [hfst] at hplaced
  have hreq : ∀ q ∈ reqs, (S₁.heap q).ExtendsRow ∧
      (S₁.heap q).extendInputLen = (S₁.heap q).extendRow.ids.length := by
    intro q hq
    obtain ⟨hheap, hcount⟩ := hplaced q hq
    rw [hheap]
    exact Req.prepareForExtend_extendsRow (hpre q hq) hcount
  refine ⟨⟨fun q hq => (hreq q hq).1, ?_, ?_⟩, fun q hq => (hplaced q hq).1⟩
  · show some _ = some _
    rw [List.map_map]
    rfl
  · show (reqs.map _).zip (reqs.map _) = _
    rw [List.zip_map', List.map_map]
    apply List.map_congr_left
    intro q hq
    rw [(hreq q hq).2]
    rfl

/-- The requests as the processing of the result finds them, with the counters and the finish
reasons of that time. -/
def atResult (heap later : Nat → Req) (q : Nat) : Req :=
  { heap q with
    finishedReason := (later q).finishedReason
    delayed := (later q).delayed
    isBeingChunked := (later q).isBeingChunked }

/-- In a prefill batch each request with `return_logprob` gets the entries of its own segment with
the ids of its own positions, whatever the model computes and however late the result comes,
exactly when the requests line up. -/
theorem inputLogprobs_own {cfg : LogprobConfig} {fields : Nat → LogprobFields}
    {later : Nat → Req} (hnodup : reqs.Nodup)
    (hpre : ∀ q ∈ reqs, (S.heap q).prefixLen ≤ (S.heap q).fillIds.length)
    (hupdate : ∀ q ∈ reqs, (later q).isBeingChunked ≤ 0 →
      (fields q).lastUpdateDecodeTokens ≤ (S.heap q).fillIds.length)
    (h : S.prepareForExtend reqs = some (S', batch)) :
    OwnLogprobsAlways cfg (atResult S'.heap later) fields reqs batch ↔
      LogprobsLineUp cfg (atResult S'.heap later) fields reqs := by
  obtain ⟨hextends, hheap⟩ := prepareForExtend_extends hnodup hpre h
  have hbatch : batch.Extends (atResult S'.heap later) reqs :=
    ⟨fun q hq => ⟨(hextends.rows q hq).valid, (hextends.rows q hq).prefix_le,
      (hextends.rows q hq).num⟩, hextends.inputIds, hextends.lens⟩
  have hupdate' : ∀ q ∈ reqs, reportsLogprobs cfg (atResult S'.heap later q) (fields q) = true →
      (fields q).lastUpdateDecodeTokens ≤ (atResult S'.heap later q).fillIds.length := by
    intro q hq hreports
    have hdone : (later q).isBeingChunked ≤ 0 := by
      simp only [reportsLogprobs, atResult, Bool.and_eq_true] at hreports
      exact of_decide_eq_true hreports.1.2
    have hle := hupdate q hq hdone
    show _ ≤ (S'.heap q).fillIds.length
    rwa [hheap q hq]
  constructor
  · exact lineUp_of_own hnodup hbatch hupdate'
  · intro hlineUp model tokens inputIds hids hlen htokens
    exact hlineUp.own hnodup hbatch hupdate' hids hlen htokens

end Sched

/-- Two prompts of three tokens; only the second one asks for its logprobs. -/
def promptPair (firstReports : Bool) (q : Nat) : Req :=
  { Req.blank with
    fillIds := [4, 5, 6]
    extendInputLen := 3
    returnLogprob := if q = 0 then firstReports else true
    logprobStartLen := if q = 0 then 2 else 0 }

def promptPairState (firstReports : Bool) : Sched Memory :=
  { Sched.init twoRanks 0 (Memory.clear 8 100) with heap := promptPair firstReports }

def countedPairState : Sched Memory :=
  { promptPairState true with
    heap := fun q => { promptPair true q with isBeingChunked := if q = 0 then 1 else 0 } }

/-- The logprob fields of a new request. -/
def newLogprobFields : LogprobFields where
  isRetracted := false
  lastUpdateDecodeTokens := 0
  normalizedPromptLogprob := none
  inputTokenLogprobsVal := none
  inputTokenLogprobsIdx := none
  outputTokenLogprobsVal := []
  outputTokenLogprobsIdx := []
  inputTopLogprobsVal := none
  inputTopLogprobsIdx := none
  outputTopLogprobsVal := []
  outputTopLogprobsIdx := []

def plainLogprobs : LogprobConfig := ⟨100, false, false⟩

/-- The first prompt is still counted as chunked when the batch is prepared, and no longer when
its result comes: it reports its logprobs too, and each prompt gets its own ones. -/
theorem inputLogprobs_own_pair :
    ∃ S' batch, countedPairState.prepareForExtend [0, 1] = some (S', batch) ∧
      (S'.heap 0).isBeingChunked = 1 ∧
      OwnLogprobsAlways plainLogprobs (Sched.atResult S'.heap (promptPair true))
        (fun _ => newLogprobFields) [0, 1] batch := by
  obtain ⟨S', batch, h⟩ : ∃ S' batch, countedPairState.prepareForExtend [0, 1] =
      some (S', batch) := ⟨_, _, rfl⟩
  obtain ⟨_, hheap⟩ := Sched.prepareForExtend_extends (by decide) (fun q _ => Nat.zero_le _) h
  refine ⟨S', batch, h, by rw [hheap 0 (by decide)]; rfl,
    (Sched.inputLogprobs_own (by decide) ?_ ?_ h).mpr ?_⟩
  · intro q _
    exact Nat.zero_le _
  · intro q _ _
    exact Nat.zero_le _
  · have hlater : ∀ q ∈ [0, 1], Sched.atResult S'.heap (promptPair true) q =
        Sched.atResult (fun q => (countedPairState.heap q).prepareForExtend) (promptPair true) q :=
      fun q hq => by rw [Sched.atResult, hheap q hq, Sched.atResult]
    refine ⟨fun q hq => ?_, fun q hq _ => ?_, fun k q hq _ => .inr fun q' hq' => ?_⟩
    · obtain rfl := Option.some.inj hq
      rw [hlater 0 (by decide)]
      decide
    · rw [hlater q hq]
      rcases List.mem_pair.mp hq with rfl | rfl
      · exact ⟨by decide, by decide, by decide, by decide⟩
      · exact ⟨by decide, by decide, by decide, by decide⟩
    · have hmem := List.mem_of_mem_take hq'
      rw [hlater q' hmem]
      rcases List.mem_pair.mp hmem with rfl | rfl <;> decide

/-- If it does not, the second prompt gets an entry of the first one. -/
theorem silentFirst_shifts :
    ∃ S' batch, (promptPairState false).prepareForExtend [0, 1] = some (S', batch) ∧
      ¬ OwnLogprobsAlways plainLogprobs S'.heap (fun _ => newLogprobFields) [0, 1] batch := by
  obtain ⟨S', batch, h⟩ : ∃ S' batch, (promptPairState false).prepareForExtend [0, 1] =
      some (S', batch) := ⟨_, _, rfl⟩
  refine ⟨S', batch, h, ?_⟩
  intro hown
  obtain ⟨hbatch, hheap⟩ := Sched.prepareForExtend_extends (by decide)
    (fun q _ => Nat.zero_le _) h
  have hlineUp := lineUp_of_own (by decide) hbatch (fun q _ _ => Nat.zero_le _) hown
  have haligned := hlineUp.aligned 1 1 rfl
  rw [hheap 1 (by decide)] at haligned
  rcases haligned (by decide) with hone | hall
  · revert hone
    decide
  · have hfirst := hall 0 (by decide)
    rw [hheap 0 (by decide)] at hfirst
    revert hfirst
    decide

end FastPP
