import FastPP.Prefilling

namespace FastPP

/-- A request after one of its results was processed. -/
def Req.Processed (r r' : Req) : Prop :=
  ∃ outputIds finishedReason delayed prefixLen isBeingChunked hasNormalizedPromptLogprob,
    r' = { r with outputIds, finishedReason, delayed, prefixLen, isBeingChunked,
                  hasNormalizedPromptLogprob }

namespace Req.Processed

theorem refl (r : Req) : r.Processed r := ⟨_, _, _, _, _, _, rfl⟩

theorem trans {r r' r'' : Req} (h : r.Processed r') (h' : r'.Processed r'') : r.Processed r'' := by
  obtain ⟨_, _, _, _, _, _, rfl⟩ := h
  obtain ⟨_, _, _, _, _, _, rfl⟩ := h'
  exact ⟨_, _, _, _, _, _, rfl⟩

theorem outputIdsLen {r r' : Req} (h : r.Processed r') : r'.outputIdsLen = r.outputIdsLen := by
  obtain ⟨_, _, _, _, _, _, rfl⟩ := h
  rfl

theorem ppIdx {r r' : Req} (h : r.Processed r') : r'.ppIdx = r.ppIdx := by
  obtain ⟨_, _, _, _, _, _, rfl⟩ := h
  rfl

end Req.Processed

theorem checkStopStrs_spec {tokenizer : Option Tokenizer} {r r' : Req}
    (h : checkStopStrs tokenizer r = some r') :
    ∃ finishedReason, r' = { r with finishedReason } := by
  unfold checkStopStrs at h
  split at h
  next => exact ⟨r.finishedReason, (Option.some.inj h).symm⟩
  next =>
    obtain ⟨tok, _, h⟩ := Option.bind_eq_some_iff.mp h
    dsimp only at h
    split at h
    next => exact ⟨_, (Option.some.inj h).symm⟩
    next => exact ⟨r.finishedReason, (Option.some.inj h).symm⟩

theorem Req.checkFinished_spec {tokenizer : Option Tokenizer} {r r' : Req}
    (h : r.checkFinished tokenizer = some r') :
    ∃ finishedReason delayed, r' = { r with finishedReason, delayed } := by
  unfold checkFinished at h
  split at h
  next => exact ⟨r.finishedReason, _, (Option.some.inj h).symm⟩
  next =>
    split at h
    next => exact ⟨_, r.delayed, (Option.some.inj h).symm⟩
    next =>
      split at h
      next => exact ⟨_, r.delayed, (Option.some.inj h).symm⟩
      next =>
        obtain ⟨token, _, h⟩ := Option.bind_eq_some_iff.mp h
        split at h
        next => exact ⟨_, r.delayed, (Option.some.inj h).symm⟩
        next =>
          obtain ⟨finishedReason, rfl⟩ := checkStopStrs_spec h
          exact ⟨finishedReason, r.delayed, rfl⟩

theorem Req.appendToken_spec {tokenizer : Option Tokenizer} {r r' : Req} {token : Nat}
    (h : r.appendToken tokenizer token = some r') :
    ∃ finishedReason delayed,
      r' = { r with outputIds := r.outputIds ++ [token], finishedReason, delayed } :=
  Req.checkFinished_spec h

namespace Sched

variable {M : Type}

/-- Processing a result changes one request, the cache entries and the pools. -/
structure Resulted (S S' : Sched M) (q : Nat) (isBeingChunked : Int) : Prop where
  others : ∃ r entries mem, S' = { S.setReq q r with entries, mem }
  processed : (S.heap q).Processed (S'.heap q)
  isBeingChunked : (S'.heap q).isBeingChunked = isBeingChunked

theorem Resulted.other {S S' : Sched M} {q q' : Nat} {n : Int} (h : Resulted S S' q n)
    (hne : q' ≠ q) : S'.heap q' = S.heap q' := by
  obtain ⟨r, entries, mem, rfl⟩ := h.others
  exact Function.update_of_ne hne _ _

theorem Resulted.trans {S S' S'' : Sched M} {q : Nat} {n n' : Int} (h : Resulted S S' q n)
    (h' : Resulted S' S'' q n') : Resulted S S'' q n' where
  others := by
    obtain ⟨_, _, _, rfl⟩ := h.others
    obtain ⟨r, entries, mem, rfl⟩ := h'.others
    exact ⟨r, entries, mem, by simp [setReq]⟩
  processed := h.processed.trans h'.processed
  isBeingChunked := h'.isBeingChunked

theorem resulted_setReq {S : Sched M} {q : Nat} {r : Req} (h : (S.heap q).Processed r) :
    Resulted S (S.setReq q r) q r.isBeingChunked :=
  ⟨⟨r, S.entries, S.mem, rfl⟩, by simpa [setReq] using h, by simp [setReq]⟩

theorem Resulted.refl (S : Sched M) (q : Nat) : Resulted S S q (S.heap q).isBeingChunked :=
  ⟨⟨S.heap q, S.entries, S.mem, by simp [setReq]⟩, .refl _, rfl⟩

theorem resulted_addLogprobReturnValues (S : Sched M) (q : Nat) :
    Resulted S (S.addLogprobReturnValues q) q (S.heap q).isBeingChunked := by
  unfold addLogprobReturnValues
  split
  next => exact resulted_setReq ⟨_, _, _, _, _, _, rfl⟩
  next => exact .refl S q

theorem resulted_appendToken {cfg : Config} {S S' : Sched M} {q token : Nat}
    (h : S.appendToken cfg q token = some S') : Resulted S S' q (S.heap q).isBeingChunked := by
  obtain ⟨r, happend, h⟩ := Option.bind_eq_some_iff.mp h
  cases Option.some.inj h
  obtain ⟨_, _, rfl⟩ := Req.appendToken_spec happend
  exact resulted_setReq ⟨_, _, _, _, _, _, rfl⟩

variable [MemoryPools M]

theorem resulted_cacheFinishedReq {S S' : Sched M} {q : Nat}
    (h : S.cacheFinishedReq q = some S') : Resulted S S' q (S.heap q).isBeingChunked := by
  obtain ⟨mem, _, h⟩ := Option.bind_eq_some_iff.mp h
  cases Option.some.inj h
  exact ⟨⟨S.heap q, Function.update S.entries (S.heap q).rid none, mem, by simp [setReq]⟩,
    .refl _, rfl⟩

theorem resulted_cacheUnfinishedReq {S S' : Sched M} {q : Nat}
    (h : S.cacheUnfinishedReq q = some S') : Resulted S S' q (S.heap q).isBeingChunked := by
  obtain ⟨view, _, h⟩ := Option.bind_eq_some_iff.mp h
  cases Option.some.inj h
  have hprocessed : (S.heap q).Processed
      { S.heap q with prefixLen := (S.heap q).fillIds.length } := ⟨_, _, _, _, _, _, rfl⟩
  exact ⟨⟨_, _, _, rfl⟩, by simpa [setReq] using hprocessed, by simp [setReq]⟩

theorem resulted_cachePrefilledReq {S S' : Sched M} {decodingReqs : List Nat} {q : Nat}
    (h : S.cachePrefilledReq decodingReqs q = some S') :
    Resulted S S' q (S.heap q).isBeingChunked := by
  unfold cachePrefilledReq at h
  split at h
  next => exact resulted_cacheFinishedReq h
  next =>
    split at h
    next => cases Option.some.inj h; exact .refl S q
    next => exact resulted_cacheUnfinishedReq h

/-- A chunk that is not the last one only counts down. -/
def countedDown (isBeingChunked : Int) : Int :=
  if 0 < isBeingChunked then isBeingChunked - 1 else isBeingChunked

theorem processPrefillReq_spec {cfg : Config} {decodingReqs : List Nat} {S S' : Sched M}
    {q token : Nat} (h : S.processPrefillReq cfg decodingReqs q token = some S') :
    Resulted S S' q (countedDown (S.heap q).isBeingChunked) := by
  unfold processPrefillReq at h
  split at h
  next hcount =>
    obtain ⟨S₁, happend, h⟩ := Option.bind_eq_some_iff.mp h
    obtain ⟨S₂, hcache, h⟩ := Option.bind_eq_some_iff.mp h
    cases Option.some.inj h
    have h₁ := resulted_appendToken happend
    have h₂ := resulted_cachePrefilledReq hcache
    have h₃ := resulted_addLogprobReturnValues S₂ q
    rw [h₂.isBeingChunked, h₁.isBeingChunked] at h₃
    rw [countedDown, if_neg (by omega)]
    exact (h₁.trans h₂).trans h₃
  next hcount =>
    cases Option.some.inj h
    rw [countedDown, if_pos (by omega)]
    exact resulted_setReq ⟨_, _, _, _, _, _, rfl⟩

theorem processDecodeReq_spec {cfg : Config} {S S' : Sched M} {q token : Nat}
    (h : S.processDecodeReq cfg q token = some S') :
    Resulted S S' q (S.heap q).isBeingChunked := by
  obtain ⟨S₁, happend, h⟩ := Option.bind_eq_some_iff.mp h
  have h₁ := resulted_appendToken happend
  split at h
  next =>
    have h₂ := resulted_cacheFinishedReq h
    rw [h₁.isBeingChunked] at h₂
    exact h₁.trans h₂
  next =>
    cases Option.some.inj h
    exact h₁

/-- Processing a whole batch, each request once. -/
structure BatchResulted (S S' : Sched M) (reqs : List Nat) (count : Int → Int) : Prop where
  others : ∃ heap entries mem, S' = { S with heap, entries, mem }
  other : ∀ q ∉ reqs, S'.heap q = S.heap q
  processed : ∀ q, (S.heap q).Processed (S'.heap q)
  isBeingChunked : ∀ q ∈ reqs, (S'.heap q).isBeingChunked = count (S.heap q).isBeingChunked

omit [MemoryPools M] in
theorem processReqs_spec {process : Sched M → Nat → Nat → Option (Sched M)} (count : Int → Int)
    (hone : ∀ {S S' q token}, process S q token = some S' →
      Resulted S S' q (count (S.heap q).isBeingChunked))
    {results : List (Nat × Nat)} {S S' : Sched M}
    (h : processReqs process results S = some S') (hnodup : (results.map Prod.fst).Nodup) :
    BatchResulted S S' (results.map Prod.fst) count := by
  induction results generalizing S with
  | nil =>
    cases Option.some.inj h
    exact ⟨⟨_, _, _, rfl⟩, fun _ _ => rfl, fun _ => .refl _, by simp⟩
  | cons result results ih =>
    obtain ⟨q, token⟩ := result
    obtain ⟨S₁, hfirst, h⟩ := Option.bind_eq_some_iff.mp h
    rw [List.map_cons, List.nodup_cons] at hnodup
    have h₁ := hone hfirst
    obtain ⟨hothers, hother, hprocessed, hcount⟩ := ih h hnodup.2
    refine ⟨?_, fun q' hq' => ?_, fun q' => ?_, fun q' hq' => ?_⟩
    · obtain ⟨_, _, _, rfl⟩ := h₁.others
      obtain ⟨heap, entries, mem, rfl⟩ := hothers
      exact ⟨heap, entries, mem, rfl⟩
    · simp only [List.map_cons, List.mem_cons, not_or] at hq'
      rw [hother q' hq'.2, h₁.other hq'.1]
    · rcases eq_or_ne q' q with rfl | hne
      · exact h₁.processed.trans (hprocessed q')
      · rw [← h₁.other hne]
        exact hprocessed q'
    · rcases eq_or_ne q' q with rfl | hne
      · rw [hother q' hnodup.1, h₁.isBeingChunked]
      · have hmem : q' ∈ results.map Prod.fst := by simpa [hne] using hq'
        rw [hcount q' hmem, h₁.other hne]

/-- An iteration ends with the result of the batch that is due, if there is one. -/
theorem finishStep_cases {cfg : Config} {sample : Nat → Nat} {S S' : Sched M}
    {out : Option ScheduleBatch} (h : S.finishStep cfg sample out = some S') :
    (∃ pipeBatch nextTokenIds,
        ((S.setLastBatch out).stages S.curPP.getPp).last = some pipeBatch ∧
        runBatch cfg sample out (some pipeBatch) = some nextTokenIds ∧
        (S.setLastBatch out).deliver cfg S.curPP.getPp pipeBatch nextTokenIds = some S') ∨
      (((S.setLastBatch out).stages S.curPP.getPp).last = none ∧
        ∃ ratio, S' = { S.setLastBatch out with newTokenRatio := ratio }) := by
  obtain ⟨nextTokenIds, hresult, h⟩ := Option.bind_eq_some_iff.mp h
  rw [show (S.setLastBatch out).curPP = S.curPP from rfl] at h hresult
  split at h
  next pipeBatch hlast =>
    rw [hlast] at hresult
    exact Or.inl ⟨pipeBatch, nextTokenIds, hlast, hresult, h⟩
  next hlast =>
    refine Or.inr ⟨hlast, ?_⟩
    rw [← Option.some.inj h]
    split
    next => exact ⟨_, rfl⟩
    next => exact ⟨(S.setLastBatch out).newTokenRatio, rfl⟩

/-- The requests of a batch that a result with these tokens reaches. -/
def reached (batch : ScheduleBatch) (nextTokenIds : List Nat) : List Nat :=
  batch.reqs.take nextTokenIds.length

omit [MemoryPools M] in
theorem zip_fst (batch : ScheduleBatch) (nextTokenIds : List Nat) :
    (batch.reqs.zip nextTokenIds).map Prod.fst = reached batch nextTokenIds := by
  rw [List.zip_eq_zip_take_min, List.map_fst_zip (by simp), reached, List.take_eq_take_iff]
  omega

omit [MemoryPools M] in
theorem reached_sublist (batch : ScheduleBatch) (nextTokenIds : List Nat) :
    (reached batch nextTokenIds).Sublist batch.reqs := List.take_sublist _ _

omit [MemoryPools M] in
theorem reached_eq {batch : ScheduleBatch} {nextTokenIds : List Nat}
    (h : batch.reqs.length ≤ nextTokenIds.length) : reached batch nextTokenIds = batch.reqs :=
  List.take_of_length_le h

/-- How the chunk counters of a batch change when its result is processed. -/
def countOf (batch : ScheduleBatch) : Int → Int :=
  if batch.forwardMode.isDecode then id else countedDown

/-- The state after the result of a batch was processed. -/
structure Delivered (idx : Nat) (batch : ScheduleBatch) (nextTokenIds : List Nat)
    (S S' : Sched M) : Prop where
  others : ∃ heap entries mem, S' = { S with
    stages := Function.update S.stages idx ((S.stages idx).modifyLast fun b =>
      { b with outputIds := some nextTokenIds })
    heap, entries, mem }
  other : ∀ q ∉ reached batch nextTokenIds, S'.heap q = S.heap q
  processed : ∀ q, (S.heap q).Processed (S'.heap q)
  isBeingChunked : ∀ q ∈ reached batch nextTokenIds,
    (S'.heap q).isBeingChunked = countOf batch (S.heap q).isBeingChunked

omit [MemoryPools M] in
theorem Delivered.untouched {idx : Nat} {batch : ScheduleBatch} {nextTokenIds : List Nat}
    {S S' : Sched M} (h : Delivered idx batch nextTokenIds S S') {q : Nat} (hq : q ∉ batch.reqs) :
    S'.heap q = S.heap q :=
  h.other q fun hmem => hq ((reached_sublist batch nextTokenIds).subset hmem)

theorem deliver_spec {cfg : Config} {idx : Nat} {batch : ScheduleBatch} {nextTokenIds : List Nat}
    {S S' : Sched M} (h : S.deliver cfg idx batch nextTokenIds = some S')
    (hnodup : batch.reqs.Nodup) (hne : batch.forwardMode.isDecode = true → batch.reqs ≠ []) :
    Delivered idx batch nextTokenIds S S' := by
  unfold deliver processBatchResult at h
  dsimp only at h
  have hfst := zip_fst batch nextTokenIds
  have hnodup' := hnodup.sublist (reached_sublist batch nextTokenIds)
  split at h
  next hmode =>
    obtain ⟨S₁, hprocess, h⟩ := Option.bind_eq_some_iff.mp h
    obtain ⟨⟨heap, entries, mem, rfl⟩, hother, hprocessed, hcount⟩ :=
      processReqs_spec id processDecodeReq_spec hprocess (by rwa [hfst])
    have hempty : batch.isEmpty = false := by
      simpa [ScheduleBatch.isEmpty] using hne hmode
    rw [hempty, if_neg Bool.false_ne_true] at h
    cases Option.some.inj h
    rw [hfst] at hother hcount
    exact ⟨⟨heap, entries, _, rfl⟩, hother, hprocessed, by simpa [countOf, hmode] using hcount⟩
  next hmode =>
    obtain ⟨⟨heap, entries, mem, rfl⟩, hother, hprocessed, hcount⟩ :=
      processReqs_spec countedDown processPrefillReq_spec h (by rwa [hfst])
    rw [hfst] at hother hcount
    exact ⟨⟨heap, entries, _, rfl⟩, hother, hprocessed, by simpa [countOf, hmode] using hcount⟩

end Sched

end FastPP
