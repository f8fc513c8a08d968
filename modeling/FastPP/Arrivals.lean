import FastPP.Reachable

namespace FastPP

/-- What a request was made with. -/
structure Req.SameInput (r r' : Req) : Prop where
  rid : r'.rid = r.rid
  originInputIds : r'.originInputIds = r.originInputIds
  samplingParams : r'.samplingParams = r.samplingParams

namespace Req.SameInput

variable {r r' r'' : Req}

theorem refl (r : Req) : r.SameInput r := ⟨rfl, rfl, rfl⟩

theorem trans (h : r.SameInput r') (h' : r'.SameInput r'') : r.SameInput r'' where
  rid := h'.rid.trans h.rid
  originInputIds := h'.originInputIds.trans h.originInputIds
  samplingParams := h'.samplingParams.trans h.samplingParams

theorem of_prepared (h : r.Prepared r') : r.SameInput r' := by
  obtain ⟨_, _, _, _, _, _, _, rfl⟩ := h
  exact ⟨rfl, rfl, rfl⟩

theorem of_processed (h : r.Processed r') : r.SameInput r' := by
  obtain ⟨_, _, _, _, _, _, rfl⟩ := h
  exact ⟨rfl, rfl, rfl⟩

end Req.SameInput

/-- The generation requests among the messages. -/
def generated (recvReqs : List RecvReq) : List GenerateInput :=
  recvReqs.filterMap fun
    | .generate input => some input
    | .abort _ => none

namespace Sched

section Requests

variable {M : Type} {cfg : Config} {S S' S'' : Sched M}

/-- The requests `inputs` were handled between two states, which numbers them in their order. -/
structure Grown (cfg : Config) (inputs : List GenerateInput) (S S' : Sched M) : Prop where
  nextReq : S'.nextReq = S.nextReq + inputs.length
  old : ∀ q < S.nextReq, (S.heap q).SameInput (S'.heap q)
  new : ∀ k input, inputs[k]? = some input →
    (handledReq cfg input).SameInput (S'.heap (S.nextReq + k))

theorem Grown.refl (cfg : Config) (S : Sched M) : Grown cfg [] S S :=
  ⟨rfl, fun _ _ => .refl _, fun _ _ hk => absurd hk (by simp)⟩

theorem Grown.trans {inputs inputs' : List GenerateInput} (h : Grown cfg inputs S S')
    (h' : Grown cfg inputs' S' S'') : Grown cfg (inputs ++ inputs') S S'' where
  nextReq := by rw [h'.nextReq, h.nextReq, List.length_append, Nat.add_assoc]
  old q hq := (h.old q hq).trans (h'.old q (by rw [h.nextReq]; omega))
  new k input hk := by
    by_cases hlt : k < inputs.length
    · rw [List.getElem?_append_left hlt] at hk
      exact (h.new k input hk).trans (h'.old _ (by rw [h.nextReq]; omega))
    · rw [List.getElem?_append_right (by omega)] at hk
      have hnew := h'.new _ input hk
      have hindex : S'.nextReq + (k - inputs.length) = S.nextReq + k := by
        rw [h.nextReq]
        omega
      rwa [hindex] at hnew

/-- Nothing arrived. -/
theorem Grown.of_same (hnext : S'.nextReq = S.nextReq)
    (h : ∀ q, (S.heap q).SameInput (S'.heap q)) : Grown cfg [] S S' :=
  ⟨hnext, fun q _ => h q, fun _ _ hk => absurd hk (by simp)⟩

theorem Frame.grown (h : Frame S S') : Grown cfg [] S S' :=
  .of_same h.nextReq fun q => .of_prepared (h.heap q)

theorem grown_processInputRequest (cfg : Config) (S : Sched M) (recvReq : RecvReq) :
    Grown cfg (generated [recvReq]) S (S.processInputRequest cfg recvReq) := by
  cases recvReq with
  | generate input =>
    refine ⟨rfl, fun q hq => ?_, fun k given hk => ?_⟩
    · have hne : q ≠ S.nextReq := Nat.ne_of_lt hq
      simp only [processInputRequest, handleGenerateRequest, setReq, Function.update_of_ne hne]
      exact .refl _
    · obtain ⟨rfl, rfl⟩ : k = 0 ∧ input = given := by
        have hlt := (List.getElem?_eq_some_iff.mp hk).1
        obtain rfl : k = 0 := by
          have hone : (generated [RecvReq.generate input]).length = 1 := rfl
          omega
        exact ⟨rfl, Option.some.inj hk⟩
      simp only [processInputRequest, handleGenerateRequest, setReq, Nat.add_zero,
        Function.update_self]
      exact .refl _
  | abort rid =>
    show Grown cfg [] S (S.abortRequest rid)
    unfold abortRequest
    split
    next => exact .of_same rfl fun _ => .refl _
    next =>
      split
      next q _ =>
        refine .of_same rfl fun q' => ?_
        by_cases hq : q' = q
        · subst hq
          simp only [setReq, Function.update_self]
          exact ⟨rfl, rfl, rfl⟩
        · simp only [setReq, Function.update_of_ne hq]
          exact .refl _
      next => exact .of_same rfl fun _ => .refl _

theorem grown_processInputRequests (cfg : Config) (recvReqs : List RecvReq) (S : Sched M) :
    Grown cfg (generated recvReqs) S (S.processInputRequests cfg recvReqs) := by
  induction recvReqs generalizing S with
  | nil => exact .refl cfg S
  | cons recvReq recvReqs ih =>
    have hsplit : generated (recvReq :: recvReqs) = generated [recvReq] ++ generated recvReqs := by
      unfold generated
      rw [← List.filterMap_append, List.singleton_append]
    rw [hsplit]
    exact (grown_processInputRequest cfg S recvReq).trans (ih _)

end Requests

variable {M : Type} [MemoryPools M] {cfg : Config} {S S' : Sched M}

omit [MemoryPools M] in
theorem grown_receive (cfg : Config) (input : StepInput) (S : Sched M) :
    Grown cfg (generated input.recvReqs) S (S.receive cfg input) := by
  have h := grown_processInputRequests cfg input.recvReqs
    { S with curPP := S.curPP.next, availableSize := input.availableSize }
  have hbefore : Grown cfg (generated input.recvReqs) S (processInputRequests cfg
      { S with curPP := S.curPP.next, availableSize := input.availableSize } input.recvReqs) :=
    ⟨h.nextReq, h.old, h.new⟩
  unfold receive
  dsimp only
  split
  next => exact hbefore
  next => exact ⟨hbefore.nextReq, hbefore.old, hbefore.new⟩

omit [MemoryPools M] in
theorem processReqs_grown {process : Sched M → Nat → Nat → Option (Sched M)} {count : Int → Int}
    (hone : ∀ {S S' q token}, process S q token = some S' →
      Resulted S S' q (count (S.heap q).isBeingChunked))
    {results : List (Nat × Nat)} (h : processReqs process results S = some S') :
    Grown cfg [] S S' := by
  induction results generalizing S with
  | nil =>
    obtain rfl := Option.some.inj h
    exact .refl cfg S
  | cons result results ih =>
    obtain ⟨q, token⟩ := result
    obtain ⟨S₁, hfirst, hrest⟩ := Option.bind_eq_some_iff.mp h
    have h₁ := hone hfirst
    have hgrown : Grown cfg [] S S₁ := by
      refine .of_same ?_ fun q' => ?_
      · obtain ⟨_, _, _, rfl⟩ := h₁.others
        rfl
      · by_cases hq : q' = q
        · subst hq
          exact .of_processed h₁.processed
        · rw [h₁.other hq]
          exact .refl _
    exact hgrown.trans (ih hrest)

theorem deliver_grown {idx : Nat} {batch : ScheduleBatch} {nextTokenIds : List Nat}
    (h : S.deliver cfg idx batch nextTokenIds = some S') : Grown cfg [] S S' := by
  unfold deliver processBatchResult at h
  dsimp only at h
  split at h
  next =>
    obtain ⟨S₁, hprocess, h⟩ := Option.bind_eq_some_iff.mp h
    have hgrown := @processReqs_grown M cfg _ _ _ id processDecodeReq_spec _ hprocess
    have hstart : Grown cfg [] S S₁ := ⟨hgrown.nextReq, hgrown.old, hgrown.new⟩
    have hend : Grown cfg [] S₁ S' := by
      rw [← Option.some.inj h]
      split
      next => exact .of_same rfl fun _ => .refl _
      next => exact .of_same rfl fun _ => .refl _
    exact hstart.trans hend
  next =>
    have hgrown := @processReqs_grown M cfg _ _ _ countedDown processPrefillReq_spec _ h
    exact ⟨hgrown.nextReq, hgrown.old, hgrown.new⟩

omit [MemoryPools M] in
theorem Prefilled.grown {batch : ScheduleBatch} {canRunList : List Nat}
    (h : Prefilled cfg S S' batch canRunList) : Grown cfg [] S S' := by
  refine .of_same h.nextReq fun q => ?_
  have hlisted : (S.heap q).SameInput (listed canRunList S'.stage.beingChunkedReq S.cur q
      (S.heap q)) := ⟨rfl, rfl, rfl⟩
  exact hlisted.trans (.of_prepared (h.heap q))

theorem mergeLastBatch_grown (h : S.mergeLastBatch = some S') : Grown cfg [] S S' := by
  rcases mergeLastBatch_spec h with ⟨_, _, _, hmerged⟩ | ⟨_, hquiet⟩
  · exact hmerged.toFrame.grown
  · exact hquiet.toFrame.grown

theorem rebalanceIfEnabled_grown {tpot : Rat} (h : S.rebalanceIfEnabled cfg tpot = some S') :
    Grown cfg [] S S' := by
  unfold rebalanceIfEnabled at h
  split at h
  next => exact (rebalance_moved h).1.toFrame.grown
  next =>
    obtain rfl := Option.some.inj h
    exact .refl cfg S

/-- Scheduling takes in no request. -/
theorem getNextBatchToRun_grown {tpot : Rat} {out : Option ScheduleBatch}
    (h : S.getNextBatchToRun cfg tpot = some (S', out)) : Grown cfg [] S S' := by
  obtain ⟨merged, hmerge, h⟩ := Option.bind_eq_some_iff.mp h
  obtain ⟨balanced, hbalance, h⟩ := Option.bind_eq_some_iff.mp h
  obtain ⟨⟨prefilled, newBatch⟩, hprefill, hdecode⟩ := Option.bind_eq_some_iff.mp h
  have hprefilled : Grown cfg [] balanced prefilled := by
    rcases getNewBatchPrefill_spec hprefill with ⟨_, hnot⟩ | ⟨_, _, _, _, _, _, hp⟩
    · exact hnot.toFrame.grown
    · exact hp.grown
  have hdecoded : Grown cfg [] prefilled S' := by
    rcases orDecode_spec hdecode with ⟨_, _, rfl⟩ | ⟨_, hdecoded⟩
    · exact .refl cfg S'
    · exact hdecoded.toFrame.grown
  exact (((mergeLastBatch_grown hmerge).trans (rebalanceIfEnabled_grown hbalance)).trans
    hprefilled).trans hdecoded

theorem finishStep_grown {sample : Nat → Nat} {out : Option ScheduleBatch}
    (h : S.finishStep cfg sample out = some S') : Grown cfg [] S S' := by
  have hset : Grown cfg [] S (S.setLastBatch out) := .of_same rfl fun _ => .refl _
  rcases finishStep_cases h with ⟨_, _, _, _, hd⟩ | ⟨_, ratio, rfl⟩
  · exact hset.trans (deliver_grown hd)
  · exact ⟨hset.nextReq, hset.old, hset.new⟩

theorem step_grown {input : StepInput} {sample : Nat → Nat} {out : Option ScheduleBatch}
    (h : S.step cfg input sample = some (S', out)) :
    Grown cfg (generated input.recvReqs) S S' := by
  obtain ⟨⟨T, out'⟩, hnext, h⟩ := Option.bind_eq_some_iff.mp h
  obtain ⟨S₁, hfinish, h⟩ := Option.bind_eq_some_iff.mp h
  obtain ⟨rfl, rfl⟩ := Prod.mk.inj (Option.some.inj h)
  have hgrown := ((grown_receive cfg input S).trans (getNextBatchToRun_grown hnext)).trans
    (finishStep_grown hfinish)
  rwa [List.append_nil, List.append_nil] at hgrown

/-- The generation requests of the first steps. -/
def arrivals (inputs : Nat → StepInput) (n : Nat) : List GenerateInput :=
  (List.range n).flatMap fun k => generated (inputs k).recvReqs

theorem arrivals_succ (inputs : Nat → StepInput) (n : Nat) :
    arrivals inputs (n + 1) = arrivals inputs n ++ generated (inputs n).recvReqs := by
  unfold arrivals
  rw [List.range_succ, List.flatMap_append, List.flatMap_singleton]

/-- In every run the requests are numbered as they arrive, and keep what they were made with. -/
theorem run_arrivals {r : Nat} {mem : M} {inputs : Nat → StepInput} {samples : Nat → Nat → Nat}
    {n : Nat} (hrun : run cfg r mem inputs samples n = some S) :
    Grown cfg (arrivals inputs n) (Sched.init cfg r mem) S := by
  induction n generalizing S with
  | zero =>
    obtain rfl := Option.some.inj hrun
    exact .refl cfg _
  | succ n ih =>
    obtain ⟨S₁, hbefore, hrun⟩ := Option.bind_eq_some_iff.mp hrun
    obtain ⟨⟨S₂, out⟩, hstep, hrun⟩ := Option.bind_eq_some_iff.mp hrun
    obtain rfl := Option.some.inj hrun
    rw [arrivals_succ]
    exact (ih hbefore).trans (step_grown hstep)

end Sched

end FastPP
