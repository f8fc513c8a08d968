import FastPP.Delivery
import FastPP.OutputLens
import FastPP.ChunkedPrefill

namespace FastPP

/-- A finished request stays finished when it is checked again. -/
theorem Req.checkFinished_finished {tokenizer : Option Tokenizer} {r r' : Req}
    (h : r.checkFinished tokenizer = some r') (hfin : r.finished = true) : r'.finished = true := by
  unfold finished at hfin
  split at hfin
  next => simp at hfin
  next hdelayed =>
    unfold checkFinished at h
    rw [if_pos hfin] at h
    obtain rfl := Option.some.inj h
    unfold finished
    rw [if_neg (by dsimp only; omega)]
    exact hfin

namespace Sched

variable {M : Type} {cfg : Config} {complete : Prop} {S S' S'' : Sched M}

/-- No request is unfinished again. -/
def FinishKept (S S' : Sched M) : Prop :=
  ∀ q, (S.heap q).finished = true → (S'.heap q).finished = true

theorem FinishKept.of_eq (h : ∀ q, (S'.heap q).finished = (S.heap q).finished) :
    FinishKept S S' := fun q hq => (h q).trans hq

theorem FinishKept.trans (h : FinishKept S S') (h' : FinishKept S' S'') : FinishKept S S'' :=
  fun q hq => h' q (h q hq)

theorem FinishKept.unfinished (h : FinishKept S S') {q : Nat}
    (hq : (S'.heap q).finished = false) : (S.heap q).finished = false := by
  by_contra hne
  have hfin := h q (by simpa using hne)
  rw [hq] at hfin
  simp at hfin

theorem setReq_finishKept {q : Nat} {r : Req}
    (h : (S.heap q).finished = true → r.finished = true) : FinishKept S (S.setReq q r) := by
  intro p hp
  by_cases hpq : p = q
  · subst hpq
    simpa only [setReq, Function.update_self] using h hp
  · simpa only [setReq, Function.update_of_ne hpq] using hp

theorem appendToken_finishKept {q token : Nat} (h : S.appendToken cfg q token = some S') :
    FinishKept S S' := by
  obtain ⟨r, happend, h⟩ := Option.bind_eq_some_iff.mp h
  obtain rfl := Option.some.inj h
  exact setReq_finishKept fun hfin => Req.checkFinished_finished happend hfin

theorem addLogprobReturnValues_finishKept (S : Sched M) (q : Nat) :
    FinishKept S (S.addLogprobReturnValues q) := by
  unfold addLogprobReturnValues
  split
  next => exact setReq_finishKept fun hfin => hfin
  next => exact .of_eq fun _ => rfl

theorem processReqs_finishKept {process : Sched M → Nat → Nat → Option (Sched M)}
    (hone : ∀ {S S' : Sched M} {q token}, process S q token = some S' → FinishKept S S')
    {results : List (Nat × Nat)} (h : processReqs process results S = some S') :
    FinishKept S S' := by
  induction results generalizing S with
  | nil =>
    obtain rfl := Option.some.inj h
    exact .of_eq fun _ => rfl
  | cons result results ih =>
    obtain ⟨S₁, hfirst, hrest⟩ := Option.bind_eq_some_iff.mp h
    exact (hone hfirst).trans (ih hrest)

variable [MemoryPools M]

theorem cacheFinishedReq_finishKept {q : Nat} (h : S.cacheFinishedReq q = some S') :
    FinishKept S S' := by
  obtain ⟨_, _, h⟩ := Option.bind_eq_some_iff.mp h
  obtain rfl := Option.some.inj h
  exact .of_eq fun _ => rfl

theorem cachePrefilledReq_finishKept {decodingReqs : List Nat} {q : Nat}
    (h : S.cachePrefilledReq decodingReqs q = some S') : FinishKept S S' := by
  unfold cachePrefilledReq at h
  split at h
  next => exact cacheFinishedReq_finishKept h
  next =>
    split at h
    next =>
      obtain rfl := Option.some.inj h
      exact .of_eq fun _ => rfl
    next =>
      obtain ⟨_, _, h⟩ := Option.bind_eq_some_iff.mp h
      obtain rfl := Option.some.inj h
      have hset := @setReq_finishKept M S q
        { S.heap q with prefixLen := (S.heap q).fillIds.length } fun hfin => hfin
      exact hset

theorem processPrefillReq_finishKept {decodingReqs : List Nat} {q token : Nat}
    (h : S.processPrefillReq cfg decodingReqs q token = some S') : FinishKept S S' := by
  unfold processPrefillReq at h
  split at h
  next =>
    obtain ⟨S₁, happend, h⟩ := Option.bind_eq_some_iff.mp h
    obtain ⟨S₂, hcache, h⟩ := Option.bind_eq_some_iff.mp h
    obtain rfl := Option.some.inj h
    exact ((appendToken_finishKept happend).trans (cachePrefilledReq_finishKept hcache)).trans
      (addLogprobReturnValues_finishKept S₂ q)
  next =>
    obtain rfl := Option.some.inj h
    exact setReq_finishKept fun hfin => hfin

theorem processDecodeReq_finishKept {q token : Nat}
    (h : S.processDecodeReq cfg q token = some S') : FinishKept S S' := by
  obtain ⟨S₁, happend, h⟩ := Option.bind_eq_some_iff.mp h
  have happended := appendToken_finishKept happend
  split at h
  next => exact happended.trans (cacheFinishedReq_finishKept h)
  next =>
    obtain rfl := Option.some.inj h
    exact happended

theorem deliver_finishKept {idx : Nat} {batch : ScheduleBatch} {nextTokenIds : List Nat}
    (h : S.deliver cfg idx batch nextTokenIds = some S') : FinishKept S S' := by
  unfold deliver processBatchResult at h
  dsimp only at h
  split at h
  next =>
    obtain ⟨S₁, hprocess, h⟩ := Option.bind_eq_some_iff.mp h
    have hprocessed := processReqs_finishKept processDecodeReq_finishKept hprocess
    rw [← Option.some.inj h]
    split
    next => exact hprocessed
    next => exact hprocessed
  next =>
    have hprocessed := processReqs_finishKept processPrefillReq_finishKept h
    exact hprocessed

end Sched

namespace Sched

variable {M : Type} [MemoryPools M] {cfg : Config} {complete : Prop} {S S' : Sched M}

/-- After the batch of step `d` the chunked request `q` goes on with another chunk. -/
def goesOnAfter (cfg : Config) (ppRank : Nat) (mem : M) (inputs : Nat → StepInput)
    (samples : Nat → Nat → Nat) (d q : Nat) : Bool :=
  (run cfg ppRank mem inputs samples (d + 1)).any fun S =>
    decide ((S.stages (d % cfg.ppSize)).beingChunkedReq = some q) &&
      decide (q ∈ (S.stages (d % cfg.ppSize)).ownReqs)

/-- The result of step `d` appends a token to `output_ids` of `q`. -/
def dueAt (cfg : Config) (ppRank : Nat) (mem : M) (inputs : Nat → StepInput)
    (samples : Nat → Nat → Nat) (d q : Nat) : Bool :=
  decide (q ∈ batchAt cfg ppRank mem inputs samples d) &&
    !goesOnAfter cfg ppRank mem inputs samples d q

/-- How many tokens the results of the first `n` steps append to `output_ids` of `q`. -/
def dueCount (cfg : Config) (ppRank : Nat) (mem : M) (inputs : Nat → StepInput)
    (samples : Nat → Nat → Nat) (n q : Nat) : Nat :=
  (List.range n).countP fun d => dueAt cfg ppRank mem inputs samples d q

variable {r n : Nat} {mem : M} {inputs : Nat → StepInput} {samples : Nat → Nat → Nat}

theorem dueCount_succ (cfg : Config) (r : Nat) (mem : M) (inputs : Nat → StepInput)
    (samples : Nat → Nat → Nat) (n q : Nat) :
    dueCount cfg r mem inputs samples (n + 1) q = dueCount cfg r mem inputs samples n q +
      if dueAt cfg r mem inputs samples n q then 1 else 0 := by
  unfold dueCount
  rw [List.range_succ, List.countP_append, List.countP_singleton]

/-- Steps without a token for `q` do not count. -/
theorem dueCount_eq {m q : Nat} (hle : m ≤ n)
    (h : ∀ d, m ≤ d → d < n → dueAt cfg r mem inputs samples d q = false) :
    dueCount cfg r mem inputs samples n q = dueCount cfg r mem inputs samples m q := by
  induction n with
  | zero => rw [Nat.le_zero.mp hle]
  | succ n ih =>
    by_cases hlast : m = n + 1
    · rw [hlast]
    · have hbefore := ih (by omega) fun d hd hlt => h d hd (by omega)
      have hnow := h n (by omega) (by omega)
      rw [dueCount_succ, hnow, hbefore]
      simp

/-- The states within the last step of a run. -/
theorem exists_runTurn (hrun : run cfg r mem inputs samples (n + 1) = some S') :
    ∃ S merged balanced prefilled decoded newBatch out,
      run cfg r mem inputs samples n = some S ∧
        Turn cfg (inputs n) (samples (n - (cfg.ppSize - 1 - r))) S merged balanced prefilled
          decoded newBatch out S' := by
  obtain ⟨S, hbefore, hrun⟩ := Option.bind_eq_some_iff.mp hrun
  obtain ⟨⟨S₂, out⟩, hstep, hrun⟩ := Option.bind_eq_some_iff.mp hrun
  obtain rfl := Option.some.inj hrun
  obtain ⟨merged, balanced, prefilled, decoded, newBatch, t⟩ := exists_turn hstep
  exact ⟨S, merged, balanced, prefilled, decoded, newBatch, out, hbefore, t⟩

/-- What the result that arrives leaves alone. -/
structure Landed (S S' : Sched M) : Prop where
  nextReq : S'.nextReq = S.nextReq
  waitingQueue : S'.waitingQueue = S.waitingQueue
  pendingBatch : S'.pendingBatch = S.pendingBatch
  stages : ∀ j, (S'.stages j).settled = (S.stages j).settled ∧
    (S'.stages j).ownReqs = (S.stages j).ownReqs ∧
    (S'.stages j).beingChunkedReq = (S.stages j).beingChunkedReq
  last : ∀ j, reqsOf (S'.stages j).last = reqsOf (S.stages j).last
  heap : ∀ q, (S.heap q).Processed (S'.heap q)
  finished : FinishKept S S'

omit [MemoryPools M] in
theorem Landed.places (h : Landed S S') (cfg : Config) (i : Nat) :
    S'.places cfg i = S.places cfg i := by
  unfold Sched.places others
  simp only [h.waitingQueue, h.pendingBatch, (h.stages _).1, (h.stages _).2.2]

section Step

variable {input : StepInput} {sample : Nat → Nat} {merged balanced prefilled decoded : Sched M}
  {newBatch out : Option ScheduleBatch}

theorem Turn.schedulePhases
    (t : Turn cfg input sample S merged balanced prefilled decoded newBatch out S') :
    SchedulePhases cfg input S merged balanced prefilled decoded newBatch out :=
  ⟨t.merge, t.rebalance, t.prefill, t.decode⟩

theorem SchedulePhases.getNextBatchToRun
    (p : SchedulePhases cfg input S merged balanced prefilled decoded newBatch out) :
    (S.receive cfg input).getNextBatchToRun cfg input.tpot = some (decoded, out) := by
  unfold Sched.getNextBatchToRun
  simp only [p.merge, p.rebalance, p.prefill, p.decode, Option.bind_eq_bind, Option.bind_some]

theorem reqsOf_batchAt (hrun : run cfg r mem inputs samples n = some S)
    (p : SchedulePhases cfg (inputs n) S merged balanced prefilled decoded newBatch out) :
    batchAt cfg r mem inputs samples n = reqsOf out := by
  rw [batchAt, hrun, Option.bind_some, p.getNextBatchToRun, Option.bind_some]

/-- The batch of a step stays in its micro-batch until the next turn. -/
theorem Turn.last (hr : r < cfg.ppSize) (hcount : S.curPP = .after cfg.ppSize r n)
    (h : Placed complete cfg (n % cfg.ppSize)
      (flying cfg.ppSize (cfg.ppSize - 1 - r) (n % cfg.ppSize)) S)
    (hroom : ¬ S.FetchesWhenFull cfg input)
    (t : Turn cfg input sample S merged balanced prefilled decoded newBatch out S') :
    ((decoded.setLastBatch out).stages (n % cfg.ppSize)).last = out := by
  obtain ⟨hturn, hcases, _⟩ := t.placed hr hcount h hroom
  rcases hcases with ⟨_, hnot, hdecoded, _⟩ | ⟨batch, _, _, adder, _, rfl, rfl, _, hp⟩
  · rw [(hdecoded.dispatched hturn hnot).1]
    have hrunning := hdecoded.running
    cases out with
    | none => rfl
    | some b => exact hrunning
  · rw [(hp.dispatched hturn).1]
    rfl

/-- The end of a step: the result that arrives moves no request. -/
theorem Turn.landed (hr : r < cfg.ppSize) (hcount : S.curPP = .after cfg.ppSize r n)
    (h : Placed complete cfg (n % cfg.ppSize)
      (flying cfg.ppSize (cfg.ppSize - 1 - r) (n % cfg.ppSize)) S)
    (hroom : ¬ S.FetchesWhenFull cfg input)
    (t : Turn cfg input sample S merged balanced prefilled decoded newBatch out S') :
    Landed (decoded.setLastBatch out) S' := by
  have hi : n % cfg.ppSize < cfg.ppSize := Nat.mod_lt _ (by omega)
  obtain ⟨_, _, hplaced⟩ := t.placed hr hcount h.any hroom
  rcases (hplaced.finish hr hi (t.arriving hcount) (fun hfalse => hfalse.elim) t.finish).2 with
    ⟨batch, _, _, _, hdeliver, hdelivered⟩ | ⟨_, ratio, rfl⟩
  · have hstages := hdelivered.stages
    obtain ⟨heap, entries, mem, hS⟩ := hdelivered.others
    refine ⟨by rw [hS], by rw [hS], by rw [hS], hstages, fun j => ?_, hdelivered.processed,
      deliver_finishKept hdeliver⟩
    rw [hS]
    by_cases hj : j = (r + n % cfg.ppSize + 1) % cfg.ppSize
    · subst hj
      simp only [Function.update_self]
      exact Stage.modifyLast_last_reqs _ fun _ => rfl
    · simp only [Function.update_of_ne hj]
  · exact ⟨rfl, rfl, rfl, fun _ => ⟨rfl, rfl, rfl⟩, fun _ => rfl, fun _ => .refl _,
      .of_eq fun _ => rfl⟩

end Step

/-- What scheduling in step `n` does to the records of the batches. -/
theorem Turn.flights {merged balanced prefilled decoded : Sched M}
    {newBatch out : Option ScheduleBatch} (hr : r < cfg.ppSize)
    (hcount : S.curPP = .after cfg.ppSize r n)
    (h : Placed complete cfg (n % cfg.ppSize)
      (flying cfg.ppSize (cfg.ppSize - 1 - r) (n % cfg.ppSize)) S)
    (hf : Flights cfg (n % cfg.ppSize) n (batchAt cfg r mem inputs samples)
      (goesOnAfter cfg r mem inputs samples) S)
    (hroom : ¬ S.FetchesWhenFull cfg (inputs n))
    (hbefore : run cfg r mem inputs samples n = some S)
    (hrun : run cfg r mem inputs samples (n + 1) = some S')
    (t : Turn cfg (inputs n) (samples (n - (cfg.ppSize - 1 - r))) S merged balanced prefilled
      decoded newBatch out S') :
    Flights cfg ((n % cfg.ppSize + 1) % cfg.ppSize) (n + 1)
      (batchAt cfg r mem inputs samples) (goesOnAfter cfg r mem inputs samples)
      (decoded.setLastBatch out) := by
  have hlanded := t.landed hr hcount h hroom
  have hlast := t.last hr hcount h hroom
  refine hf.dispatch (Nat.mod_lt _ (by omega))
    (fun j hj => t.schedulePhases.stages ((receive_cur hcount).symm ▸ hj)) ?_ fun q => ?_
  · rw [hlast, reqsOf_batchAt hbefore t.schedulePhases]
  · rw [goesOnAfter, hrun, Option.any_some, Bool.and_eq_true, decide_eq_true_eq,
      decide_eq_true_eq, (hlanded.stages _).2.1, (hlanded.stages _).2.2]

/-- Each micro-batch holds the batch of its last turn, and the chunk that goes on after it. -/
theorem run_flights (hr : r < cfg.ppSize)
    (hroom : ∀ k < n, ∀ S, run cfg r mem inputs samples k = some S →
      ¬ S.FetchesWhenFull cfg (inputs k))
    (hrun : run cfg r mem inputs samples n = some S) :
    Flights cfg (n % cfg.ppSize) n (batchAt cfg r mem inputs samples)
      (goesOnAfter cfg r mem inputs samples) S := by
  induction n generalizing S with
  | zero =>
    obtain rfl := Option.some.inj hrun
    rw [Nat.zero_mod]
    exact flights_init cfg r mem
  | succ n ih =>
    obtain ⟨S₁, merged, balanced, prefilled, decoded, newBatch, out, hbefore, t⟩ :=
      exists_runTurn hrun
    have hnow := hroom n (by omega) S₁ hbefore
    obtain ⟨hcount, hplaced⟩ := run_placed_any hr (fun k hk => hroom k (by omega)) hbefore
    have hlanded := t.landed hr hcount hplaced hnow
    have hflights := t.flights hr hcount hplaced (ih (fun k hk => hroom k (by omega)) hbefore)
      hnow hbefore hrun
    rw [show (n + 1) % cfg.ppSize = (n % cfg.ppSize + 1) % cfg.ppSize by simp]
    exact hflights.congr hlanded.last (fun j => (hlanded.stages j).2.1)
      fun j => (hlanded.stages j).2.2

end Sched

end FastPP
