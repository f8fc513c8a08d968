import FastPP.Flush

namespace FastPP

/-- The messages of `process_input_requests` with `FlushCacheReq`, which comes with the
reading of the clock. -/
inductive ServerReq
  | sched (req : RecvReq)
  | flush (now : Rat)

/-- What an iteration reads from outside when messages can flush; the controller is the one
that the first message finds. -/
structure ServerInput (α β : Type) where
  recvReqs : List ServerReq
  controller : Controller α β
  availableSize : Int
  chunkSync : Option ChunkSync
  tpot : Rat

namespace Sched

variable {α β : Type} {cfg : Config} {args : FlushArgs α β}

def handleServerReq (cfg : Config) (args : FlushArgs α β)
    (state : Sched Memory × Controller α β) (req : ServerReq) :
    Sched Memory × Controller α β :=
  match req with
  | .sched (.generate input) =>
    (state.1.handleGenerateRequest cfg input, state.2.pushQps state.1.nextReq)
  | .sched (.abort rid) => (state.1.abortRequest rid, state.2)
  | .flush now =>
    ((state.1.flushCache cfg args now state.2).1, (state.1.flushCache cfg args now state.2).2.1)

/-- The state after the first messages of an iteration. -/
def afterReqs (cfg : Config) (args : FlushArgs α β) (input : ServerInput α β)
    (recvReqs : List ServerReq) (S : Sched Memory) : Sched Memory × Controller α β :=
  recvReqs.foldl (handleServerReq cfg args)
    ({ S with curPP := S.curPP.next, availableSize := input.availableSize }, input.controller)

/-- `recv_requests`, `process_input_requests` and `decide_chunk_size`. -/
def receiveServer (cfg : Config) (args : FlushArgs α β) (input : ServerInput α β)
    (S : Sched Memory) : Sched Memory :=
  let S := (S.afterReqs cfg args input input.recvReqs).1
  match input.chunkSync with
  | none => S
  | some sync => { S with
      chunkedPrefillSize := some sync.chunkSize
      maxPrefillTokens := sync.chunkSize
      rebalanceMetrics := some sync.metrics }

def serverStep (cfg : Config) (args : FlushArgs α β) (input : ServerInput α β)
    (sample : Nat → Nat) (S : Sched Memory) : Option (Sched Memory) := do
  let formed ← (S.receiveServer cfg args input).getNextBatchToRun cfg input.tpot
  formed.1.finishStep cfg sample formed.2

/-- `run` with flushes among the messages. -/
def serverRun (cfg : Config) (args : FlushArgs α β) (ppRank reqSlots tokenSlots : Nat)
    (inputs : Nat → ServerInput α β) (samples : Nat → Nat → Nat) : Nat → Option (Sched Memory)
  | 0 => some (init cfg ppRank (.clear reqSlots tokenSlots))
  | steps + 1 => do
    let S ← serverRun cfg args ppRank reqSlots tokenSlots inputs samples steps
    S.serverStep cfg args (inputs steps) (samples (steps - (cfg.ppSize - 1 - ppRank)))

variable {S S' : Sched Memory}

/-- Messages leave the batches and the rows as they are. -/
structure SameBatches (S S' : Sched Memory) : Prop where
  stages : S'.stages = S.stages
  pendingBatch : S'.pendingBatch = S.pendingBatch
  reqPoolIdx : S'.mem.reqPoolIdx = S.mem.reqPoolIdx

theorem SameBatches.trans {S'' : Sched Memory} (h : SameBatches S S')
    (h' : SameBatches S' S'') : SameBatches S S'' :=
  ⟨h'.stages.trans h.stages, h'.pendingBatch.trans h.pendingBatch,
    h'.reqPoolIdx.trans h.reqPoolIdx⟩

theorem handleServerReq_same (state : Sched Memory × Controller α β) (req : ServerReq) :
    SameBatches state.1 (handleServerReq cfg args state req).1 := by
  cases req with
  | sched req =>
    cases req with
    | generate input => exact ⟨rfl, rfl, rfl⟩
    | abort rid =>
      obtain ⟨⟨heap, nextReq, queue, heq⟩, _⟩ := intake_abortRequest cfg state.1 rid
      show SameBatches state.1 (state.1.abortRequest rid)
      rw [heq]
      exact ⟨rfl, rfl, rfl⟩
  | flush now =>
    obtain ⟨_, _, _, _, _, heq⟩ := flushCache_fst cfg args now state.1 state.2
    show SameBatches state.1 (state.1.flushCache cfg args now state.2).1
    rw [heq]
    exact ⟨rfl, rfl, rfl⟩

theorem afterReqs_same (cfg : Config) (args : FlushArgs α β) (input : ServerInput α β)
    (recvReqs : List ServerReq) (S : Sched Memory) :
    SameBatches S (S.afterReqs cfg args input recvReqs).1 := by
  have hfold : ∀ (recvReqs : List ServerReq) (state : Sched Memory × Controller α β),
      SameBatches state.1 (recvReqs.foldl (handleServerReq cfg args) state).1 := by
    intro recvReqs
    induction recvReqs with
    | nil => exact fun state => ⟨rfl, rfl, rfl⟩
    | cons req rest ih =>
      exact fun state => (handleServerReq_same state req).trans (ih _)
  have hfirst : SameBatches S { S with
      curPP := S.curPP.next, availableSize := input.availableSize } := ⟨rfl, rfl, rfl⟩
  exact hfirst.trans (hfold recvReqs
    ({ S with curPP := S.curPP.next, availableSize := input.availableSize }, input.controller))

theorem Rowed.same (h : Rowed (fun _ => True) S) (hs : SameBatches S S') :
    Rowed (fun _ => True) S' := by
  obtain ⟨hstages, hpending, hrows⟩ := hs
  refine ⟨?_, ?_, ?_, ?_⟩
  · rw [hpending, hrows]
    exact h.pending
  · rw [hstages, hrows]
    exact h.running
  · rw [hstages, hrows]
    exact h.chunk
  · rw [hstages, hrows]
    exact h.last

theorem rowed_init (cfg : Config) (ppRank reqSlots tokenSlots : Nat) :
    Rowed (fun _ => True) (init cfg ppRank (.clear reqSlots tokenSlots)) := by
  refine ⟨?_, ?_, ?_, ?_⟩ <;> simp [init, reqsOf, Stage.last]

theorem serverRun_rowed {ppRank reqSlots tokenSlots n : Nat} {inputs : Nat → ServerInput α β}
    {samples : Nat → Nat → Nat}
    (h : serverRun cfg args ppRank reqSlots tokenSlots inputs samples n = some S) :
    Rowed (fun _ => True) S := by
  induction n generalizing S with
  | zero =>
    cases Option.some.inj h
    exact rowed_init cfg ppRank reqSlots tokenSlots
  | succ n ih =>
    obtain ⟨S₀, hrun, h⟩ := Option.bind_eq_some_iff.mp h
    obtain ⟨⟨formed, out⟩, hnext, h⟩ := Option.bind_eq_some_iff.mp h
    refine Rowed.schedule (S := S₀.receiveServer cfg args (inputs n)) ?_ hnext h
    have hmessages := afterReqs_same cfg args (inputs n) (inputs n).recvReqs S₀
    apply (ih hrun).same
    unfold receiveServer
    dsimp only
    split
    next => exact hmessages
    next => exact hmessages.trans ⟨rfl, rfl, rfl⟩

/-- In every run with flushes, those that step `n` handles are safe and atomic exactly when
each finds only finished requests in batches or nothing to reset. -/
theorem serverRun_flushes_iff (cfg : Config) (args : FlushArgs α β)
    (ppRank reqSlots tokenSlots : Nat) (inputs : Nat → ServerInput α β)
    (samples : Nat → Nat → Nat) (n : Nat) :
    (∀ S before now after,
      serverRun cfg args ppRank reqSlots tokenSlots inputs samples n = some S →
      (inputs n).recvReqs = before ++ .flush now :: after →
        (S.afterReqs cfg args (inputs n) before).1.FlushSafe cfg args now
          (S.afterReqs cfg args (inputs n) before).2) ↔
    (∀ S before now after,
      serverRun cfg args ppRank reqSlots tokenSlots inputs samples n = some S →
      (inputs n).recvReqs = before ++ .flush now :: after →
        (S.afterReqs cfg args (inputs n) before).1.FlushClean cfg args now
          (S.afterReqs cfg args (inputs n) before).2) := by
  refine forall₄_congr fun S before now after => ?_
  refine forall_congr' fun hrun => forall_congr' fun _ => ?_
  exact flushSafe_iff ((serverRun_rowed hrun).same (afterReqs_same cfg args (inputs n) before S))

end Sched

def oneRank : Config := { twoRanks with ppSize := 1, enableBatchRebalancing := false }

/-- A controller that has measured a time of 2 per token. -/
def measured : Controller Unit Unit :=
  { stepCount := 3
    kvPressureChunkRestore := []
    execTimeUpdateSum := 0
    execTimeUpdateCount := 0
    alpRuntimeTableWarningLogged := false
    tpot := 2
    ttft := 1
    alpScheduler := none
    qpsQueue := []
    treeCacheMetrics := (0, 0)
    grammarBackend := none
    systemStartTime := 0 }

def plainArgs : FlushArgs Unit Unit := ⟨1, id, id⟩

/-- One request arrives; a flush comes with it or in the next step. -/
def flushAt (flushStep step : Nat) : ServerInput Unit Unit where
  recvReqs := (if step = 0 then [.sched (.generate (plainInput 1 [5] 8))] else []) ++
    if step = flushStep then [.flush 7] else []
  controller := measured
  availableSize := 100
  chunkSync := none
  tpot := 0

def flushRun (flushStep : Nat) : Nat → Option (Sched Memory) :=
  Sched.serverRun oneRank plainArgs 0 9 100 (flushAt flushStep) fun _ i => i

/-- In step 1 the prompt has been prefilled but its batch is not merged, so the flush gives
its slots away; in step 0 the request waits, so the flush fails but resets the measured
times. -/
theorem flush_unsafe_and_not_atomic :
    (∃ S, flushRun 1 1 = some S ∧ (flushAt 1 1).recvReqs = [] ++ .flush 7 :: [] ∧
      ¬ (S.afterReqs oneRank plainArgs (flushAt 1 1) []).1.FlushSafe oneRank plainArgs 7
        (S.afterReqs oneRank plainArgs (flushAt 1 1) []).2) ∧
    ∃ S before, flushRun 0 0 = some S ∧ (flushAt 0 0).recvReqs = before ++ .flush 7 :: [] ∧
      ¬ (S.afterReqs oneRank plainArgs (flushAt 0 0) before).1.FlushSafe oneRank plainArgs 7
        (S.afterReqs oneRank plainArgs (flushAt 0 0) before).2 := by
  constructor
  · have hview : ((flushRun 1 1).map fun S =>
        (S.afterReqs oneRank plainArgs (flushAt 1 1) []).1).map (fun S =>
          ((S.flushCache oneRank plainArgs 7 measured).2.2,
            decide (0 ∈ (S.flushCache oneRank plainArgs 7 measured).1.inBatches oneRank),
            ((S.flushCache oneRank plainArgs 7 measured).1.heap 0).finished,
            ((S.flushCache oneRank plainArgs 7 measured).1.mem.reqPoolIdx 0).isSome)) =
        some (true, true, false, true) := by
      decide +kernel
    obtain ⟨S', hS', he⟩ := Option.map_eq_some_iff.mp hview
    obtain ⟨S, hS, rfl⟩ := Option.map_eq_some_iff.mp hS'
    simp only [Prod.mk.injEq, decide_eq_true_eq] at he
    obtain ⟨hreturned, hmem, hunfinished, hrow⟩ := he
    exact ⟨S, hS, rfl, fun h => h.1 hreturned 0 hmem hunfinished (.inl hrow)⟩
  · refine ⟨_, [.sched (.generate (plainInput 1 [5] 8))], rfl, rfl, ?_⟩
    intro h
    have htpot := congrArg Controller.tpot (h.2 (by decide +kernel)).2
    exact absurd htpot (by decide +kernel)

end FastPP
