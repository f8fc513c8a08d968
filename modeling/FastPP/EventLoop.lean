import FastPP.State
import FastPP.Forming
import FastPP.RebalanceMoves
import FastPP.RebalanceSize

namespace FastPP

/-- A `TokenizedGenerateReqInput` without images, embeddings and grammar;
`invalidSession` says that its session id is given but unknown. -/
structure GenerateInput where
  rid : Nat
  inputIds : List Nat
  samplingParams : SamplingParams
  maxNewTokens : Option Nat
  returnLogprob : Bool
  logprobStartLen : Int
  topLogprobsNum : Nat
  loraPath : Option Nat
  invalidSession : Bool
  deriving DecidableEq

/-- The messages of `process_input_requests` that are modelled. -/
inductive RecvReq
  | generate (input : GenerateInput)
  | abort (rid : Nat)
  deriving DecidableEq

/-- `Req.__init__`. -/
def Req.new (input : GenerateInput) : Req where
  rid := input.rid
  originInputIds := input.inputIds
  outputIds := []
  outputIdsLen := 0
  fillIds := []
  samplingParams := { input.samplingParams with maxNewTokens := input.maxNewTokens.getD (2 ^ 30) }
  loraPath := input.loraPath
  finishedReason := none
  toAbort := false
  delayed := 0
  decodedText := ""
  prefixLen := 0
  extendInputLen := 0
  isBeingChunked := 0
  returnLogprob := input.returnLogprob
  logprobStartLen := 0
  topLogprobsNum := input.topLogprobsNum
  hasNormalizedPromptLogprob := false
  cachedTokens := 0
  extendLogprobStartLen := 0
  ppIdx := none

/-- The request that `handle_generate_request` appends to the waiting queue. -/
def handledReq (cfg : Config) (input : GenerateInput) : Req :=
  let req := Req.new input
  if input.invalidSession then
    { req with finishedReason := some (.abort "Invalid request: session id does not exist") }
  else
    let originInputIds := req.originInputIds.take cfg.maxReqInputLen
    { req with
      logprobStartLen :=
        if input.logprobStartLen = -1 then (input.inputIds.length : Int) - 1
        else input.logprobStartLen
      originInputIds
      samplingParams := { req.samplingParams with
        maxNewTokens :=
          min req.samplingParams.maxNewTokens (cfg.maxReqLen - originInputIds.length - 1) } }

namespace Sched

variable {M : Type}

def handleGenerateRequest (cfg : Config) (S : Sched M) (input : GenerateInput) : Sched M :=
  { S.setReq S.nextReq (handledReq cfg input) with
    nextReq := S.nextReq + 1
    waitingQueue := S.waitingQueue ++ [S.nextReq] }

def abortRequest (S : Sched M) (rid : Nat) : Sched M :=
  match S.waitingQueue.find? fun q => decide ((S.heap q).rid = rid) with
  | some q => { S with waitingQueue := S.waitingQueue.erase q }
  | none =>
    match (reqsOf S.stage.runningBatch).find? fun q =>
        decide ((S.heap q).rid = rid) && !(S.heap q).finished with
    | some q => S.setReq q { S.heap q with toAbort := true }
    | none => S

def processInputRequest (cfg : Config) (S : Sched M) : RecvReq → Sched M
  | .generate input => S.handleGenerateRequest cfg input
  | .abort rid => S.abortRequest rid

def processInputRequests (cfg : Config) (S : Sched M) (recvReqs : List RecvReq) : Sched M :=
  recvReqs.foldl (processInputRequest cfg) S

end Sched

/-- The message of `sync_chunk_size`: the chunk size and the rebalance metrics. -/
structure ChunkSync where
  chunkSize : Nat
  metrics : Rat × Nat × Rat
  deriving DecidableEq

/-- What one iteration of the event loop reads from outside: the received requests
with the `available_size` of rank 0, the chunk message, if any, and the local
`tpot`. -/
structure StepInput where
  recvReqs : List RecvReq
  availableSize : Int
  chunkSync : Option ChunkSync
  tpot : Rat
  deriving DecidableEq

namespace Sched

variable {M : Type} [MemoryPools M]

/-- `req.output_ids.append(token)` and `req.check_finished()`. -/
def appendToken (cfg : Config) (S : Sched M) (q token : Nat) : Option (Sched M) := do
  let req ← (S.heap q).appendToken cfg.tokenizer token
  pure (S.setReq q req)

/-- The cache call of `process_batch_result_prefill` for one request. -/
def cachePrefilledReq (decodingReqs : List Nat) (S : Sched M) (q : Nat) : Option (Sched M) :=
  if (S.heap q).finished then S.cacheFinishedReq q
  else if q ∈ decodingReqs then some S
  else S.cacheUnfinishedReq q

/-- The only effect of `add_logprob_return_values` that scheduling reads. -/
def addLogprobReturnValues (S : Sched M) (q : Nat) : Sched M :=
  if (S.heap q).returnLogprob then
    S.setReq q { S.heap q with hasNormalizedPromptLogprob := true }
  else S

/-- One request of `process_batch_result_prefill`. -/
def processPrefillReq (cfg : Config) (decodingReqs : List Nat) (S : Sched M) (q token : Nat) :
    Option (Sched M) :=
  if (S.heap q).isBeingChunked ≤ 0 then do
    let S ← S.appendToken cfg q token
    let S ← S.cachePrefilledReq decodingReqs q
    pure (S.addLogprobReturnValues q)
  else some (S.setReq q { S.heap q with isBeingChunked := (S.heap q).isBeingChunked - 1 })

/-- One request of `process_batch_result_decode`. -/
def processDecodeReq (cfg : Config) (S : Sched M) (q token : Nat) : Option (Sched M) := do
  let S ← S.appendToken cfg q token
  if (S.heap q).finished then S.cacheFinishedReq q else some S

/-- The loop over `zip(batch.reqs, next_token_ids)`. -/
def processReqs (process : Sched M → Nat → Nat → Option (Sched M)) :
    List (Nat × Nat) → Sched M → Option (Sched M)
  | [], S => some S
  | (q, token) :: rest, S => do
    let S ← process S q token
    processReqs process rest S

/-- `Scheduler.process_batch_result`. -/
def processBatchResult (cfg : Config) (batch : ScheduleBatch) (nextTokenIds : List Nat)
    (S : Sched M) : Option (Sched M) :=
  let results := batch.reqs.zip nextTokenIds
  if batch.forwardMode.isDecode then do
    let S ← processReqs (processDecodeReq cfg) results
      { S with mem := MemoryPools.freeGroupBegin S.mem }
    let S := { S with mem := MemoryPools.freeGroupEnd S.mem }
    pure (if batch.isEmpty then S.setRunningBatch none else S)
  else processReqs (processPrefillReq cfg (batch.decodingReqs.getD [])) results S

/-- Set `output_ids` of the batch whose result arrived and process the result. -/
def deliver (cfg : Config) (idx : Nat) (batch : ScheduleBatch) (nextTokenIds : List Nat)
    (S : Sched M) : Option (Sched M) :=
  processBatchResult cfg batch nextTokenIds
    { S with stages := Function.update S.stages idx ((S.stages idx).modifyLast fun batch =>
        { batch with outputIds := some nextTokenIds }) }

/-- `recv_requests`, `process_input_requests` and `decide_chunk_size`. -/
def receive (cfg : Config) (input : StepInput) (S : Sched M) : Sched M :=
  let S := { S with curPP := S.curPP.next, availableSize := input.availableSize }
  let S := S.processInputRequests cfg input.recvReqs
  match input.chunkSync with
  | none => S
  | some sync => { S with
      chunkedPrefillSize := some sync.chunkSize
      maxPrefillTokens := sync.chunkSize
      rebalanceMetrics := some sync.metrics }

def rebalanceIfEnabled (cfg : Config) (tpot : Rat) (S : Sched M) : Option (Sched M) :=
  if cfg.enableBatchRebalancing then S.rebalance cfg tpot else some S

/-- The batch that `update_running_batch` returns is the running object or `None`. -/
def replaceRunning (S : Sched M) (batch : Option ScheduleBatch) : Sched M :=
  match batch with
  | none => S.setRunningBatch none
  | some batch => S.setStage { S.stage with runningBatch := some batch }

/-- Decode with the running batch unless a prefill batch was formed. -/
def orDecode (cfg : Config) (S : Sched M) (newBatch : Option ScheduleBatch) :
    Option (Sched M × Option ScheduleBatch) :=
  match newBatch, S.stage.runningBatch with
  | some batch, _ => some (S, some batch)
  | none, none => some (S, none)
  | none, some running => do
    let updated ← S.updateRunningBatch cfg running
    pure (updated.1.replaceRunning updated.2, updated.2)

/-- `Scheduler.get_next_batch_to_run`. -/
def getNextBatchToRun (cfg : Config) (tpot : Rat) (S : Sched M) :
    Option (Sched M × Option ScheduleBatch) := do
  let S ← S.mergeLastBatch
  let S ← S.rebalanceIfEnabled cfg tpot
  let formed ← S.getNewBatchPrefill cfg
  formed.1.orDecode cfg formed.2

/-- `self.last_batch = batch`; a decode batch is the running batch itself. -/
def setLastBatch (S : Sched M) (batch : Option ScheduleBatch) : Sched M :=
  S.setStage { S.stage with
    lastBatch := match batch with
      | none => .idle
      | some batch => if batch.forwardMode.isDecode then .running else .own batch }

/-- `next_token_ids` of `Scheduler.run_batch`, `none` where it raises: request `i` of the batch
whose result is due samples `sample i`; rows that belong to no request are left out. A batch
without a forward pass gives zeros instead, one for each of its own requests. -/
def runBatch (cfg : Config) (sample : Nat → Nat) (batch pipeBatch : Option ScheduleBatch) :
    Option (List Nat) :=
  match batch.filter fun b => !b.forwards with
  | none => some ((List.range (sizeOf? pipeBatch)).map sample)
  | some batch => cfg.tokenizer.map fun _ => List.replicate batch.batchSize 0

/-- The rest of an iteration. On the last rank `get_pp` is the current index, so
that the result of the new batch itself is processed there. -/
def finishStep (cfg : Config) (sample : Nat → Nat) (S : Sched M) (batch : Option ScheduleBatch) :
    Option (Sched M) := do
  let S := S.setLastBatch batch
  let pipeBatch := (S.stages S.curPP.getPp).last
  let nextTokenIds ← runBatch cfg sample batch pipeBatch
  match pipeBatch with
  | some pipeBatch => S.deliver cfg S.curPP.getPp pipeBatch nextTokenIds
  | none => some (if batch.isNone then { S with newTokenRatio := cfg.initNewTokenRatio } else S)

/-- One iteration of `event_loop_normal`: the state after it and the batch it ran;
`sample` belongs to the batch whose result arrives. -/
def step (cfg : Config) (input : StepInput) (sample : Nat → Nat) (S : Sched M) :
    Option (Sched M × Option ScheduleBatch) := do
  let formed ← (S.receive cfg input).getNextBatchToRun cfg input.tpot
  let S ← formed.1.finishStep cfg sample formed.2
  pure (S, formed.2)

/-- The state of rank `ppRank` before logical step `steps`; `samples s` are the
tokens sampled for the batch of step `s`. -/
def run (cfg : Config) (ppRank : Nat) (mem : M) (inputs : Nat → StepInput)
    (samples : Nat → Nat → Nat) : Nat → Option (Sched M)
  | 0 => some (init cfg ppRank mem)
  | steps + 1 => do
    let S ← run cfg ppRank mem inputs samples steps
    let next ← S.step cfg (inputs steps) (samples (steps - (cfg.ppSize - 1 - ppRank)))
    pure next.1

end Sched

/-- Scheduling prepares a request: its results, its chunk counter and its
micro-batch index stay. -/
def Req.Prepared (r r' : Req) : Prop :=
  ∃ fillIds outputIdsLen prefixLen extendInputLen logprobStartLen cachedTokens
    extendLogprobStartLen, r' = { r with
      fillIds, outputIdsLen, prefixLen, extendInputLen, logprobStartLen, cachedTokens,
      extendLogprobStartLen }

namespace Req.Prepared

theorem refl (r : Req) : r.Prepared r := ⟨_, _, _, _, _, _, _, rfl⟩

theorem trans {r r' r'' : Req} (h : r.Prepared r') (h' : r'.Prepared r'') : r.Prepared r'' := by
  obtain ⟨_, _, _, _, _, _, _, rfl⟩ := h
  obtain ⟨_, _, _, _, _, _, _, rfl⟩ := h'
  exact ⟨_, _, _, _, _, _, _, rfl⟩

theorem finished {r r' : Req} (h : r.Prepared r') : r'.finished = r.finished := by
  obtain ⟨_, _, _, _, _, _, _, rfl⟩ := h
  rfl

theorem outputIds {r r' : Req} (h : r.Prepared r') : r'.outputIds = r.outputIds := by
  obtain ⟨_, _, _, _, _, _, _, rfl⟩ := h
  rfl

theorem isBeingChunked {r r' : Req} (h : r.Prepared r') :
    r'.isBeingChunked = r.isBeingChunked := by
  obtain ⟨_, _, _, _, _, _, _, rfl⟩ := h
  rfl

theorem ppIdx {r r' : Req} (h : r.Prepared r') : r'.ppIdx = r.ppIdx := by
  obtain ⟨_, _, _, _, _, _, _, rfl⟩ := h
  rfl

theorem update {heap : Nat → Req} {q : Nat} {r : Req} (h : (heap q).Prepared r) (q' : Nat) :
    (heap q').Prepared (Function.update heap q r q') := by
  rcases eq_or_ne q' q with rfl | hne
  · simpa using h
  · simpa [hne] using refl (heap q')

end Req.Prepared

namespace Sched

variable {M : Type}

/-- What a scheduling operation of the current micro-batch leaves alone. -/
structure Frame (S S' : Sched M) : Prop where
  curPP : S'.curPP = S.curPP
  nextReq : S'.nextReq = S.nextReq
  stages : ∀ j, j ≠ S.cur → S'.stages j = S.stages j
  heap : ∀ q, (S.heap q).Prepared (S'.heap q)

theorem Frame.refl (S : Sched M) : Frame S S := ⟨rfl, rfl, fun _ _ => rfl, fun _ => .refl _⟩

theorem Frame.cur {S S' : Sched M} (h : Frame S S') : S'.cur = S.cur := by
  rw [Sched.cur, h.curPP, Sched.cur]

theorem Frame.trans {S S' S'' : Sched M} (h : Frame S S') (h' : Frame S' S'') : Frame S S'' where
  curPP := h'.curPP.trans h.curPP
  nextReq := h'.nextReq.trans h.nextReq
  stages j hj := (h'.stages j (h.cur ▸ hj)).trans (h.stages j hj)
  heap q := (h.heap q).trans (h'.heap q)

theorem Frame.finished {S S' : Sched M} (h : Frame S S') (q : Nat) :
    (S'.heap q).finished = (S.heap q).finished := (h.heap q).finished

theorem OnlyBatches.toFrame {S S' : Sched M} (h : OnlyBatches S S') : Frame S S' := by
  obtain ⟨stage, pending, full, rfl, _⟩ := h
  exact ⟨rfl, rfl, fun j hj => Function.update_of_ne hj _ _, fun _ => .refl _⟩

theorem frame_setStage (S : Sched M) (stage : Stage) : Frame S (S.setStage stage) :=
  ⟨rfl, rfl, fun _ hj => Function.update_of_ne hj _ _, fun _ => .refl _⟩

theorem frame_setReq {S : Sched M} {q : Nat} {r : Req} (h : (S.heap q).Prepared r) :
    Frame S (S.setReq q r) :=
  ⟨rfl, rfl, fun _ _ => rfl, h.update⟩

/-- Only the requests, the pools and the cache entries may change. -/
structure Quiet (S S' : Sched M) : Prop extends Frame S S' where
  waitingQueue : S'.waitingQueue = S.waitingQueue
  pendingBatch : S'.pendingBatch = S.pendingBatch
  allStages : S'.stages = S.stages

theorem Quiet.refl (S : Sched M) : Quiet S S := ⟨.refl S, rfl, rfl, rfl⟩

theorem Quiet.trans {S S' S'' : Sched M} (h : Quiet S S') (h' : Quiet S' S'') : Quiet S S'' :=
  ⟨h.toFrame.trans h'.toFrame, h'.waitingQueue.trans h.waitingQueue,
    h'.pendingBatch.trans h.pendingBatch, h'.allStages.trans h.allStages⟩

theorem Quiet.stage {S S' : Sched M} (h : Quiet S S') : S'.stage = S.stage := by
  rw [Sched.stage, h.allStages, h.cur, Sched.stage]

theorem quiet_setReq {S : Sched M} {q : Nat} {r : Req} (h : (S.heap q).Prepared r) :
    Quiet S (S.setReq q r) := ⟨frame_setReq h, rfl, rfl, rfl⟩

theorem quiet_setMem (S : Sched M) (mem : M) : Quiet S { S with mem } :=
  ⟨⟨rfl, rfl, fun _ _ => rfl, fun _ => .refl _⟩, rfl, rfl, rfl⟩

theorem quiet_setFull (S : Sched M) (full : Bool) : Quiet S { S with batchIsFull := full } :=
  ⟨⟨rfl, rfl, fun _ _ => rfl, fun _ => .refl _⟩, rfl, rfl, rfl⟩

theorem frame_modifyReqs (S : Sched M) (qs : List Nat) {f : Req → Req}
    (h : ∀ r : Req, r.Prepared (f r)) : Frame S (S.modifyReqs qs f) where
  curPP := rfl
  nextReq := rfl
  stages _ _ := rfl
  heap q := by
    simp only [modifyReqs]
    split
    next => exact h _
    next => exact .refl _

theorem quiet_modifyReqs (S : Sched M) (qs : List Nat) {f : Req → Req}
    (h : ∀ r : Req, r.Prepared (f r)) : Quiet S (S.modifyReqs qs f) :=
  ⟨frame_modifyReqs S qs h, rfl, rfl, rfl⟩

end Sched

theorem Req.prepared_initNextRoundInput (r : Req) (matched : Option (Nat → Nat)) :
    r.Prepared (r.initNextRoundInput matched) := ⟨_, _, _, _, _, _, _, rfl⟩

theorem Req.prepared_resetForRetract (r : Req) : r.Prepared r.resetForRetract :=
  ⟨_, _, _, _, _, _, _, rfl⟩

theorem Req.prepared_prepareForExtend (r : Req) : r.Prepared r.prepareForExtend :=
  ⟨_, _, _, _, _, _, _, rfl⟩

theorem Req.prepared_mixWithRunning (r : Req) : r.Prepared r.mixWithRunning :=
  ⟨_, _, _, _, _, _, _, rfl⟩

namespace PrefillAdder

theorem prepared_truncate (r : Req) (n : Int) : r.Prepared (truncate r n) :=
  ⟨_, _, _, _, _, _, _, rfl⟩

theorem addBeingChunkedReq_spec {cfg : Config} {adder : PrefillAdder} {q : Nat} {req : Req}
    {added : PrefillAdder × Req × Bool}
    (h : adder.addBeingChunkedReq cfg q req = some added) :
    added.1.canRunList = adder.canRunList ++ [q] ∧
      added.1.newBeingChunkedReq = adder.newBeingChunkedReq ∧ req.Prepared added.2.1 := by
  obtain ⟨rem, _, h⟩ := Option.bind_eq_some_iff.mp h
  cases Option.some.inj h
  exact ⟨rfl, rfl, prepared_truncate _ _⟩

/-- The outcome of adding one waiting request: it is admitted, perhaps as the new
chunked request, or the adder's lists stay. -/
structure Admitted (adder : PrefillAdder) (q : Nat) (req : Req)
    (out : AddReqResult × PrefillAdder × Req) : Prop where
  prepared : req.Prepared out.2.2
  lists : (out.2.1.canRunList = adder.canRunList ∧
      out.2.1.newBeingChunkedReq = adder.newBeingChunkedReq) ∨
    (out.2.1.canRunList = adder.canRunList ++ [q] ∧
      (out.2.1.newBeingChunkedReq = adder.newBeingChunkedReq ∨
        out.2.1.newBeingChunkedReq = some q))

theorem addOrTruncate_admitted (cfg : Config) (adder : PrefillAdder) (q : Nat) (req : Req)
    (whole : Bool) : Admitted adder q req (addOrTruncate cfg adder q req whole) := by
  unfold addOrTruncate
  split
  next => exact ⟨.refl _, Or.inr ⟨rfl, Or.inl rfl⟩⟩
  next =>
    dsimp only
    split
    next => exact ⟨.refl _, Or.inl ⟨rfl, rfl⟩⟩
    next => exact ⟨prepared_truncate _ _, Or.inr ⟨rfl, Or.inr rfl⟩⟩

theorem addOneReq_admitted (cfg : Config) (heap : Nat → Req) (adder : PrefillAdder) (q : Nat)
    (req : Req) : Admitted adder q req (addOneReq cfg heap adder q req) := by
  have rejected : ∀ {result : AddReqResult} {adder' : PrefillAdder},
      adder'.canRunList = adder.canRunList →
      adder'.newBeingChunkedReq = adder.newBeingChunkedReq →
      Admitted adder q req (result, adder', req) := fun hlist hnew =>
    ⟨.refl _, Or.inl ⟨hlist, hnew⟩⟩
  unfold addOneReq
  split
  next =>
    unfold addOneReqIgnoreEosSafe
    dsimp only
    split
    next => exact rejected rfl rfl
    next =>
      obtain ⟨hprepared, hlists⟩ := addOrTruncate_admitted cfg
        { adder with reqStates := some (adder.nextReqStates cfg heap req) } q req
        (adder.remChunkTokens.all (req.extendInputLen ≤ ·))
      exact ⟨hprepared, hlists⟩
  next =>
    dsimp only
    split
    next => exact rejected rfl rfl
    next =>
      split
      next => exact rejected rfl rfl
      next =>
        split
        next => exact rejected rfl rfl
        next => exact addOrTruncate_admitted cfg adder q req _

end PrefillAdder

end FastPP
