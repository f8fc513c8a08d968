import FastPP.Admission

namespace FastPP

namespace Req

/-- The fields that `prepare_for_extend` sets on one request. -/
def prepareForExtend (req : Req) : Req :=
  let preLen : Int := req.prefixLen
  let alreadyComputed : Int :=
    if 0 < req.extendLogprobStartLen then req.extendLogprobStartLen + 1 + req.cachedTokens else 0
  { req with
    cachedTokens := req.cachedTokens + (preLen - alreadyComputed)
    extendLogprobStartLen :=
      if preLen ≤ req.logprobStartLen then
        min (req.logprobStartLen - preLen) (req.extendInputLen - 1)
      else req.extendInputLen - 1 }

/-- The fields that `mix_with_running` sets on one running request. -/
def mixWithRunning (req : Req) : Req :=
  { req with fillIds := req.originInputIds ++ req.outputIds, extendInputLen := 1 }

end Req

namespace Sched

variable {M : Type}

def modifyReqs (S : Sched M) (qs : List Nat) (f : Req → Req) : Sched M :=
  { S with heap := fun q => if q ∈ qs then f (S.heap q) else S.heap q }

/-- `ScheduleBatch.init_new` and the fields set by `prepare_for_extend`. -/
def extendBatch (S : Sched M) (reqs rows outCacheLoc : List Nat) : ScheduleBatch :=
  let inputIds := reqs.map fun q => (S.heap q).fillIds.drop (S.heap q).prefixLen
  let returnLogprob := reqs.any fun q => (S.heap q).returnLogprob
  { reqs
    forwardMode := .extend
    inputIds := some inputIds.flatten
    reqPoolIndices := rows
    seqLens := reqs.map fun q => (S.heap q).fillIds.length
    seqLensSum := (reqs.map fun q => (S.heap q).fillIds.length).sum
    outCacheLoc := some outCacheLoc
    outputIds := none
    returnLogprob
    topLogprobsNums :=
      if returnLogprob then some (reqs.map fun q => (S.heap q).topLogprobsNum) else none
    prefixLens := reqs.map fun q => (S.heap q).prefixLen
    extendLens := reqs.map fun q => (S.heap q).extendInputLen
    extendNumTokens := (inputIds.map List.length).sum
    extendLogprobStartLens := reqs.map fun q => (S.heap q).extendLogprobStartLen
    decodingReqs := none
    samplingInfo := .fromScheduleBatch S.heap reqs }

variable [MemoryPools M]

/-- One round of the loop of `prepare_for_extend`, with its assertion. -/
def placeReq (S : Sched M) (q row : Nat) : Option (Sched M) :=
  let req := S.heap q
  if (req.fillIds.length : Int) - req.prefixLen = req.extendInputLen then
    some { S.setReq q req.prepareForExtend with
      mem := MemoryPools.placeReq S.mem q row req.prefixLen }
  else none

def placeReqs (S : Sched M) : List (Nat × Nat) → Option (Sched M)
  | [] => some S
  | (q, row) :: rest => do
    let S ← S.placeReq q row
    S.placeReqs rest

/-- The number of tokens that an extend of the requests computes. -/
def extendNumTokens (S : Sched M) (reqs : List Nat) : Nat :=
  (reqs.map fun q => ((S.heap q).fillIds.drop (S.heap q).prefixLen).length).sum

/-- `ScheduleBatch.prepare_for_extend`. -/
def prepareForExtend (S : Sched M) (reqs : List Nat) : Option (Sched M × ScheduleBatch) := do
  let slots ← MemoryPools.allocReqSlots S.mem reqs.length
  let locs ← MemoryPools.allocTokenSlots slots.2 (S.extendNumTokens reqs)
  let S ← { S with mem := locs.2 }.placeReqs (reqs.zip slots.1)
  let batch := S.extendBatch reqs slots.1 locs.1
  let mem ← MemoryPools.writeExtend S.mem slots.1
    (reqs.map fun q => (S.heap q).prefixLen) batch.seqLens batch.extendLens locs.1
  pure ({ S with mem }, batch)

/-- `ScheduleBatch.prepare_for_decode`. -/
def prepareForDecode (S : Sched M) (batch : ScheduleBatch) :
    Option (Sched M × ScheduleBatch) := do
  let locs ← MemoryPools.allocTokenSlots S.mem batch.batchSize
  let mem ← MemoryPools.writeDecode locs.2 batch.reqPoolIndices batch.seqLens locs.1
  pure ({ S with mem }, { batch with
    forwardMode := .decode
    inputIds := batch.outputIds
    outputIds := none
    outCacheLoc := some locs.1
    seqLens := batch.seqLens.map (· + 1)
    seqLensSum := batch.seqLensSum + batch.batchSize })

/-- `ScheduleBatch.mix_with_running` and `new_batch.decoding_reqs`. -/
def mixWithRunning (S : Sched M) (batch running : ScheduleBatch) :
    Option (Sched M × ScheduleBatch) := do
  let S := S.modifyReqs running.reqs Req.mixWithRunning
  let inputIds ← batch.inputIds
  let runningIds ← running.inputIds
  let outCacheLoc ← batch.outCacheLoc
  let runningLoc ← running.outCacheLoc
  let merged ← batch.mergeBatch running
  pure (S, { merged with
    forwardMode := .mixed
    inputIds := some (inputIds ++ runningIds)
    outCacheLoc := some (outCacheLoc ++ runningLoc)
    prefixLens := merged.prefixLens ++ running.reqs.map fun q =>
      ((S.heap q).originInputIds.length : Int) + (S.heap q).outputIds.length - 1
    extendLens := merged.extendLens ++ List.replicate running.batchSize 1
    extendNumTokens := merged.extendNumTokens + running.batchSize
    extendLogprobStartLens := merged.extendLogprobStartLens ++ List.replicate running.batchSize 0
    decodingReqs := some running.reqs })

/-- Mix the unfinished running requests, if there are any, into the new batch. -/
def mixUnfinished (S : Sched M) (batch running : ScheduleBatch) :
    Option (Sched M × ScheduleBatch) :=
  if running.isEmpty then some (S, batch)
  else do
    let decode ← S.prepareForDecode running
    decode.1.mixWithRunning batch decode.2

/-- The mixed-style chunked prefill at the end of `get_new_batch_prefill`. -/
def mixChunk (cfg : Config) (S : Sched M) (batch : ScheduleBatch) :
    Option (Sched M × ScheduleBatch) :=
  match S.stage.runningBatch with
  | none => some (S, batch)
  | some running =>
    if cfg.isMixedChunk && !(batch.returnLogprob || running.returnLogprob) then do
      let running ← running.filterBatch S.heap none
      let mixed ← S.mixUnfinished batch running
      pure (mixed.1.setRunningBatch none, mixed.2)
    else some (S, batch)

/-- `self.being_chunked_req` once the `can_run_list` is known; the source asserts
that a new chunked request finds none carried. -/
def chunkAfter (carried new : Option Nat) : Option (Option Nat) :=
  match new with
  | none => some carried
  | some q => if carried.isSome then none else some (some q)

/-- `self.being_chunked_req.is_being_chunked += 1`. -/
def countChunk (S : Sched M) : Sched M :=
  match S.stage.beingChunkedReq with
  | none => S
  | some q => S.setReq q { S.heap q with isBeingChunked := (S.heap q).isBeingChunked + 1 }

/-- The listed requests leave the waiting queue for the current micro-batch. -/
def takeListed (S : Sched M) (canRunList : List Nat) (chunk : Option Nat) : Sched M :=
  let S := S.modifyReqs canRunList fun req => { req with ppIdx := some S.cur }
  let S := { S with waitingQueue := S.waitingQueue.filter (· ∉ canRunList) }
  (S.setStage { S.stage with beingChunkedReq := chunk }).countChunk

/-- The part of `get_new_batch_prefill` after the `can_run_list` is known. -/
def formPrefill (cfg : Config) (S : Sched M) (adder : PrefillAdder) :
    Option (Sched M × Option ScheduleBatch) :=
  if adder.canRunList = [] then some (S, none)
  else do
    let chunk ← chunkAfter S.stage.beingChunkedReq adder.newBeingChunkedReq
    let formed ← (S.takeListed adder.canRunList chunk).prepareForExtend adder.canRunList
    let mixed ← formed.1.mixChunk cfg formed.2
    pure (mixed.1, some mixed.2)

/-- `get_new_batch_prefill` after the chunked request was fetched. -/
def prefillFetched (cfg : Config) (S : Sched M) : Option (Sched M × Option ScheduleBatch) :=
  if (S.batchIsFull || S.waitingQueue.isEmpty) && S.stage.beingChunkedReq.isNone then
    some (S, none)
  else if cfg.maxRunningRequests ≤ S.runningBs then some ({ S with batchIsFull := true }, none)
  else do
    let selected ← S.selectPrefill cfg
    selected.1.formPrefill cfg selected.2

/-- `Scheduler.get_new_batch_prefill`. -/
def getNewBatchPrefill (cfg : Config) (S : Sched M) :
    Option (Sched M × Option ScheduleBatch) := do
  let S ← S.fetchChunkedPrefill cfg
  S.prefillFetched cfg

end Sched

namespace Sched

variable {M : Type}

/-- `sorted_indices` of `retract_decode`, in the order in which they are popped. -/
def retractOrder (S : Sched M) (batch : ScheduleBatch) : List Nat :=
  let key (i : Nat) : Nat × Nat :=
    match batch.reqs[i]? with
    | some q => ((S.heap q).outputIdsLen, (S.heap q).originInputIds.length)
    | none => (0, 0)
  ((List.range batch.reqs.length).mergeSort fun i j =>
    decide ((key j).1 < (key i).1 ∨ (key j).1 = (key i).1 ∧ (key i).2 ≤ (key j).2)).reverse

/-- `req.output_ids_len += 1` for the requests of a batch. -/
def bumpOutputLens (S : Sched M) (reqs : List Nat) : Sched M :=
  S.modifyReqs reqs fun req => { req with outputIdsLen := req.outputIdsLen + 1 }

/-- `new_estimate_ratio` of `retract_decode`; no token left to generate divides by
zero. -/
def estimateRatio (cfg : Config) (S : Sched M) (batch : ScheduleBatch) : Option Rat :=
  let decoded := (batch.reqs.map fun q => (S.heap q).outputIds.length).sum
  let maxNew := (batch.reqs.map fun q => (S.heap q).samplingParams.maxNewTokens).sum
  if maxNew = 0 then none
  else some (min 1 ((decoded + cfg.retractDecodeSteps * batch.reqs.length : Nat) / (maxNew : Rat)))

/-- Merge the last prefill batch into the running batch, which may be absent. -/
def mergeIntoRunning (S : Sched M) (last : ScheduleBatch) : Option (Sched M) :=
  if last.isEmpty then some S
  else
    let S := S.bumpOutputLens last.reqs
    match S.stage.runningBatch with
    | none => some (S.setStage { S.stage with runningBatch := some last, lastBatch := .running })
    | some running => do
      let merged ← running.mergeBatch last
      pure (S.setStage { S.stage with runningBatch := some merged })

variable [MemoryPools M]

/-- Retract the request at one index of the batch. -/
def retractReq (S : Sched M) (batch : ScheduleBatch) (idx : Nat) :
    Option (Sched M × Nat × Nat) := do
  let q ← batch.reqs[idx]?
  let seqLen ← batch.seqLens[idx]?
  let mem ← MemoryPools.retractReq S.mem q seqLen
  let _ ← S.entries (S.heap q).rid
  pure ({ S.setReq q (S.heap q).resetForRetract with
    entries := Function.update S.entries (S.heap q).rid none, mem }, q, seqLen)

/-- The loop of `retract_decode`: the state, the retracted requests and the indices
that stay, still in popping order. -/
def retractLoop (cfg : Config) (batch : ScheduleBatch) :
    List Nat → Bool → Int → Sched M → Option (Sched M × List Nat × List Nat)
  | [], firstIter, available, S =>
    if available < 0 ∨ firstIter then none else some (S, [], [])
  | idx :: order, firstIter, available, S =>
    if available < ((order.length + 1) * cfg.retractDecodeSteps : Nat) ∨ firstIter then
      if order = [] then if 0 < available then some (S, [], [idx]) else none
      else do
        let retracted ← S.retractReq batch idx
        let rest ← retractLoop cfg batch order false (available + retracted.2.2) retracted.1
        pure (rest.1, retracted.2.1 :: rest.2.1, rest.2.2)
    else some (S, [], idx :: order)

/-- `ScheduleBatch.retract_decode`: the batch left, the retracted requests and the
new ratio. -/
def retractDecode (cfg : Config) (S : Sched M) (batch : ScheduleBatch) :
    Option (Sched M × ScheduleBatch × List Nat × Rat) := do
  let loop ← retractLoop cfg batch (S.retractOrder batch) true S.availableSize S
  let batch ← batch.filterIndices loop.1.heap loop.2.2.reverse
  let ratio ← loop.1.estimateRatio cfg batch
  pure (loop.1, batch, loop.2.1, ratio)

/-- The branch of `update_running_batch` on `check_decode_mem`, with the new ratio. -/
def retractOrDecay (cfg : Config) (S : Sched M) (batch : ScheduleBatch) :
    Option (Sched M × ScheduleBatch) :=
  if S.availableSize < batch.batchSize ∨ (cfg.testRetract ∧ 10 < batch.batchSize) then do
    let retracted ← S.retractDecode cfg batch
    pure ({ retracted.1 with
      newTokenRatio := retracted.2.2.2
      waitingQueue := retracted.1.waitingQueue ++ retracted.2.2.1 }, retracted.2.1)
  else
    some ({ S with
      newTokenRatio := max (S.newTokenRatio - cfg.newTokenRatioDecay) cfg.minNewTokenRatio },
      batch)

/-- `Scheduler.update_running_batch` on a batch that was filtered to `batch`. -/
def decodeFiltered (cfg : Config) (initialBs : Nat) (S : Sched M) (batch : ScheduleBatch) :
    Option (Sched M × Option ScheduleBatch) := do
  let checked ← S.retractOrDecay cfg batch
  let S := checked.1
  let S := { S with
    batchIsFull := if checked.2.batchSize < initialBs then false else S.batchIsFull }
  let decode ← S.prepareForDecode checked.2
  pure (decode.1, some decode.2)

/-- `Scheduler.update_running_batch`. -/
def updateRunningBatch (cfg : Config) (S : Sched M) (batch : ScheduleBatch) :
    Option (Sched M × Option ScheduleBatch) := do
  let filtered ← batch.filterBatch S.heap none
  if filtered.isEmpty then pure ({ S with batchIsFull := false }, none)
  else S.decodeFiltered cfg batch.batchSize filtered

/-- The chunked request of the last prefill batch moves out of it. -/
def moveChunkOut (S : Sched M) (last : ScheduleBatch) : Option (Sched M × ScheduleBatch) :=
  match S.stage.beingChunkedReq with
  | none => some (S, last)
  | some q => do
    let last ← last.filterBatch S.heap (some q)
    if (S.heap q).ppIdx = some S.cur then do
      let S ← S.cacheUnfinishedReq q
      let S ← S.freeReqSlot q
      pure ({ S with batchIsFull := false }, last)
    else pure (S.setStage { S.stage with beingChunkedReq := none }, last)

/-- The part of `get_next_batch_to_run` before rebalancing. -/
def mergeLastBatch (S : Sched M) : Option (Sched M) :=
  match S.stage.last with
  | none => some S
  | some last =>
    if last.forwardMode.isExtend then do
      let moved ← S.moveChunkOut last
      let S := moved.1.setStage { moved.1.stage with lastBatch := .own moved.2 }
      S.mergeIntoRunning moved.2
    else some (S.bumpOutputLens last.reqs)

end Sched

end FastPP
