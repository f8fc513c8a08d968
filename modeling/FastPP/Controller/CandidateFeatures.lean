import FastPP.Placement
import Mathlib.Algebra.Order.Field.Rat

namespace FastPP

/-- `(prefix_len, prefill_len, cannot_chunk_for_logprob)` of a waiting request. -/
structure WaitingReqMeta where
  prefixLen : Nat
  prefillLen : Nat
  cannotChunkForLogprob : Bool
  deriving DecidableEq

/-- `(prefix_len, remain_prefill)` of the chunked request `req`. -/
structure ChunkedLens where
  req : Nat
  prefixLen : Nat
  remainPrefill : Nat
  deriving DecidableEq

/-- What a prediction reads of the scheduler. -/
structure PredictionContext where
  stageOrder : List Nat
  stageDecodeCtxSum : Nat → Nat
  stageMixedDecodeTokens : Nat → Nat
  stageChunkedLens : Nat → Option ChunkedLens
  waitingReqMeta : List WaitingReqMeta

namespace Req

/-- `_get_waiting_req_prefill_lens_for_prediction`; `fill_ids` is empty before the first round. -/
def waitingPrefillLens (req : Req) : Nat × Nat :=
  let fillLen := if req.fillIds = [] then req.originInputIds.length + req.outputIds.length
    else req.fillIds.length
  (req.prefixLen, fillLen - req.prefixLen)

/-- `_get_chunked_req_prefill_lens_for_prediction`. -/
def chunkedPrefillLens (req : Req) : Nat × Nat :=
  let totalLen := req.originInputIds.length + req.outputIds.length
  let prefixLen := if req.fillIds = [] then req.prefixLen else req.fillIds.length
  (prefixLen, totalLen - prefixLen)

def cannotChunkForLogprob (req : Req) : Bool :=
  req.returnLogprob && !req.hasNormalizedPromptLogprob &&
    decide (req.logprobStartLen ≠ (req.originInputIds.length : Int) - 1)

def waitingMeta (req : Req) : WaitingReqMeta :=
  ⟨req.waitingPrefillLens.1, req.waitingPrefillLens.2, req.cannotChunkForLogprob⟩

end Req

namespace Sched

variable {M : Type}

/-- `_get_prediction_stage_order`. -/
def predictionStageOrder (cfg : Config) (curIdx : Nat) : List Nat :=
  (List.range cfg.ppSize).map fun offset => (curIdx + offset) % cfg.ppSize

/-- `_get_decode_reqs_for_runtime_prediction`. -/
def decodeReqsForPrediction : Option ScheduleBatch → List Nat
  | none => []
  | some batch => if batch.forwardMode.isDecode then batch.reqs else batch.decodingReqs.getD []

/-- `_being_chunked_req[idx]` if its request was last batched there. -/
def ownChunk (S : Sched M) (idx : Nat) : Option Nat :=
  (S.stages idx).beingChunkedReq.filter fun q => (S.heap q).ppIdx = some idx

/-- `_get_prediction_chunked_req`. -/
def predictionChunkedReq (cfg : Config) (S : Sched M) (curIdx : Nat) : Option Nat :=
  match S.ownChunk curIdx with
  | some q => some q
  | none => if cfg.ppSize = 1 then none else S.ownChunk (cfg.prev curIdx)

/-- `stage_mixed_decode_tokens[idx]`. -/
def mixedDecodeTokens (cfg : Config) (S : Sched M) (idx : Nat) : Nat :=
  if cfg.isMixedChunk then (decodeReqsForPrediction (S.stages idx).last).length else 0

/-- `_get_chunked_req_prefill_lens_for_prediction` of a request of the heap. -/
def chunkedLens (S : Sched M) (q : Nat) : ChunkedLens :=
  ⟨q, (S.heap q).chunkedPrefillLens.1, (S.heap q).chunkedPrefillLens.2⟩

/-- `_get_runtime_prediction_context`. -/
def runtimePredictionContext (cfg : Config) (S : Sched M) : PredictionContext where
  stageOrder := predictionStageOrder cfg S.cur
  stageDecodeCtxSum idx := ((decodeReqsForPrediction (S.stages idx).last).map fun q =>
    (S.heap q).originInputIds.length + (S.heap q).outputIds.length).sum
  stageMixedDecodeTokens := S.mixedDecodeTokens cfg
  stageChunkedLens idx := (S.predictionChunkedReq cfg idx).map S.chunkedLens
  waitingReqMeta := S.waitingQueue.map fun q => (S.heap q).waitingMeta

end Sched

/-- A request of a candidate batch: a chunked one, or the one at a position of the queue. -/
inductive PackedReq
  | chunked (q : Nat)
  | waiting (idx : Nat)
  deriving DecidableEq

/-- The tokens `start ..< start + len` of a request, packed at one stage. -/
structure Piece where
  owner : PackedReq
  start : Nat
  len : Nat
  deriving DecidableEq

/-- The locals of the loop over the queue; `pieces` records what the sums are about. -/
structure PackState where
  queueReqIdx : Nat
  queueReqPrefillOffset : Nat
  remainingChunkTokens : Nat
  packedPrefillTokens : Nat
  prefillSquareSum : Nat
  prefillPrefixProdSum : Nat
  pieces : List Piece

namespace PackState

/-- The start of a stage. -/
def start (queueReqIdx queueReqPrefillOffset remainingChunkTokens : Nat) : PackState :=
  ⟨queueReqIdx, queueReqPrefillOffset, remainingChunkTokens, 0, 0, 0, []⟩

/-- The tokens of a piece are packed. -/
def take (P : PackState) (piece : Piece) : PackState :=
  { P with
    remainingChunkTokens := P.remainingChunkTokens - min piece.len P.remainingChunkTokens
    packedPrefillTokens := P.packedPrefillTokens + piece.len
    prefillSquareSum := P.prefillSquareSum + piece.len * piece.len
    prefillPrefixProdSum := P.prefillPrefixProdSum + piece.len * piece.start
    pieces := P.pieces ++ [piece] }

/-- The next request of the queue. -/
def nextReq (P : PackState) : PackState :=
  { P with queueReqIdx := P.queueReqIdx + 1, queueReqPrefillOffset := 0 }

/-- The `while` loop, over the requests from `queue_req_idx` on. -/
def packWaiting : List WaitingReqMeta → PackState → PackState
  | [], P => P
  | req :: rest, P =>
    let prefixLen := req.prefixLen + P.queueReqPrefillOffset
    let prefillLen := req.prefillLen - P.queueReqPrefillOffset
    let oversized := decide (P.remainingChunkTokens < prefillLen) && req.cannotChunkForLogprob
    let extendLen := if oversized then prefillLen else min prefillLen P.remainingChunkTokens
    if P.remainingChunkTokens = 0 then P
    else if prefillLen = 0 then packWaiting rest P.nextReq
    else if oversized && decide (0 < P.packedPrefillTokens) then P
    else
      let packed := P.take ⟨.waiting P.queueReqIdx, prefixLen, extendLen⟩
      if prefillLen ≤ extendLen then packWaiting rest packed.nextReq
      else { packed with queueReqPrefillOffset := P.queueReqPrefillOffset + extendLen }

end PackState

/-- The features of one stage, and the pieces packed there. -/
structure StageFeatures where
  stageIdx : Nat
  runningTokenMax : Nat
  selectedDecodeCtxSum : Nat
  prefillSquareSum : Nat
  prefillPrefixProdSum : Nat
  pieces : List Piece

/-- The features of a candidate chunk size. -/
structure CandidateFeatures where
  runningTokenMax : Rat
  selectedDecodeCtxSum : Rat
  prefillSquareSum : Rat
  prefillPrefixProdSum : Rat

namespace PredictionContext

variable (ctx : PredictionContext)

def stageFeatures (stageIdx packedPrefillTokens : Nat) (P : PackState) : StageFeatures where
  stageIdx
  runningTokenMax := packedPrefillTokens + ctx.stageMixedDecodeTokens stageIdx
  selectedDecodeCtxSum := ctx.stageDecodeCtxSum stageIdx
  prefillSquareSum := P.prefillSquareSum
  prefillPrefixProdSum := P.prefillPrefixProdSum
  pieces := P.pieces

/-- The part of a stage after the chunked request: the waiting ones. -/
def packQueue (chunk stageIdx : Nat) (P : PackState) : PackState :=
  PackState.packWaiting (ctx.waitingReqMeta.drop P.queueReqIdx)
    { P with packedPrefillTokens :=
        chunk - ctx.stageMixedDecodeTokens stageIdx - P.remainingChunkTokens }

/-- The chunked request at the start of a stage. -/
def takeChunked (lens : ChunkedLens) (P : PackState) : PackState :=
  let extendLen := min lens.remainPrefill P.remainingChunkTokens
  if 0 < extendLen then P.take ⟨.chunked lens.req, lens.prefixLen, extendLen⟩ else P

/-- One stage from a position of the queue: its features and the next position. -/
def packStage (chunk stageIdx queueReqIdx queueReqPrefillOffset : Nat) :
    StageFeatures × Nat × Nat :=
  let start := PackState.start queueReqIdx queueReqPrefillOffset
    (chunk - ctx.stageMixedDecodeTokens stageIdx)
  match (ctx.stageChunkedLens stageIdx).filter fun _ => 0 < start.remainingChunkTokens with
  | some lens =>
    let extendLen := min lens.remainPrefill start.remainingChunkTokens
    if extendLen < lens.remainPrefill then
      -- the rest of the chunk goes to a later stage, and the queue waits
      (ctx.stageFeatures stageIdx extendLen (takeChunked lens start), queueReqIdx,
        queueReqPrefillOffset)
    else
      let P := ctx.packQueue chunk stageIdx (takeChunked lens start)
      (ctx.stageFeatures stageIdx P.packedPrefillTokens P, P.queueReqIdx, P.queueReqPrefillOffset)
  | none =>
    let P := ctx.packQueue chunk stageIdx start
    (ctx.stageFeatures stageIdx P.packedPrefillTokens P, P.queueReqIdx, P.queueReqPrefillOffset)

/-- The loop over the stages. -/
def packStages (chunk : Nat) : List Nat → Nat → Nat → List StageFeatures
  | [], _, _ => []
  | stageIdx :: rest, queueReqIdx, queueReqPrefillOffset =>
    let packed := ctx.packStage chunk stageIdx queueReqIdx queueReqPrefillOffset
    packed.1 :: packStages chunk rest packed.2.1 packed.2.2

def stageFeatureCandidates (chunk : Nat) : List StageFeatures :=
  ctx.packStages chunk ctx.stageOrder 0 0

/-- The mean of a feature over the stages; zero without any. -/
def meanFeature (chunk : Nat) (feature : StageFeatures → Nat) : Rat :=
  (((ctx.stageFeatureCandidates chunk).map feature).sum : Rat) /
    (ctx.stageFeatureCandidates chunk).length

/-- `_get_candidate_runtime_prediction_features_for_chunk`. -/
def candidateFeatures (chunk : Nat) : CandidateFeatures where
  runningTokenMax := ctx.meanFeature chunk (·.runningTokenMax)
  selectedDecodeCtxSum := ctx.meanFeature chunk (·.selectedDecodeCtxSum)
  prefillSquareSum := ctx.meanFeature chunk (·.prefillSquareSum)
  prefillPrefixProdSum := ctx.meanFeature chunk (·.prefillPrefixProdSum)

end PredictionContext

end FastPP
