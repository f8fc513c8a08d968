import FastPP.Memory
import Mathlib.Data.List.Infix
import Mathlib.Algebra.Order.Ring.Rat
import Mathlib.Algebra.GroupWithZero.Nat
import Mathlib.Data.List.Basic

namespace FastPP

/-- The `FINISH_*` classes of `schedule_batch.py`. -/
inductive FinishReason
  | matchedToken (matched : Nat)
  | matchedStr (matched : String)
  | length (length : Nat)
  | abort (message : String)
  deriving DecidableEq, Repr

/-- The part of the tokenizer that `check_finished` reads. -/
structure Tokenizer where
  eosTokenId : Option Nat
  additionalStopTokenIds : List Nat
  decode : List Nat → String

/-- Sampling parameters after `normalize` and `verify`; the empty list stands
for an absent `stop_token_ids`. -/
structure SamplingParams where
  maxNewTokens : Nat
  ignoreEos : Bool
  stopTokenIds : List Nat
  stopStrs : List String
  stopStrMaxLen : Nat
  temperature : Rat
  topP : Rat
  topK : Nat
  minP : Rat
  deriving DecidableEq

/-- A request. The scheduler reads `prefix_indices` only through its length;
the row it views is kept with the memory pools. -/
structure Req where
  rid : Nat
  originInputIds : List Nat
  outputIds : List Nat
  outputIdsLen : Nat
  fillIds : List Nat
  samplingParams : SamplingParams
  loraPath : Option Nat
  finishedReason : Option FinishReason
  toAbort : Bool
  delayed : Int
  decodedText : String
  prefixLen : Nat
  extendInputLen : Int
  isBeingChunked : Int
  returnLogprob : Bool
  logprobStartLen : Int
  topLogprobsNum : Nat
  hasNormalizedPromptLogprob : Bool
  cachedTokens : Int
  extendLogprobStartLen : Int
  ppIdx : Option Nat
  deriving DecidableEq

/-- `Req.finished`. -/
def Req.finished (req : Req) : Bool :=
  if 0 < req.delayed then false else req.finishedReason.isSome

/-- The membership tests of `check_finished` on one token id. -/
def matchedEos (tokenizer : Option Tokenizer) (params : SamplingParams) (lastTokenId : Nat) : Bool :=
  decide (lastTokenId ∈ params.stopTokenIds) ||
    match tokenizer with
    | none => false
    | some tok => decide (some lastTokenId = tok.eosTokenId) ||
        decide (lastTokenId ∈ tok.additionalStopTokenIds)

/-- `stop_str in text`. -/
def hasStopStr (stopStr text : String) : Bool :=
  decide (stopStr.toList <:+: text.toList)

/-- The stop-string part of `check_finished`; `none` is the error raised when
there are stop strings but no tokenizer. -/
def checkStopStrs (tokenizer : Option Tokenizer) (req : Req) : Option Req :=
  if req.samplingParams.stopStrs = [] then some req
  else do
    let tok ← tokenizer
    let tailStr := tok.decode
      (req.outputIds.drop (req.outputIds.length - (req.samplingParams.stopStrMaxLen + 1)))
    match req.samplingParams.stopStrs.find?
        (fun s => hasStopStr s tailStr || hasStopStr s req.decodedText) with
    | some stopStr => pure { req with finishedReason := some (.matchedStr stopStr) }
    | none => pure req

/-- `Req.check_finished`; `none` is a raised exception. The token compared with
the stop sets is `output_ids[0]`, as in the source. -/
def Req.checkFinished (tokenizer : Option Tokenizer) (req : Req) : Option Req :=
  if req.finishedReason.isSome then some { req with delayed := req.delayed - 1 }
  else if req.toAbort then some { req with finishedReason := some (.abort "Unknown error") }
  else if req.samplingParams.maxNewTokens ≤ req.outputIds.length then
    some { req with finishedReason := some (.length req.samplingParams.maxNewTokens) }
  else do
    let lastTokenId ← req.outputIds[0]?
    if matchedEos tokenizer req.samplingParams lastTokenId && !req.samplingParams.ignoreEos then
      pure { req with finishedReason := some (.matchedToken lastTokenId) }
    else checkStopStrs tokenizer req

/-- One sampled token: `req.output_ids.append(t)` and then `req.check_finished()`. -/
def Req.appendToken (tokenizer : Option Tokenizer) (req : Req) (token : Nat) : Option Req :=
  { req with outputIds := req.outputIds ++ [token] }.checkFinished tokenizer

/-- `Req.adjust_max_prefix_ids`: the length of the returned slice of `fill_ids`. -/
def Req.maxPrefixLen (req : Req) : Nat :=
  let inputLen : Int := (req.originInputIds ++ req.outputIds).length
  let len := inputLen - 1
  let len := if 0 < req.samplingParams.maxNewTokens then min len (inputLen - 1) else len
  let len := if req.returnLogprob then
      min (if req.hasNormalizedPromptLogprob then len else min len (inputLen - 2))
        req.logprobStartLen
    else len
  (max len 0).toNat

/-- `Req.init_next_round_input`; `matched` is the length of the prefix found by
`tree_cache.match_prefix` for a key of the given length, when it is consulted. -/
def Req.initNextRoundInput (matched : Option (Nat → Nat)) (req : Req) : Req :=
  let fillIds := req.originInputIds ++ req.outputIds
  let prefixLen := match matched with
    | some find => find req.maxPrefixLen
    | none => req.prefixLen
  { req with fillIds, prefixLen, extendInputLen := (fillIds.length : Int) - prefixLen }

/-- `Req.reset_for_retract`, with `logprob_start_len` set to `10**9`. -/
def Req.resetForRetract (req : Req) : Req :=
  { req with prefixLen := 0, extendInputLen := 0, logprobStartLen := 10 ^ 9 }

/-- The forward modes a scheduler without data-parallel attention produces. -/
inductive ForwardMode
  | extend
  | decode
  | mixed
  deriving DecidableEq, Repr

def ForwardMode.isExtend : ForwardMode → Bool
  | .extend => true
  | .mixed => true
  | .decode => false

def ForwardMode.isDecode : ForwardMode → Bool
  | .decode => true
  | _ => false

/-- `value[indices]`; an index out of range raises. -/
def gather {α : Type} (values : List α) (indices : List Nat) : Option (List α) :=
  indices.mapM fun i => values[i]?

/-- The batched sampling parameters, one row for each request. -/
structure SamplingBatchInfo where
  temperatures : List Rat
  topPs : List Rat
  topKs : List Nat
  minPs : List Rat
  isAllGreedy : Bool
  needMinPSampling : Bool
  deriving DecidableEq

namespace SamplingBatchInfo

def fromScheduleBatch (heap : Nat → Req) (reqs : List Nat) : SamplingBatchInfo where
  temperatures := reqs.map fun q => (heap q).samplingParams.temperature
  topPs := reqs.map fun q => (heap q).samplingParams.topP
  topKs := reqs.map fun q => (heap q).samplingParams.topK
  minPs := reqs.map fun q => (heap q).samplingParams.minP
  isAllGreedy := reqs.all fun q => decide ((heap q).samplingParams.topK ≤ 1)
  needMinPSampling := reqs.any fun q => decide (0 < (heap q).samplingParams.minP)

def filterBatch (info : SamplingBatchInfo) (newIndices : List Nat) :
    Option SamplingBatchInfo := do
  let temperatures ← gather info.temperatures newIndices
  let topPs ← gather info.topPs newIndices
  let topKs ← gather info.topKs newIndices
  let minPs ← gather info.minPs newIndices
  pure { info with temperatures, topPs, topKs, minPs }

def mergeBatch (info other : SamplingBatchInfo) : SamplingBatchInfo :=
  { info with
    temperatures := info.temperatures ++ other.temperatures
    topPs := info.topPs ++ other.topPs
    topKs := info.topKs ++ other.topKs
    minPs := info.minPs ++ other.minPs
    isAllGreedy := info.isAllGreedy && other.isAllGreedy }

end SamplingBatchInfo

/-- A batch; `none` and `[]` stand for fields that are still `None`. Requests are
references into the scheduler's heap. -/
structure ScheduleBatch where
  reqs : List Nat
  forwardMode : ForwardMode
  inputIds : Option (List Nat)
  reqPoolIndices : List Nat
  seqLens : List Nat
  seqLensSum : Nat
  outCacheLoc : Option (List Nat)
  outputIds : Option (List Nat)
  returnLogprob : Bool
  topLogprobsNums : Option (List Nat)
  prefixLens : List Int
  extendLens : List Int
  extendNumTokens : Nat
  extendLogprobStartLens : List Int
  decodingReqs : Option (List Nat)
  samplingInfo : SamplingBatchInfo
  deriving DecidableEq

namespace ScheduleBatch

def batchSize (batch : ScheduleBatch) : Nat := batch.reqs.length

def isEmpty (batch : ScheduleBatch) : Bool := batch.reqs.isEmpty

/-- `run_batch` runs a forward pass for the batch. -/
def forwards (batch : ScheduleBatch) : Bool :=
  batch.forwardMode.isDecode || batch.extendNumTokens != 0

/-- The requests `filter_batch` keeps when it is given no `keep_indices`. -/
def keeps (heap : Nat → Req) (beingChunkedReq : Option Nat) (q : Nat) : Bool :=
  !(heap q).finished && beingChunkedReq != some q

/-- The default `keep_indices` of `filter_batch`. -/
def keepIndices (heap : Nat → Req) (beingChunkedReq : Option Nat) (batch : ScheduleBatch) :
    List Nat :=
  (List.range batch.reqs.length).filter fun i => batch.reqs[i]?.any (keeps heap beingChunkedReq)

/-- `top_logprobs_nums` in `filter_batch`. -/
def filterTopLogprobsNums (returnLogprob : Bool) (nums : Option (List Nat)) (indices : List Nat) :
    Option (Option (List Nat)) :=
  if returnLogprob then (nums.bind fun ns => gather ns indices).map some else some none

/-- `ScheduleBatch.filter_batch` with its `keep_indices`; `none` is a raised
exception. -/
def filterIndices (heap : Nat → Req) (keepIndices : List Nat) (batch : ScheduleBatch) :
    Option ScheduleBatch :=
  if keepIndices = [] then some { batch with reqs := [] }
  else if keepIndices.length = batch.reqs.length then some batch
  else do
    let reqs ← gather batch.reqs keepIndices
    let reqPoolIndices ← gather batch.reqPoolIndices keepIndices
    let seqLens ← gather batch.seqLens keepIndices
    let outputIds ← batch.outputIds
    let outputIds ← gather outputIds keepIndices
    let returnLogprob := reqs.any fun q => (heap q).returnLogprob
    let topLogprobsNums ← filterTopLogprobsNums returnLogprob batch.topLogprobsNums keepIndices
    let samplingInfo ← batch.samplingInfo.filterBatch keepIndices
    pure { batch with reqs, reqPoolIndices, seqLens, outCacheLoc := none,
                      seqLensSum := seqLens.sum, outputIds := some outputIds, returnLogprob,
                      topLogprobsNums, samplingInfo }

def filterBatch (heap : Nat → Req) (beingChunkedReq : Option Nat) (batch : ScheduleBatch) :
    Option ScheduleBatch :=
  batch.filterIndices heap (batch.keepIndices heap beingChunkedReq)

/-- The three `return_logprob` branches of `merge_batch`. -/
def mergeTopLogprobsNums (batch other : ScheduleBatch) : Option (Option (List Nat)) :=
  if batch.returnLogprob && other.returnLogprob then do
    let nums ← batch.topLogprobsNums
    let otherNums ← other.topLogprobsNums
    pure (some (nums ++ otherNums))
  else if batch.returnLogprob then do
    let nums ← batch.topLogprobsNums
    pure (some (nums ++ List.replicate other.reqs.length 0))
  else if other.returnLogprob then do
    let otherNums ← other.topLogprobsNums
    pure (some (List.replicate batch.reqs.length 0 ++ otherNums))
  else pure batch.topLogprobsNums

/-- `output_ids` in `merge_batch`. -/
def mergeOutputIds (batch other : ScheduleBatch) : Option (Option (List Nat)) :=
  match batch.outputIds with
  | none => some none
  | some ids => other.outputIds.map fun otherIds => some (ids ++ otherIds)

/-- `ScheduleBatch.merge_batch`. -/
def mergeBatch (batch other : ScheduleBatch) : Option ScheduleBatch := do
  let outputIds ← batch.mergeOutputIds other
  let topLogprobsNums ← batch.mergeTopLogprobsNums other
  pure { batch with
    samplingInfo := batch.samplingInfo.mergeBatch other.samplingInfo
    reqPoolIndices := batch.reqPoolIndices ++ other.reqPoolIndices
    seqLens := batch.seqLens ++ other.seqLens
    outCacheLoc := none
    seqLensSum := batch.seqLensSum + other.seqLensSum
    outputIds
    topLogprobsNums
    reqs := batch.reqs ++ other.reqs
    returnLogprob := batch.returnLogprob || other.returnLogprob }

/-- A tensor of `split_batch` that may be `None`. -/
def gatherOptional (values : Option (List Nat)) (indices : List Nat) : Option (Option (List Nat)) :=
  match values with
  | none => some none
  | some values => (gather values indices).map some

/-- `make_sub_batch` of `split_batch` for a non-empty index list. -/
def makeSubBatch (heap : Nat → Req) (indices : List Nat) (batch : ScheduleBatch) :
    Option ScheduleBatch := do
  let reqs ← gather batch.reqs indices
  let reqPoolIndices ← gather batch.reqPoolIndices indices
  let seqLens ← gather batch.seqLens indices
  let outputIds ← gatherOptional batch.outputIds indices
  let returnLogprob := reqs.any fun q => (heap q).returnLogprob
  let topLogprobsNums ←
    gatherOptional (if returnLogprob then batch.topLogprobsNums else none) indices
  let samplingInfo ← batch.samplingInfo.filterBatch indices
  pure { reqs, forwardMode := batch.forwardMode, inputIds := none, reqPoolIndices, seqLens,
         seqLensSum := seqLens.sum, outCacheLoc := none, outputIds, returnLogprob,
         topLogprobsNums, prefixLens := [], extendLens := [], extendNumTokens := 0,
         extendLogprobStartLens := [], decodingReqs := none, samplingInfo }

/-- `make_sub_batch`: no batch for an empty index list. -/
def makeSubBatch? (heap : Nat → Req) (indices : List Nat) (batch : ScheduleBatch) :
    Option (Option ScheduleBatch) :=
  if indices = [] then some none else (batch.makeSubBatch heap indices).map some

/-- `ScheduleBatch.split_batch` with both index lists given. -/
def splitBatch (heap : Nat → Req) (keepIndices dropIndices : List Nat) (batch : ScheduleBatch) :
    Option (Option ScheduleBatch × Option ScheduleBatch) := do
  let keep ← makeSubBatch? heap keepIndices batch
  let drop ← makeSubBatch? heap dropIndices batch
  pure (keep, drop)

end ScheduleBatch

/-- `len(batch.reqs)`, zero for an absent batch. -/
def sizeOf? (batch : Option ScheduleBatch) : Nat := (batch.map (·.batchSize)).getD 0

/-- The requests of a batch that may be absent. -/
def reqsOf (batch : Option ScheduleBatch) : List Nat := (batch.map (·.reqs)).getD []

end FastPP
