import FastPP.Controller.Greedy
import Mathlib.Algebra.Order.Monoid.WithTop
import Mathlib.Order.Bounds.Basic

namespace FastPP

/-- The reasons that `_select_alp_chunk_with_lazy_prediction` gives for a chunk. -/
inductive AlpReason
  | optimal
  | failSloExecTime
  | bestEffort
  deriving DecidableEq, Repr

/-- Its outcomes: `(None, "", None)`, a chunk, or the error of `min` without candidates. -/
inductive AlpSelection
  | missing
  | chosen (chunk : Nat) (reason : AlpReason)
  | valueError
  deriving DecidableEq, Repr

/-- The arguments of the search; `predict` is `_predict_alp_exec_time_for_chunk` with the
prediction context of the call, and `none` its `None`. -/
structure AlpQuery where
  predict : Nat → Option Rat
  ppSize : Nat
  sloTpot : Rat
  requiredThroughput : WithTop Rat
  avgRunningReq : Rat
  eps : Rat

namespace AlpQuery

variable (Q : AlpQuery)

/-- The tokens per second of a chunk that is predicted to take `rawPred`. -/
def capacity (chunk : Nat) (rawPred : Rat) : Rat :=
  max ((chunk : Rat) - Q.avgRunningReq) 0 / max rawPred Q.eps

/-- What is returned after the loop. -/
def finish (candidateChunks : List Nat) (lastSafeChunk : Option Nat) : AlpSelection :=
  match lastSafeChunk with
  | some chunk => .chosen chunk .bestEffort
  | none =>
    match candidateChunks.min? with
    | some chunk => .chosen chunk .failSloExecTime
    | none => .valueError

/-- The loop over the sorted candidates. -/
def selectFrom (candidateChunks : List Nat) (lastSafeChunk : Option Nat) :
    List Nat → AlpSelection
  | [] => finish candidateChunks lastSafeChunk
  | chunk :: chunks =>
    match Q.predict chunk with
    | none => .missing
    | some rawPred =>
      if Q.sloTpot < rawPred * Q.ppSize then finish candidateChunks lastSafeChunk
      else if Q.requiredThroughput ≤ (Q.capacity chunk rawPred : WithTop Rat) then
        .chosen chunk .optimal
      else selectFrom candidateChunks (some chunk) chunks

/-- `_select_alp_chunk_with_lazy_prediction`. -/
def select (candidateChunks : List Nat) : AlpSelection :=
  Q.selectFrom candidateChunks none (candidateChunks.mergeSort (· ≤ ·))

/-- A chunk whose prediction is within `slo_tpot`. -/
def Within (chunk : Nat) : Prop := ∃ rawPred ∈ Q.predict chunk, rawPred * Q.ppSize ≤ Q.sloTpot

/-- A chunk whose capacity meets the required throughput. -/
def Enough (chunk : Nat) : Prop :=
  ∃ rawPred ∈ Q.predict chunk, Q.requiredThroughput ≤ (Q.capacity chunk rawPred : WithTop Rat)

/-- The candidates up to which all candidates are within `slo_tpot`. -/
def safe (candidateChunks : List Nat) : Set Nat :=
  { c | c ∈ candidateChunks ∧ ∀ d ∈ candidateChunks, d ≤ c → Q.Within d }

/-- The candidates that meet the requirements. -/
def answers (candidateChunks : List Nat) : Set Nat :=
  { c | c ∈ Q.safe candidateChunks ∧ Q.Enough c }

/-- A prediction is missing for a candidate before which nothing determines the answer. -/
def Missing (candidateChunks : List Nat) : Prop :=
  ∃ c ∈ candidateChunks, Q.predict c = none ∧
    ∀ d ∈ candidateChunks, d < c → Q.Within d ∧ ¬ Q.Enough d

/-- The chunk that the candidates and all their predictions determine. -/
def EagerChoice (candidateChunks : List Nat) (chunk : Nat) : AlpReason → Prop
  | .optimal => IsLeast (Q.answers candidateChunks) chunk
  | .bestEffort =>
    Q.answers candidateChunks = ∅ ∧ IsGreatest (Q.safe candidateChunks) chunk
  | .failSloExecTime =>
    Q.safe candidateChunks = ∅ ∧ IsLeast { c | c ∈ candidateChunks } chunk

end AlpQuery

/-- What the controller reads of a waiting request or of one in `qps_queue`. -/
structure QueuedReq where
  arrivalTime : Rat
  originInputLen : Nat
  outputLen : Nat
  fillLen : Option Nat
  prefixLen : Nat
  deriving DecidableEq

/-- What it reads of a chunked request. -/
structure ChunkedReq where
  identity : Nat
  ppIdx : Option Nat
  arrivalTime : Rat
  originInputLen : Nat
  outputLen : Nat
  fillLen : Nat

/-- The arguments of the controller that only the ALP strategy uses; the coefficient of an
infinite throughput is not negative. -/
structure AlpArgs extends ControllerArgs where
  alpFreshEpsilon : Rat
  alpSloTpotCoeff : Rat
  alpThroughputCoeff : Rat
  alpWindowSec : Rat
  throughputCoeff_nonneg : 0 ≤ alpThroughputCoeff

/-- The candidates of the ALP model and its predictions in the context of the decision. -/
structure AlpModel where
  candidateChunks : List Nat
  predict : Nat → Option Rat

/-- The scheduler as `decide_chunk_alp` sees it: `_being_chunked_req` has one entry for each
micro-batch, as `_last_batch` has. -/
structure AlpState extends Controlled where
  waitingQueue : List QueuedReq
  qpsQueue : List QueuedReq
  beingChunkedReq : List (Option ChunkedReq)
  systemStartTime : Rat
  execTimeUpdateSum : Rat
  execTimeUpdateCount : Nat
  curChunk : Option Nat
  nextChunk : Option Nat

namespace QueuedReq

/-- `remain_prefill` of a waiting request. -/
def remainPrefill (req : QueuedReq) : Nat :=
  req.fillLen.getD (req.originInputLen + req.outputLen) - req.prefixLen

end QueuedReq

namespace AlpState

variable (S : AlpState)

/-- A chunked request of the micro-batch itself. -/
def ownChunk (idx : Nat) : Option ChunkedReq :=
  (S.beingChunkedReq[idx]?.join).filter fun req => decide (req.ppIdx = some idx)

/-- `empty_check`. -/
def isEmpty : Bool :=
  S.waitingQueue.isEmpty && (List.range S.lastBatch.length).all fun idx => (S.ownChunk idx).isNone

/-- The requests of a last batch that are not the chunked request of the micro-batch. -/
def otherReqs (idx : Nat) (batch : MeteredBatch) : List Nat :=
  batch.reqs.filter fun q => decide ((S.beingChunkedReq[idx]?.join).map (·.identity) ≠ some q)

/-- `running_req_num` of `decide_chunk_alp`. -/
def alpRunningReqNum : List Nat :=
  S.lastBatch.mapIdx fun idx batch => (batch.map fun batch => (S.otherReqs idx batch).length).getD 0

/-- The chunked requests that are counted as waiting. -/
def waitingChunks : List ChunkedReq :=
  (S.lastBatch.mapIdx fun idx batch => batch.bind fun _ => S.ownChunk idx).filterMap id

/-- The pairs of `waiting_req_time` and `waiting_tok_num`. -/
def waitingTimes (curTime : Rat) : List (Rat × Nat) :=
  S.waitingQueue.map (fun req => (curTime - req.arrivalTime, req.remainPrefill)) ++
    S.waitingChunks.map fun req =>
      (curTime - req.arrivalTime, req.originInputLen + req.outputLen - req.fillLen)

/-- `qps_tok_sum`, the tokens per second that arrived in the window. -/
def inflow (args : AlpArgs) (curTime : Rat) : Rat :=
  ((S.qpsQueue.filter fun req => decide (curTime - args.alpWindowSec ≤ req.arrivalTime)).map
    fun req => (req.originInputLen : Rat) /
      min args.alpWindowSec (curTime - S.systemStartTime)).sum

/-- `kv_free` of `decide_chunk_alp`. -/
def alpKvFree : Rat :=
  max 0 (((S.availableSize + S.evictableSize : Nat) : Int) - (S.alpRunningReqNum.sum : Nat) : Int) /
    S.maxTotalNumTokens

/-- `catch_up_speed`: what the requests that have waited for long need. -/
def catchUpSpeed (args : AlpArgs) (curTime : Rat) : WithTop Rat :=
  let stale := (S.waitingTimes curTime).filter fun waiting =>
    decide (args.sloTtft * args.alpFreshEpsilon ≤ waiting.1)
  let timeBudget := args.sloTtft - if stale = [] then 0 else mean (stale.map (·.1))
  let staleTokens := (stale.map (·.2)).sum
  if 0 < staleTokens then
    if timeBudget ≤ args.sloTpot then ⊤ else ((staleTokens / timeBudget : Rat) : WithTop Rat)
  else 0

/-- `required_throughput`. -/
def requiredThroughput (args : AlpArgs) (curTime : Rat) : WithTop Rat :=
  S.catchUpSpeed args curTime + (S.inflow args curTime : WithTop Rat)

/-- The search for a chunk that meets the required throughput. -/
def query (args : AlpArgs) (alp : AlpModel) (curTime : Rat) : AlpQuery where
  predict := alp.predict
  ppSize := S.lastBatch.length
  sloTpot := args.sloTpot * args.alpSloTpotCoeff
  requiredThroughput := (S.requiredThroughput args curTime).map (· * args.alpThroughputCoeff)
  avgRunningReq := mean (S.alpRunningReqNum.map fun n => (n : Rat))
  eps := 1 / 1000000000

/-- `next_chunk` before the safety guard; `none` where `decide_chunk_alp` returns or raises. -/
def proposedChunk (args : AlpArgs) (alp : AlpModel) (curTime : Rat) : Option Nat :=
  if S.alpKvFree < args.kvFreeThreshold then
    some (Controlled.pressureChunk S.alpRunningReqNum)
  else
    match (S.query args alp curTime).select alp.candidateChunks with
    | .chosen chunk _ => some chunk
    | .missing | .valueError => none

/-- The metrics after the samples were taken, and the execution times consumed. -/
def alpMetrics (m : BaseMetrics) (S : AlpState) : AlpState :=
  { S with
    ttft := if m.ttftVals = [] then S.ttft else mean m.ttftVals
    tpot := if m.tpotVals = [] then S.tpot else mean m.tpotVals
    execTimeUpdateSum := 0
    execTimeUpdateCount := 0
    curChunk := some S.chunkedPrefillSize }

/-- The state after the collection of the metrics. -/
def sampled : AlpState :=
  alpMetrics S.collectBaseMetrics.1 { S with toControlled := S.collectBaseMetrics.2 }

/-- The safety guard, and the size that is set. -/
def setAlpChunk (proposed : Nat) : AlpState :=
  let chunk := S.applySafetyGuard proposed S.alpRunningReqNum
  { S with
    toControlled := S.toControlled.setChunkedPrefillSize chunk
    nextChunk := some chunk }

/-- `decide_chunk_alp`. -/
def decideChunkAlp (args : AlpArgs) (model : Option AlpModel) (curTime : Rat) : AlpState :=
  match model with
  | none => S
  | some alp =>
    if S.isEmpty then S
    else
      match S.sampled.proposedChunk args alp curTime with
      | none => S.sampled
      | some proposed => S.sampled.setAlpChunk proposed

end AlpState

end FastPP
