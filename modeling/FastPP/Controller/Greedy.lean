import Mathlib.Algebra.Order.Field.Rat
import Mathlib.Data.List.MinMax

namespace FastPP

/-- What the chunk controller reads of a `_last_batch`; requests are named by their identity. -/
structure MeteredBatch where
  reqs : List Nat
  ttft : List Rat
  tpot : List Rat
  deriving DecidableEq

/-- The thresholds and bounds that `DynamicChunkController.__init__` takes from `ServerArgs`. -/
structure ControllerArgs where
  sloTtft : Rat
  sloTpot : Rat
  baseChunk : Nat
  maxChunk : Nat
  minChunk : Nat
  kvFreeThreshold : Rat
  tpotViolationRatio : Rat
  ttftLowRatio : Rat
  ttftHighRatio : Rat
  tpotSafeRatio : Rat

/-- The scheduler as the chunk controller sees and sets it, with one last batch for each
micro-batch, and the `"heu"` entry of `_kv_pressure_chunk_restore`. -/
structure Controlled where
  lastBatch : List (Option MeteredBatch)
  availableSize : Nat
  evictableSize : Nat
  maxTotalNumTokens : Nat
  ttft : Rat
  tpot : Rat
  chunkedPrefillSize : Nat
  maxPrefillTokens : Nat
  kvPressureChunkRestore : Option Nat
  deriving DecidableEq

/-- What the loop of `_collect_base_metrics` has gathered. -/
structure BaseMetrics where
  runningReqNum : List Nat
  ttftVals : List Rat
  tpotVals : List Rat
  lastIdx : Option Nat

/-- One round of that loop, which takes the samples off the batch. -/
def BaseMetrics.collectBatch (m : BaseMetrics) (idx : Nat) :
    Option MeteredBatch → BaseMetrics × Option MeteredBatch
  | none => ({ m with runningReqNum := m.runningReqNum ++ [0] }, none)
  | some batch =>
    ({ runningReqNum := m.runningReqNum ++ [batch.reqs.length]
       ttftVals := m.ttftVals ++ batch.ttft
       tpotVals := m.tpotVals ++ batch.tpot
       lastIdx := if batch.tpot = [] then m.lastIdx else some idx },
      some { batch with ttft := [], tpot := [] })

def BaseMetrics.collect (m : BaseMetrics) (idx : Nat) :
    List (Option MeteredBatch) → BaseMetrics × List (Option MeteredBatch)
  | [] => (m, [])
  | batch :: batches =>
    let here := m.collectBatch idx batch
    let rest := here.1.collect (idx + 1) batches
    (rest.1, here.2 :: rest.2)

/-- `np.mean`. -/
def mean (values : List Rat) : Rat := values.sum / values.length

namespace Controlled

/-- The first part of `_collect_base_metrics`. -/
def collectBaseMetrics (S : Controlled) : BaseMetrics × Controlled :=
  let collected := BaseMetrics.collect ⟨[], [], [], none⟩ 0 S.lastBatch
  (collected.1, { S with lastBatch := collected.2 })

/-- `kv_free` of `_collect_base_metrics`. -/
def kvFree (S : Controlled) (runningReqNum : List Nat) : Rat :=
  (((S.availableSize + S.evictableSize : Nat) : Int) - (runningReqNum.sum : Nat) : Int) /
    S.maxTotalNumTokens

/-- The test of `_apply_safety_guard`. -/
def GuardFires (S : Controlled) (nextChunk : Nat) : Prop :=
  ∃ batch ∈ S.lastBatch, ∃ b ∈ batch, nextChunk ≤ b.reqs.length

instance (S : Controlled) (nextChunk : Nat) : Decidable (S.GuardFires nextChunk) :=
  inferInstanceAs (Decidable (∃ batch ∈ S.lastBatch, ∃ b ∈ batch, nextChunk ≤ b.reqs.length))

/-- The size that the guard sets instead, a multiple of 128 above the largest count. -/
def guardSize (runningReqNum : List Nat) : Nat := ((runningReqNum.max?.getD 0) / 128 + 1) * 128

/-- `_apply_safety_guard`. -/
def applySafetyGuard (S : Controlled) (nextChunk : Nat) (runningReqNum : List Nat) : Nat :=
  if S.GuardFires nextChunk then guardSize runningReqNum else nextChunk

/-- `_set_chunked_prefill_size`. -/
def setChunkedPrefillSize (S : Controlled) (chunkSize : Nat) : Controlled :=
  { S with chunkedPrefillSize := chunkSize, maxPrefillTokens := chunkSize }

/-- `_update_kv_pressure_restore_chunk`. -/
def updateKvPressureRestoreChunk (S : Controlled) (kvPressureActive : Prop)
    [Decidable kvPressureActive] (curChunk appliedChunk : Nat) (restoreChunk : Option Nat) :
    Controlled :=
  if kvPressureActive then
    match restoreChunk with
    | none =>
      if appliedChunk < curChunk then { S with kvPressureChunkRestore := some curChunk } else S
    | some restoreChunk =>
      if restoreChunk ≤ appliedChunk then { S with kvPressureChunkRestore := none } else S
  else if restoreChunk = some appliedChunk then { S with kvPressureChunkRestore := none }
  else S

end Controlled

namespace Controlled

/-- The size under KV pressure. -/
def pressureChunk (runningReqNum : List Nat) : Nat :=
  (((runningReqNum.min?.getD 0) + 64) / 128 + 1) * 128

/-- Steps 2 and 3 of the decision: the size that the latencies ask for. -/
def latencyChunk (args : ControllerArgs) (S : Controlled) : Nat :=
  let curChunk := S.chunkedPrefillSize
  if args.sloTpot * args.tpotViolationRatio < S.tpot ∨
      S.ttft < args.sloTtft * args.ttftLowRatio then
    max (curChunk - args.baseChunk) args.minChunk
  else if args.sloTtft * args.ttftHighRatio < S.ttft ∧
      S.tpot < args.sloTpot * args.tpotSafeRatio then
    min (curChunk + args.baseChunk) args.maxChunk
  else curChunk

/-- The decision logic before the safety guard. -/
def greedyChunk (args : ControllerArgs) (S : Controlled) (kvPressureActive : Prop)
    [Decidable kvPressureActive] (runningReqNum : List Nat) : Nat :=
  if kvPressureActive then pressureChunk runningReqNum
  else match S.kvPressureChunkRestore with
    | some restoreChunk => restoreChunk
    | none => S.latencyChunk args

/-- `decide_chunk_greedy` from its second step on. -/
def decideGreedy (args : ControllerArgs) (S : Controlled) (m : BaseMetrics) : Controlled :=
  let S := { S with
    ttft := mean m.ttftVals
    tpot := if m.tpotVals = [] then S.tpot else mean m.tpotVals }
  let nextChunk := S.applySafetyGuard
    (S.greedyChunk args (S.kvFree m.runningReqNum < args.kvFreeThreshold) m.runningReqNum)
    m.runningReqNum
  (S.setChunkedPrefillSize nextChunk).updateKvPressureRestoreChunk
    (S.kvFree m.runningReqNum < args.kvFreeThreshold) S.chunkedPrefillSize nextChunk
    S.kvPressureChunkRestore

/-- The early exit: the samples taken are put back into the last batch that had any. -/
def putBack (S : Controlled) (m : BaseMetrics) : Controlled :=
  match m.lastIdx with
  | none => S
  | some idx =>
    let restored := S.lastBatch.modify idx
      (Option.map fun batch => { batch with tpot := m.tpotVals })
    { S with lastBatch := restored }

/-- `decide_chunk_greedy`. -/
def decideChunkGreedy (args : ControllerArgs) (S : Controlled) : Controlled :=
  let m := S.collectBaseMetrics
  if m.1.ttftVals = [] then m.2.putBack m.1 else m.2.decideGreedy args m.1

end Controlled

end FastPP
