import FastPP.State
import Mathlib.Data.Rat.Cast.Order
import Mathlib.Algebra.Order.Ring.Rat

namespace FastPP

inductive AddReqResult
  | continue
  | noToken
  | other
  deriving DecidableEq, Repr

/-- `values[:stop]` with Python's reading of a negative bound. -/
def sliceTo {α : Type} (values : List α) (stop : Int) : List α :=
  if 0 ≤ stop then values.take stop.toNat else values.take (values.length + stop).toNat

/-- `values[start:]` with Python's reading of a negative bound. -/
def sliceFrom {α : Type} (values : List α) (start : Int) : List α :=
  if 0 ≤ start then values.drop start.toNat else values.drop (values.length + start).toNat

/-- `PrefillAdder`, with the requests of all running batches in order. -/
structure PrefillAdder where
  runningReqs : List Nat
  newTokenRatio : Rat
  remTotalTokens : Rat
  remInputTokens : Int
  remChunkTokens : Option Int
  curRemTokens : Int
  reqStates : Option (List (Rat × Nat))
  canRunList : List Nat
  newBeingChunkedReq : Option Nat

/-- The requests of `_running_batch`, micro-batch by micro-batch. -/
def Sched.allRunningReqs {M : Type} (cfg : Config) (S : Sched M) : List Nat :=
  (List.range cfg.ppSize).flatMap fun j => reqsOf (S.stages j).runningBatch

namespace PrefillAdder

/-- `PrefillAdder.__init__`. -/
def init {M : Type} (cfg : Config) (S : Sched M) (mixedWithDecodeTokens : Nat) : PrefillAdder :=
  let runningReqs := S.allRunningReqs cfg
  let future := runningReqs.map fun q =>
    (min (((S.heap q).samplingParams.maxNewTokens : Int) - (S.heap q).outputIdsLen)
      cfg.clipMaxNewTokens : Rat) * S.newTokenRatio
  { runningReqs
    newTokenRatio := S.newTokenRatio
    remTotalTokens := (S.availableSize - mixedWithDecodeTokens : Int) - future.sum
    remInputTokens := S.maxPrefillTokens - mixedWithDecodeTokens
    remChunkTokens := S.chunkedPrefillSize.map fun size => (size : Int) - mixedWithDecodeTokens
    curRemTokens := S.availableSize - mixedWithDecodeTokens
    reqStates := none
    canRunList := []
    newBeingChunkedReq := none }

def budgetState (adder : PrefillAdder) : AddReqResult :=
  if adder.remTotalTokens ≤ 0 ∨ adder.curRemTokens ≤ 0 then .noToken
  else if adder.remInputTokens ≤ 0 ∨ adder.remChunkTokens.any (· ≤ 0) then .other
  else .continue

/-- `_prefill_one_req`; the prefix length only feeds the hit statistics. -/
def prefillOneReq (adder : PrefillAdder) (extendInputLen : Int) (maxNewTokens : Nat) :
    PrefillAdder :=
  { adder with
    remTotalTokens := adder.remTotalTokens - (extendInputLen + maxNewTokens : Int)
    curRemTokens := adder.curRemTokens - extendInputLen
    remInputTokens := adder.remInputTokens - extendInputLen
    remChunkTokens := adder.remChunkTokens.map (· - extendInputLen) }

def clippedMaxNewTokens (cfg : Config) (req : Req) : Nat :=
  min req.samplingParams.maxNewTokens cfg.clipMaxNewTokens

/-- `req.extend_input_len = n; req.fill_ids = req.fill_ids[: len(prefix) + n]`. -/
def truncate (req : Req) (n : Int) : Req :=
  { req with extendInputLen := n, fillIds := sliceTo req.fillIds (req.prefixLen + n) }

/-- `add_being_chunked_req`: the updated request and whether it is still chunked;
a chunk size of `None` cannot be compared and raises. -/
def addBeingChunkedReq (cfg : Config) (adder : PrefillAdder) (q : Nat) (req : Req) :
    Option (PrefillAdder × Req × Bool) := do
  let rem ← adder.remChunkTokens
  let truncated := decide (rem < req.extendInputLen)
  let req := truncate req (min req.extendInputLen rem)
  let adder := { adder with canRunList := adder.canRunList ++ [q] }.prefillOneReq
    req.extendInputLen (if truncated then 0 else clippedMaxNewTokens cfg req)
  pure (adder, req, truncated)

/-- The pair of tokens left and tokens occupied of `add_req_state`, if tokens are
left. -/
def reqState (cfg : Config) (adder : PrefillAdder) (req : Req) : Option (Rat × Nat) :=
  let newTokenRatio : Rat := if req.samplingParams.ignoreEos then 1 else adder.newTokenRatio
  let tokensLeft : Rat := req.samplingParams.maxNewTokens * newTokenRatio - req.outputIdsLen +
    ((if 1 < cfg.ppSize then cfg.ppSize - 1 else 0 : Nat) : Rat)
  if 0 < tokensLeft then some (tokensLeft, req.originInputIds.length + req.outputIdsLen) else none

/-- `insert_sort` of `add_req_state`: without a larger entry the loop variable
stops at the last index, so the pair goes before the last entry. -/
def insertState (state : Rat × Nat) (states : List (Rat × Nat)) : List (Rat × Nat) :=
  let i := match states.findIdx? (fun s => decide (state.1 ≤ s.1)) with
    | some i => i
    | none => states.length - 1
  states.take i ++ state :: states.drop i

/-- `req_states` after the new request was added to it. -/
def nextReqStates (cfg : Config) (heap : Nat → Req) (adder : PrefillAdder) (req : Req) :
    List (Rat × Nat) :=
  match adder.reqStates with
  | none =>
    ((req :: adder.runningReqs.map heap ++ adder.canRunList.map heap).filterMap
      (adder.reqState cfg)).mergeSort fun a b => decide (a.1 ≤ b.1)
  | some states =>
    match adder.reqState cfg req with
    | some state => insertState state states
    | none => states

/-- The admission loop over `req_states`: does some entry run out of tokens? -/
def runsOut (curRemTokens : Rat) : List (Rat × Nat) → Rat → Bool
  | [], _ => false
  | (tokensLeft, tokensOccupied) :: rest, tokensFreed =>
    let decodeSteps := (rest.head?.map (·.1)).getD tokensLeft
    let bs : Nat := rest.length + 1
    if curRemTokens + tokensFreed - decodeSteps * bs ≤ 0 then true
    else runsOut curRemTokens rest (tokensFreed + tokensOccupied)

/-- Add a waiting request whole, or its first `rem_chunk_tokens` tokens. -/
def addOrTruncate (cfg : Config) (adder : PrefillAdder) (q : Nat) (req : Req) (whole : Bool) :
    AddReqResult × PrefillAdder × Req :=
  if whole then
    let adder := { adder with canRunList := adder.canRunList ++ [q] }.prefillOneReq
      req.extendInputLen (clippedMaxNewTokens cfg req)
    (adder.budgetState, adder, req)
  else
    let truncLen := adder.remChunkTokens.getD 0
    if truncLen = 0 then (.other, adder, req)
    else
      let adder := { adder with canRunList := adder.canRunList ++ [q]
                                newBeingChunkedReq := some q }.prefillOneReq truncLen 0
      (adder.budgetState, adder, truncate req truncLen)

def addOneReqIgnoreEosSafe (cfg : Config) (heap : Nat → Req) (adder : PrefillAdder) (q : Nat)
    (req : Req) : AddReqResult × PrefillAdder × Req :=
  let states := adder.nextReqStates cfg heap req
  let adder := { adder with reqStates := some states }
  if runsOut (adder.curRemTokens - req.originInputIds.length : Int) states 0 then
    (.noToken, adder, req)
  else addOrTruncate cfg adder q req (adder.remChunkTokens.all (req.extendInputLen ≤ ·))

/-- `add_one_req`; the lock operations of `ChunkCache` do nothing. -/
def addOneReq (cfg : Config) (heap : Nat → Req) (adder : PrefillAdder) (q : Nat) (req : Req) :
    AddReqResult × PrefillAdder × Req :=
  if req.samplingParams.ignoreEos then adder.addOneReqIgnoreEosSafe cfg heap q req
  else
    let totalTokens : Int := req.extendInputLen + clippedMaxNewTokens cfg req
    if adder.remTotalTokens ≤ totalTokens then (.noToken, adder, req)
    else if adder.remInputTokens < req.extendInputLen ∧ adder.canRunList ≠ [] then
      (.other, adder, req)
    else if adder.remTotalTokens < totalTokens then (.noToken, adder, req)
    else addOrTruncate cfg adder q req
      (adder.remChunkTokens.all (req.extendInputLen ≤ ·) ||
        (req.returnLogprob && !req.hasNormalizedPromptLogprob &&
          decide (req.logprobStartLen ≠ (req.originInputIds.length : Int) - 1)))

end PrefillAdder

namespace Sched

variable {M : Type}

/-- `len(self.running_batch.reqs) if self.running_batch else 0`. -/
def runningBs (S : Sched M) : Nat := sizeOf? S.stage.runningBatch

/-- `SchedulePolicy.calc_priority` over `ChunkCache`, where `lpm` and `dfs-weight`
are `fcfs`. -/
def calcPriority (cfg : Config) (S : Sched M) : Sched M :=
  match cfg.schedulePolicy with
  | .lpm | .dfsWeight | .fcfs => S
  | .lof =>
    { S with
      waitingQueue := S.waitingQueue.mergeSort fun a b =>
        decide ((S.heap b).samplingParams.maxNewTokens ≤ (S.heap a).samplingParams.maxNewTokens) }
  | .random =>
    { S with
      waitingQueue := (cfg.shuffle S.rng S.waitingQueue).1
      rng := (cfg.shuffle S.rng S.waitingQueue).2 }

/-- The adder after the carried chunked request, if any, was added. -/
def addCarriedChunk (cfg : Config) (S : Sched M) (adder : PrefillAdder) :
    Option (Sched M × PrefillAdder) :=
  match S.stage.beingChunkedReq with
  | none => some (S, adder)
  | some q => do
    let added ← adder.addBeingChunkedReq cfg q ((S.heap q).initNextRoundInput none)
    let S := S.setReq q added.2.1
    pure (S.setStage { S.stage with beingChunkedReq := if added.2.2 then some q else none },
      added.1)

/-- The adapters used when `q` joins the running and the admitted requests. -/
def loraSet (S : Sched M) (runningReqs canRunList : List Nat) (q : Nat) : List (Option Nat) :=
  ((runningReqs ++ canRunList ++ [q]).map fun r => (S.heap r).loraPath).dedup

variable [MemoryPools M]

/-- `req.init_next_round_input(self.tree_cache)`. -/
def initNextRoundInput (S : Sched M) (q : Nat) : Sched M :=
  let req := S.heap q
  { S.setReq q (req.initNextRoundInput (some fun keyLen => (S.matchPrefix req.rid keyLen).2)) with
    mem := MemoryPools.viewPrefix S.mem q (S.matchPrefix req.rid req.maxPrefixLen).1 }

/-- The admission loop of `get_new_batch_prefill` over the waiting queue. -/
def addWaitingReqs (cfg : Config) (runningReqs : List Nat) :
    List Nat → Sched M → PrefillAdder → Sched M × PrefillAdder
  | [], S, adder => (S, adder)
  | q :: queue, S, adder =>
    if cfg.loraPaths ∧
        cfg.maxLorasPerBatch < (S.loraSet runningReqs adder.canRunList q).length then
      ({ S with batchIsFull := true }, adder)
    else if cfg.maxRunningRequests ≤ runningReqs.length + adder.canRunList.length then
      ({ S with batchIsFull := true }, adder)
    else
      let S := S.initNextRoundInput q
      let added := adder.addOneReq cfg S.heap q (S.heap q)
      let S := S.setReq q added.2.2
      match added.1 with
      | .continue => addWaitingReqs cfg runningReqs queue S added.2.1
      | .noToken => ({ S with batchIsFull := true }, added.2.1)
      | .other => (S, added.2.1)

/-- The part of `get_new_batch_prefill` that fills the `can_run_list`. -/
def selectPrefill (cfg : Config) (S : Sched M) : Option (Sched M × PrefillAdder) := do
  let S := S.calcPriority cfg
  let carried ← S.addCarriedChunk cfg
    (PrefillAdder.init cfg S (if cfg.isMixedChunk then S.runningBs else 0))
  pure (addWaitingReqs cfg (reqsOf S.stage.runningBatch) S.waitingQueue carried.1 carried.2)

end Sched

end FastPP
