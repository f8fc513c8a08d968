import FastPP.Batch
import FastPP.Memory

namespace FastPP

inductive SchedulePolicy
  | lpm
  | random
  | fcfs
  | lof
  | dfsWeight
  deriving DecidableEq, Repr

inductive BrMode
  | tpotFirst
  | e2eFirst
  | auto
  deriving DecidableEq, Repr

/-- Server arguments and constants of one scheduler with `ChunkCache`.
`shuffle` is `random.shuffle` on the state of the seeded generator. -/
structure Config where
  ppSize : Nat
  maxRunningRequests : Nat
  isMixedChunk : Bool
  loraPaths : Bool
  maxLorasPerBatch : Nat
  schedulePolicy : SchedulePolicy
  shuffle : Nat → List Nat → List Nat × Nat
  shuffle_perm : ∀ rng queue, (shuffle rng queue).1.Perm queue
  tokenizer : Option Tokenizer
  maxReqInputLen : Nat
  maxTotalNumTokens : Nat
  chunkedPrefillSize : Option Nat
  maxPrefillTokens : Nat
  clipMaxNewTokens : Nat
  retractDecodeSteps : Nat
  initNewTokenRatio : Rat
  minNewTokenRatio : Rat
  newTokenRatioDecay : Rat
  testRetract : Bool
  enableBatchRebalancing : Bool
  brWaitingTokThreshold : Nat
  brLoadAlpha : Rat
  brBaseUnit : Nat
  brMode : BrMode
  kvFreeThreshold : Rat
  sloTpot : Rat

/-- A request slot of the heap that no request has taken yet. -/
def Req.blank : Req where
  rid := 0
  originInputIds := []
  outputIds := []
  outputIdsLen := 0
  fillIds := []
  samplingParams :=
    { maxNewTokens := 0, ignoreEos := false, stopTokenIds := [], stopStrs := [], stopStrMaxLen := 0,
      temperature := 1, topP := 1, topK := 1, minP := 0 }
  loraPath := none
  finishedReason := none
  toAbort := false
  delayed := 0
  decodedText := ""
  prefixLen := 0
  extendInputLen := 0
  isBeingChunked := 0
  returnLogprob := false
  logprobStartLen := 0
  topLogprobsNum := 0
  hasNormalizedPromptLogprob := false
  cachedTokens := 0
  extendLogprobStartLen := 0
  ppIdx := none

/-- `max_req_len`, from `max_req_input_len = max_req_len - 5`. -/
def Config.maxReqLen (cfg : Config) : Nat := cfg.maxReqInputLen + 5

/-- `PPCounter`: the current micro-batch and the one whose result is processed. -/
structure PPCounter where
  ppSize : Nat
  currentIdx : Int
  processPpIdx : Int
  processPpIdxLast : Int
  deriving DecidableEq

namespace PPCounter

def new (ppSize ppRank : Nat) : PPCounter := ⟨ppSize, -1, ppRank, ppRank - 1⟩

def next (c : PPCounter) : PPCounter :=
  { c with
    currentIdx := (c.currentIdx + 1) % c.ppSize
    processPpIdx := (c.processPpIdx + 1) % c.ppSize
    processPpIdxLast := (c.processPpIdxLast + 1) % c.ppSize }

def get (c : PPCounter) : Nat := c.currentIdx.toNat

def getPp (c : PPCounter) : Nat := c.processPpIdx.toNat

/-- The counter of a rank after its first `steps` calls of `next`. -/
def after (ppSize ppRank : Nat) : Nat → PPCounter
  | 0 => new ppSize ppRank
  | steps + 1 => (after ppSize ppRank steps).next

theorem after_ppSize (ppSize ppRank steps : Nat) :
    (after ppSize ppRank steps).ppSize = ppSize := by
  induction steps with
  | zero => rfl
  | succ steps ih => exact ih

theorem after_currentIdx (ppSize ppRank steps : Nat) :
    (after ppSize ppRank (steps + 1)).currentIdx = (steps : Int) % ppSize := by
  induction steps with
  | zero => simp [after, new, next]
  | succ steps ih =>
    rw [after, next, ih, after_ppSize]
    simp

theorem after_processPpIdx (ppSize ppRank steps : Nat) :
    (after ppSize ppRank (steps + 1)).processPpIdx = ((ppRank + steps + 1 : Nat) : Int) % ppSize := by
  induction steps with
  | zero => simp [after, new, next]
  | succ steps ih =>
    rw [after, next, ih, after_ppSize]
    simp only [Int.emod_add_emod]
    congr 1

theorem after_get (ppSize ppRank steps : Nat) :
    (after ppSize ppRank (steps + 1)).get = steps % ppSize := by
  rw [get, after_currentIdx]
  exact Int.toNat_natCast (steps % ppSize)

theorem after_getPp (ppSize ppRank steps : Nat) :
    (after ppSize ppRank (steps + 1)).getPp = (ppRank + steps + 1) % ppSize := by
  rw [getPp, after_processPpIdx]
  exact Int.toNat_natCast ((ppRank + steps + 1) % ppSize)

end PPCounter

/-- `_last_batch[i]`: nothing, a batch object of its own, or the very object stored
in `_running_batch[i]`. -/
inductive LastBatch
  | idle
  | own (batch : ScheduleBatch)
  | running
  deriving DecidableEq

/-- The per-micro-batch entries of the scheduler's lists. -/
structure Stage where
  runningBatch : Option ScheduleBatch
  lastBatch : LastBatch
  beingChunkedReq : Option Nat
  deriving DecidableEq

/-- `_last_batch[i]` as an optional batch. -/
def Stage.last (stage : Stage) : Option ScheduleBatch :=
  match stage.lastBatch with
  | .idle => none
  | .own batch => some batch
  | .running => stage.runningBatch

/-- Write to the batch object that `_last_batch[i]` refers to. -/
def Stage.modifyLast (stage : Stage) (f : ScheduleBatch → ScheduleBatch) : Stage :=
  match stage.lastBatch with
  | .idle => stage
  | .own batch => { stage with lastBatch := .own (f batch) }
  | .running => { stage with runningBatch := stage.runningBatch.map f }

/-- Bind `_running_batch[i]` to another object; `_last_batch[i]` keeps the old one. -/
def Stage.rebindRunning (stage : Stage) (batch : Option ScheduleBatch) : Stage :=
  match stage.lastBatch, stage.runningBatch with
  | .running, some old => { stage with runningBatch := batch, lastBatch := .own old }
  | .running, none => { stage with runningBatch := batch, lastBatch := .idle }
  | _, _ => { stage with runningBatch := batch }

@[simp] theorem Stage.rebindRunning_runningBatch (stage : Stage) (batch : Option ScheduleBatch) :
    (stage.rebindRunning batch).runningBatch = batch := by
  unfold rebindRunning
  split <;> rfl

@[simp] theorem Stage.rebindRunning_beingChunkedReq (stage : Stage)
    (batch : Option ScheduleBatch) :
    (stage.rebindRunning batch).beingChunkedReq = stage.beingChunkedReq := by
  unfold rebindRunning
  split <;> rfl

/-- The state of one scheduler process over pools of type `M`. Requests are objects
of `heap`; `entries` is the dictionary of `ChunkCache`, from rids to views
`(row, length)`. -/
structure Sched (M : Type) where
  heap : Nat → Req
  nextReq : Nat
  waitingQueue : List Nat
  stages : Nat → Stage
  pendingBatch : Option ScheduleBatch
  entries : Nat → Option (Nat × Nat)
  mem : M
  newTokenRatio : Rat
  batchIsFull : Bool
  availableSize : Int
  chunkedPrefillSize : Option Nat
  maxPrefillTokens : Nat
  rebalanceMetrics : Option (Rat × Nat × Rat)
  curPP : PPCounter
  rng : Nat

/-- The scheduler after `__init__`, at a given pipeline rank. -/
def Sched.init {M : Type} (cfg : Config) (ppRank : Nat) (mem : M) : Sched M where
  heap := fun _ => Req.blank
  nextReq := 0
  waitingQueue := []
  stages := fun _ => ⟨none, .idle, none⟩
  pendingBatch := none
  entries := fun _ => none
  mem := mem
  newTokenRatio := cfg.initNewTokenRatio
  batchIsFull := false
  availableSize := 0
  chunkedPrefillSize := cfg.chunkedPrefillSize
  maxPrefillTokens := cfg.maxPrefillTokens
  rebalanceMetrics := none
  curPP := .new cfg.ppSize ppRank
  rng := 0

namespace Sched

variable {M : Type} [MemoryPools M]

def cur (S : Sched M) : Nat := S.curPP.get

def stage (S : Sched M) : Stage := S.stages S.cur

def setStage (S : Sched M) (stage : Stage) : Sched M :=
  { S with stages := Function.update S.stages S.cur stage }

/-- `self.running_batch = batch`. -/
def setRunningBatch (S : Sched M) (batch : Option ScheduleBatch) : Sched M :=
  S.setStage (S.stage.rebindRunning batch)

def setReq (S : Sched M) (q : Nat) (req : Req) : Sched M :=
  { S with heap := Function.update S.heap q req }

/-- `req_to_token_pool.free(req.req_pool_idx)`. -/
def freeReqSlot (S : Sched M) (q : Nat) : Option (Sched M) := do
  let mem ← MemoryPools.freeReqSlot S.mem q
  pure { S with mem }

/-- `ChunkCache.match_prefix`: the row and the length of the matched view. -/
def matchPrefix (S : Sched M) (rid keyLen : Nat) : Nat × Nat :=
  match S.entries rid with
  | none => (0, 0)
  | some (row, len) => (row, min len keyLen)

/-- `ChunkCache.cache_unfinished_req`. -/
def cacheUnfinishedReq (S : Sched M) (q : Nat) : Option (Sched M) := do
  let view ← MemoryPools.cacheUnfinishedReq S.mem q
  let len := (S.heap q).fillIds.length
  pure { S.setReq q { S.heap q with prefixLen := len } with
    entries := Function.update S.entries (S.heap q).rid (some (view.1, len))
    mem := view.2 }

/-- `ChunkCache.cache_finished_req`. -/
def cacheFinishedReq (S : Sched M) (q : Nat) : Option (Sched M) := do
  let tokenIdLen := (S.heap q).originInputIds.length + (S.heap q).outputIds.length - 1
  let mem ← MemoryPools.cacheFinishedReq S.mem q tokenIdLen
  pure { S with entries := Function.update S.entries (S.heap q).rid none, mem }

/-- `Scheduler.fetch_chunked_prefill`. -/
def fetchChunkedPrefill (cfg : Config) (S : Sched M) : Option (Sched M) :=
  if cfg.ppSize = 1 then some S
  else
    match (S.stages ((S.cur + cfg.ppSize - 1) % cfg.ppSize)).beingChunkedReq with
    | none => some S
    | some q => do
      let S := S.setStage { S.stage with beingChunkedReq := some q }
      let S ← S.cacheUnfinishedReq q
      S.freeReqSlot q

end Sched

end FastPP
