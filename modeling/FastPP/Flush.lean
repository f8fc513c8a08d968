import FastPP.Holders
import FastPP.Aborts

namespace FastPP

/-- `clear` of a pool in use; the rows keep what was written. -/
def ReqToTokenPool.clearSlots (pool : ReqToTokenPool) : ReqToTokenPool :=
  { pool with freeSlots := List.range pool.size }

/-- `clear` of a pool in use; it does not end a group of frees. -/
def TokenToKVPool.clearSlots (pool : TokenToKVPool) : TokenToKVPool :=
  { pool with freeSlots := List.range' 1 pool.size, freeGroup := [] }

/-- What `flush_cache` writes besides the scheduler's own state: the counters of the chunk
controller, the measured times, the state `α` of the ALP scheduler and `β` of the grammar
backend. -/
structure Controller (α β : Type) where
  stepCount : Nat
  kvPressureChunkRestore : List (String × Option Nat)
  execTimeUpdateSum : Rat
  execTimeUpdateCount : Nat
  alpRuntimeTableWarningLogged : Bool
  tpot : Rat
  ttft : Rat
  alpScheduler : Option α
  qpsQueue : List Nat
  treeCacheMetrics : Rat × Rat
  grammarBackend : Option β
  systemStartTime : Rat

structure FlushArgs (α β : Type) where
  sloTtft : Rat
  resetRuntimeCalibration : α → α
  resetGrammarBackend : β → β

/-- `chunk_controller.reset()`. -/
def Controller.reset {α β : Type} (C : Controller α β) : Controller α β :=
  { C with
    stepCount := 0
    kvPressureChunkRestore := []
    execTimeUpdateSum := 0
    execTimeUpdateCount := 0
    alpRuntimeTableWarningLogged := false }

/-- `self.qps_queue.append(req)` on a queue of at most 10000 requests. -/
def Controller.pushQps {α β : Type} (C : Controller α β) (q : Nat) : Controller α β :=
  { C with qpsQueue := (C.qpsQueue ++ [q]).drop (C.qpsQueue.length + 1 - 10000) }

namespace Sched

variable {α β : Type} {cfg : Config} {args : FlushArgs α β} {S : Sched Memory}
  {C : Controller α β} {now : Rat}

/-- `_set_chunked_prefill_size(chunked_prefill_size_orig)`, if that is set, and the reset of
the rebalance metrics. -/
def resetChunkSize (cfg : Config) (S : Sched Memory) : Sched Memory :=
  let S := match cfg.chunkedPrefillSize with
    | none => S
    | some size =>
      if size = 0 then S else { S with chunkedPrefillSize := some size, maxPrefillTokens := size }
  { S with rebalanceMetrics := none }

/-- The resets of `flush_cache` before its guard. -/
def resetController (cfg : Config) (args : FlushArgs α β) (C : Controller α β) :
    Controller α β :=
  { C.reset with
    tpot := cfg.sloTpot * (1 / 2)
    ttft := args.sloTtft * (1 / 2)
    alpScheduler := C.alpScheduler.map args.resetRuntimeCalibration
    qpsQueue := [] }

/-- The guard of `flush_cache`. -/
def flushable (S : Sched Memory) : Bool :=
  S.waitingQueue.isEmpty && (reqsOf (S.stages 0).runningBatch).isEmpty

/-- `flush_cache` and what it returns; `now` is the reading of the clock at its end. -/
def flushCache (cfg : Config) (args : FlushArgs α β) (now : Rat) (S : Sched Memory)
    (C : Controller α β) : Sched Memory × Controller α β × Bool :=
  let S := S.resetChunkSize cfg
  let C := resetController cfg args C
  if S.flushable then
    ({ S with
        entries := fun _ => none
        mem := { S.mem with
          reqToTokenPool := S.mem.reqToTokenPool.clearSlots
          tokenToKVPool := S.mem.tokenToKVPool.clearSlots } },
      { C with
        treeCacheMetrics := (0, 0)
        grammarBackend := C.grammarBackend.map args.resetGrammarBackend
        systemStartTime := now }, true)
  else (S, { C with systemStartTime := now }, false)

/-- The request has a request slot, or KV slots in its `prefix_indices`. -/
def HoldsSlots (S : Sched Memory) (q : Nat) : Prop :=
  (S.mem.reqPoolIdx q).isSome = true ∨ 0 < (S.heap q).prefixLen

/-- All requests in batches and those recorded as being chunked. -/
def inBatches (cfg : Config) (S : Sched Memory) : List Nat :=
  S.heldElsewhere cfg fun _ => []

/-- After a flush no unfinished request holds a slot, and without one nothing is changed. -/
def FlushSafe (cfg : Config) (args : FlushArgs α β) (now : Rat) (S : Sched Memory)
    (C : Controller α β) : Prop :=
  ((S.flushCache cfg args now C).2.2 = true →
    ∀ q ∈ (S.flushCache cfg args now C).1.inBatches cfg,
      ((S.flushCache cfg args now C).1.heap q).finished = false →
        ¬ (S.flushCache cfg args now C).1.HoldsSlots q) ∧
  ((S.flushCache cfg args now C).2.2 = false →
    (S.flushCache cfg args now C).1 = S ∧ (S.flushCache cfg args now C).2.1 = C)

/-- The state is the one that the resets before the guard and the clock lead to. -/
structure AsReset (cfg : Config) (args : FlushArgs α β) (now : Rat) (S : Sched Memory)
    (C : Controller α β) : Prop where
  chunkSize : ∀ size, cfg.chunkedPrefillSize = some size → size ≠ 0 →
    S.chunkedPrefillSize = some size ∧ S.maxPrefillTokens = size
  rebalanceMetrics : S.rebalanceMetrics = none
  counters : C.stepCount = 0 ∧ C.kvPressureChunkRestore = [] ∧ C.execTimeUpdateSum = 0 ∧
    C.execTimeUpdateCount = 0 ∧ C.alpRuntimeTableWarningLogged = false
  times : C.tpot = cfg.sloTpot * (1 / 2) ∧ C.ttft = args.sloTtft * (1 / 2)
  calibration : C.alpScheduler.map args.resetRuntimeCalibration = C.alpScheduler
  qpsQueue : C.qpsQueue = []
  systemStartTime : C.systemStartTime = now

/-- When the guard passes, the requests in all batches are finished; when it does not, there
is nothing to reset. -/
def FlushClean (cfg : Config) (args : FlushArgs α β) (now : Rat) (S : Sched Memory)
    (C : Controller α β) : Prop :=
  if S.flushable then ∀ q ∈ S.inBatches cfg, (S.heap q).finished = true
  else AsReset cfg args now S C

theorem resetChunkSize_eq (cfg : Config) (S : Sched Memory) : ∃ size tokens,
    S.resetChunkSize cfg = { S with
      chunkedPrefillSize := size, maxPrefillTokens := tokens, rebalanceMetrics := none } := by
  unfold resetChunkSize
  cases cfg.chunkedPrefillSize with
  | none => exact ⟨_, _, rfl⟩
  | some size =>
    by_cases hzero : size = 0
    · simp only [if_pos hzero]
      exact ⟨_, _, rfl⟩
    · simp only [if_neg hzero]
      exact ⟨_, _, rfl⟩

theorem resetChunkSize_flushable : (S.resetChunkSize cfg).flushable = S.flushable := by
  obtain ⟨_, _, heq⟩ := resetChunkSize_eq cfg S
  rw [heq]
  rfl

theorem flushCache_snd : (S.flushCache cfg args now C).2.2 = S.flushable := by
  unfold flushCache
  dsimp only
  rw [resetChunkSize_flushable]
  split
  next h => exact h.symm
  next h => exact (Bool.eq_false_iff.mpr h).symm

/-- A flush leaves the batches and the rows of the requests as they were. -/
theorem flushCache_fst (cfg : Config) (args : FlushArgs α β) (now : Rat) (S : Sched Memory)
    (C : Controller α β) : ∃ size tokens entries reqToTokenPool tokenToKVPool,
    (S.flushCache cfg args now C).1 = { S with
      chunkedPrefillSize := size
      maxPrefillTokens := tokens
      rebalanceMetrics := none
      entries := entries
      mem := { S.mem with reqToTokenPool, tokenToKVPool } } := by
  obtain ⟨size, tokens, heq⟩ := resetChunkSize_eq cfg S
  unfold flushCache
  dsimp only
  split
  next =>
    rw [heq]
    exact ⟨_, _, _, _, _, rfl⟩
  next =>
    rw [heq]
    exact ⟨_, _, _, _, _, rfl⟩

theorem resetChunkSize_self_iff : S.resetChunkSize cfg = S ↔
    (∀ size, cfg.chunkedPrefillSize = some size → size ≠ 0 →
      S.chunkedPrefillSize = some size ∧ S.maxPrefillTokens = size) ∧
    S.rebalanceMetrics = none := by
  obtain ⟨heap, nextReq, waitingQueue, stages, pendingBatch, entries, mem, newTokenRatio,
    batchIsFull, availableSize, chunkedPrefillSize, maxPrefillTokens, rebalanceMetrics, curPP,
    rng⟩ := S
  unfold resetChunkSize
  cases cfg.chunkedPrefillSize with
  | none => simp [eq_comm]
  | some size =>
    by_cases hzero : size = 0
    · simp [hzero, eq_comm]
    · simp [hzero, eq_comm, and_assoc]

theorem resetController_self_iff :
    { resetController cfg args C with systemStartTime := now } = C ↔
      (C.stepCount = 0 ∧ C.kvPressureChunkRestore = [] ∧ C.execTimeUpdateSum = 0 ∧
        C.execTimeUpdateCount = 0 ∧ C.alpRuntimeTableWarningLogged = false) ∧
      (C.tpot = cfg.sloTpot * (1 / 2) ∧ C.ttft = args.sloTtft * (1 / 2)) ∧
      C.alpScheduler.map args.resetRuntimeCalibration = C.alpScheduler ∧ C.qpsQueue = [] ∧
      C.systemStartTime = now := by
  obtain ⟨stepCount, restore, sum, count, logged, tpot, ttft, alp, qps, metrics, grammar, start⟩ := C
  simp only [resetController, Controller.reset, Controller.mk.injEq, true_and]
  constructor
  · rintro ⟨rfl, rfl, rfl, rfl, rfl, rfl, rfl, h, rfl, rfl⟩
    exact ⟨⟨rfl, rfl, rfl, rfl, rfl⟩, ⟨rfl, rfl⟩, h, rfl, rfl⟩
  · rintro ⟨⟨rfl, rfl, rfl, rfl, rfl⟩, ⟨rfl, rfl⟩, h, rfl, rfl⟩
    exact ⟨rfl, rfl, rfl, rfl, rfl, rfl, rfl, h, rfl, rfl⟩

theorem flushCache_unchanged_iff (hguard : S.flushable = false) :
    ((S.flushCache cfg args now C).1 = S ∧ (S.flushCache cfg args now C).2.1 = C) ↔
      AsReset cfg args now S C := by
  have hfst : (S.flushCache cfg args now C).1 = S.resetChunkSize cfg := by
    unfold flushCache
    dsimp only
    rw [if_neg (by rw [resetChunkSize_flushable, hguard]; exact Bool.false_ne_true)]
  have hsnd : (S.flushCache cfg args now C).2.1 =
      { resetController cfg args C with systemStartTime := now } := by
    unfold flushCache
    dsimp only
    rw [if_neg (by rw [resetChunkSize_flushable, hguard]; exact Bool.false_ne_true)]
  rw [hfst, hsnd, resetChunkSize_self_iff, resetController_self_iff]
  constructor
  · rintro ⟨⟨h₁, h₂⟩, h₃, h₄, h₅, h₆, h₇⟩
    exact ⟨h₁, h₂, h₃, h₄, h₅, h₆, h₇⟩
  · rintro ⟨h₁, h₂, h₃, h₄, h₅, h₆, h₇⟩
    exact ⟨⟨h₁, h₂⟩, h₃, h₄, h₅, h₆, h₇⟩

theorem Rowed.inBatches (h : Rowed (fun _ => True) S) {q : Nat} (hq : q ∈ S.inBatches cfg) :
    (S.mem.reqPoolIdx q).isSome = true := by
  rcases List.mem_append.mp hq with hq | hq
  · exact h.pending q hq
  · obtain ⟨j, _, hq⟩ := List.mem_flatMap.mp hq
    rcases List.mem_append.mp hq with hq | hq
    · exact h.running j q hq
    · rcases List.mem_append.mp hq with hq | hq
      · exact h.last j trivial q hq
      · rw [List.append_nil, Option.mem_toList] at hq
        exact h.chunk j q hq

theorem flushSafe_iff (h : Rowed (fun _ => True) S) :
    S.FlushSafe cfg args now C ↔ S.FlushClean cfg args now C := by
  unfold FlushSafe FlushClean
  rw [flushCache_snd]
  cases hguard : S.flushable with
  | false =>
    rw [if_neg Bool.false_ne_true, ← flushCache_unchanged_iff hguard]
    simp
  | true =>
    obtain ⟨_, _, _, _, _, heq⟩ := flushCache_fst cfg args now S C
    rw [heq, if_pos rfl]
    constructor
    · rintro ⟨hsafe, _⟩ q hq
      by_contra hunfinished
      exact hsafe rfl q hq (Bool.eq_false_iff.mpr hunfinished) (.inl (h.inBatches hq))
    · intro hclean
      refine ⟨fun _ q hq hunfinished => ?_, fun e => Bool.noConfusion e⟩
      have hfinished := hclean q hq
      have hunfinished' : (S.heap q).finished = false := hunfinished
      rw [hfinished] at hunfinished'
      cases hunfinished'

end Sched

end FastPP
