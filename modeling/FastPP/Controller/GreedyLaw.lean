import FastPP.Controller.Greedy

namespace FastPP

/-- The entry of `running_req_num` for one micro-batch. -/
def MeteredBatch.size? (batch : Option MeteredBatch) : Nat := (batch.map (·.reqs.length)).getD 0

def MeteredBatch.ttft? (batch : Option MeteredBatch) : List Rat := (batch.map (·.ttft)).getD []

def MeteredBatch.tpot? (batch : Option MeteredBatch) : List Rat := (batch.map (·.tpot)).getD []

/-- The batch after its samples were taken. -/
def MeteredBatch.drained (batch : MeteredBatch) : MeteredBatch :=
  { batch with ttft := [], tpot := [] }

open MeteredBatch

variable {args : ControllerArgs} {S S' : Controlled} {m : BaseMetrics} {idx : Nat}
  {batches : List (Option MeteredBatch)}

namespace BaseMetrics

theorem collect_running (m : BaseMetrics) (idx : Nat) (batches : List (Option MeteredBatch)) :
    (m.collect idx batches).1.runningReqNum = m.runningReqNum ++ batches.map size? := by
  induction batches generalizing m idx with
  | nil => simp [collect]
  | cons batch batches ih =>
    rw [collect, ih]
    cases batch <;> simp [collectBatch, size?]

theorem collect_ttft (m : BaseMetrics) (idx : Nat) (batches : List (Option MeteredBatch)) :
    (m.collect idx batches).1.ttftVals = m.ttftVals ++ batches.flatMap ttft? := by
  induction batches generalizing m idx with
  | nil => simp [collect]
  | cons batch batches ih =>
    rw [collect, ih]
    cases batch <;> simp [collectBatch, ttft?]

theorem collect_tpot (m : BaseMetrics) (idx : Nat) (batches : List (Option MeteredBatch)) :
    (m.collect idx batches).1.tpotVals = m.tpotVals ++ batches.flatMap tpot? := by
  induction batches generalizing m idx with
  | nil => simp [collect]
  | cons batch batches ih =>
    rw [collect, ih]
    cases batch <;> simp [collectBatch, tpot?]

theorem collect_batches (m : BaseMetrics) (idx : Nat) (batches : List (Option MeteredBatch)) :
    (m.collect idx batches).2 = batches.map (Option.map drained) := by
  induction batches generalizing m idx with
  | nil => rfl
  | cons batch batches ih =>
    rw [collect, ih]
    cases batch <;> rfl

/-- `last_idx` is the index of a batch, or nothing was sampled. -/
theorem collect_lastIdx (m : BaseMetrics) (idx : Nat) (batches : List (Option MeteredBatch)) :
    (∃ i batch, (m.collect idx batches).1.lastIdx = some (idx + i) ∧
      batches[i]? = some (some batch)) ∨
      (m.collect idx batches).1.lastIdx = m.lastIdx ∧ batches.flatMap tpot? = [] := by
  induction batches generalizing m idx with
  | nil => exact .inr ⟨rfl, rfl⟩
  | cons batch batches ih =>
    rw [collect]
    rcases ih (m.collectBatch idx batch).1 (idx + 1) with ⟨i, b, hlast, hb⟩ | ⟨hlast, hnone⟩
    · exact .inl ⟨i + 1, b, by rw [hlast]; congr 1; omega, hb⟩
    · rw [hlast]
      cases batch with
      | none => exact .inr ⟨rfl, hnone⟩
      | some b =>
        by_cases hempty : b.tpot = []
        · refine .inr ⟨if_pos hempty, ?_⟩
          rw [List.flatMap_cons, hnone, List.append_nil]
          exact hempty
        · exact .inl ⟨0, b, if_neg hempty, rfl⟩

end BaseMetrics

namespace Controlled

/-- `running_req_num` as a function of the state. -/
def runningReqNum (S : Controlled) : List Nat := S.lastBatch.map size?

/-- `kv_free < kv_free_threshold`. -/
def KvPressure (args : ControllerArgs) (S : Controlled) : Prop :=
  S.kvFree S.runningReqNum < args.kvFreeThreshold

instance : Decidable (S.KvPressure args) := inferInstanceAs (Decidable (_ < _))

/-- Some last batch has a ttft sample. -/
def HasTtft (S : Controlled) : Prop := S.lastBatch.flatMap ttft? ≠ []

/-- Nothing but the samples of the last batches is changed, and no sample is lost. -/
structure OnlyMetricLists (S S' : Controlled) : Prop where
  others : S' = { S with lastBatch := S'.lastBatch }
  reqs : S'.lastBatch.map (Option.map (·.reqs)) = S.lastBatch.map (Option.map (·.reqs))
  ttft : S'.lastBatch.flatMap ttft? = S.lastBatch.flatMap ttft?
  tpot : S'.lastBatch.flatMap tpot? = S.lastBatch.flatMap tpot?

/-- A size reached from `curChunk` by one step of at most `base_chunk`. -/
structure OneStep (args : ControllerArgs) (curChunk nextChunk : Nat) : Prop where
  up : nextChunk ≤ curChunk + args.baseChunk
  down : curChunk ≤ nextChunk + args.baseChunk
  least : args.minChunk ≤ nextChunk
  greatest : nextChunk ≤ args.maxChunk

/-- What a greedy decision does. -/
structure GreedyLaw (args : ControllerArgs) (S S' : Controlled) : Prop where
  above : S.HasTtft → ∀ batch ∈ S.lastBatch, ∀ b ∈ batch, b.reqs.length < S'.chunkedPrefillSize
  pressure : S.HasTtft → S.KvPressure args →
    S.runningReqNum.min?.getD 0 + 64 < S.chunkedPrefillSize / 128 * 128 →
      ∃ nextChunk ≤ S.chunkedPrefillSize,
        S'.chunkedPrefillSize = S.applySafetyGuard nextChunk S.runningReqNum
  latency : S.HasTtft → ¬ S.KvPressure args → S.kvPressureChunkRestore = none →
    ∃ nextChunk, OneStep args S.chunkedPrefillSize nextChunk ∧
      S'.chunkedPrefillSize = S.applySafetyGuard nextChunk S.runningReqNum
  exits : ¬ S.HasTtft → S.OnlyMetricLists S'

theorem guardSize_gt {n : Nat} {counts : List Nat} (h : n ∈ counts) : n < guardSize counts := by
  obtain ⟨most, hmost⟩ := Option.isSome_iff_exists.mp
    (List.isSome_max?_of_ne_nil (List.ne_nil_of_mem h))
  have hle := (List.max?_eq_some_iff.mp hmost).2 n h
  unfold guardSize
  rw [hmost, Option.getD_some]
  omega

/-- Whatever is proposed, the guard returns a size above every last batch. -/
theorem applySafetyGuard_gt (S : Controlled) (nextChunk : Nat) {batch : Option MeteredBatch}
    (hbatch : batch ∈ S.lastBatch) {b : MeteredBatch} (hb : b ∈ batch) :
    b.reqs.length < S.applySafetyGuard nextChunk S.runningReqNum := by
  unfold applySafetyGuard
  split
  next =>
    apply guardSize_gt
    obtain rfl : batch = some b := hb
    exact List.mem_map.mpr ⟨some b, hbatch, rfl⟩
  next hquiet =>
    by_contra hle
    exact hquiet ⟨batch, hbatch, b, hb, by omega⟩

theorem latencyChunk_oneStep (hmin : args.minChunk ≤ S.chunkedPrefillSize)
    (hmax : S.chunkedPrefillSize ≤ args.maxChunk) :
    OneStep args S.chunkedPrefillSize (S.latencyChunk args) := by
  unfold latencyChunk
  dsimp only
  split
  next => constructor <;> omega
  next =>
    split
    next => constructor <;> omega
    next => constructor <;> omega

theorem collectBaseMetrics_running (S : Controlled) :
    S.collectBaseMetrics.1.runningReqNum = S.runningReqNum := BaseMetrics.collect_running _ _ _

theorem collectBaseMetrics_ttft (S : Controlled) :
    S.collectBaseMetrics.1.ttftVals = S.lastBatch.flatMap ttft? := BaseMetrics.collect_ttft _ _ _

theorem collectBaseMetrics_state (S : Controlled) :
    S.collectBaseMetrics.2 = { S with lastBatch := S.lastBatch.map (Option.map drained) } := by
  unfold collectBaseMetrics
  rw [← BaseMetrics.collect_batches]

/-- The guard reads the requests only, which the collection leaves alone. -/
theorem guardFires_drained {nextChunk : Nat}
    (h : S'.lastBatch = S.lastBatch.map (Option.map drained)) :
    S'.GuardFires nextChunk ↔ S.GuardFires nextChunk := by
  unfold GuardFires
  rw [h]
  constructor
  · intro ⟨taken, htaken, b, hb, hle⟩
    obtain ⟨batch, hbatch, rfl⟩ := List.mem_map.mp htaken
    obtain ⟨b₀, hb₀, rfl⟩ := Option.map_eq_some_iff.mp hb
    exact ⟨batch, hbatch, b₀, hb₀, hle⟩
  · intro ⟨batch, hbatch, b, hb, hle⟩
    exact ⟨_, List.mem_map_of_mem hbatch, b.drained, Option.map_eq_some_iff.mpr ⟨b, hb, rfl⟩, hle⟩

theorem applySafetyGuard_drained {nextChunk : Nat} {counts : List Nat}
    (h : S'.lastBatch = S.lastBatch.map (Option.map drained)) :
    S'.applySafetyGuard nextChunk counts = S.applySafetyGuard nextChunk counts := by
  unfold applySafetyGuard
  by_cases hfires : S.GuardFires nextChunk
  · rw [if_pos hfires, if_pos ((guardFires_drained h).mpr hfires)]
  · rw [if_neg hfires, if_neg (mt (guardFires_drained h).mp hfires)]

/-- The state with the metrics updated from the samples. -/
def measured (S : Controlled) : Controlled :=
  { S with
    ttft := mean (S.lastBatch.flatMap ttft?)
    tpot := if S.lastBatch.flatMap tpot? = [] then S.tpot else mean (S.lastBatch.flatMap tpot?) }

/-- The size that a greedy decision sets. -/
def decidedChunk (args : ControllerArgs) (S : Controlled) : Nat :=
  S.applySafetyGuard (S.measured.greedyChunk args (S.KvPressure args) S.runningReqNum)
    S.runningReqNum

/-- With a ttft sample the decision is made: the size, and then the restore entry. -/
theorem decideChunkGreedy_decides (args : ControllerArgs) (h : S.HasTtft) :
    ∃ S₁ : Controlled, S₁.kvPressureChunkRestore = S.kvPressureChunkRestore ∧
      S.decideChunkGreedy args =
        (S₁.setChunkedPrefillSize (S.decidedChunk args)).updateKvPressureRestoreChunk
          (S.KvPressure args) S.chunkedPrefillSize (S.decidedChunk args)
          S.kvPressureChunkRestore := by
  have hrunning := S.collectBaseMetrics_running
  have httft := S.collectBaseMetrics_ttft
  have htpot : S.collectBaseMetrics.1.tpotVals = S.lastBatch.flatMap tpot? :=
    BaseMetrics.collect_tpot _ _ _
  have hstate := S.collectBaseMetrics_state
  unfold decideChunkGreedy
  dsimp only
  rw [httft, if_neg h]
  generalize S.collectBaseMetrics = collected at hrunning httft htpot hstate ⊢
  obtain ⟨⟨_, _, _, _⟩, S₁⟩ := collected
  subst hrunning httft htpot hstate
  refine ⟨{ S.measured with lastBatch := S.lastBatch.map (Option.map drained) }, rfl, ?_⟩
  unfold decideGreedy
  dsimp only
  rw [applySafetyGuard_drained (S := S) rfl]
  rfl

theorem updateKvPressureRestoreChunk_size (S : Controlled) (active : Prop) [Decidable active]
    (cur applied : Nat) (restore : Option Nat) :
    (S.updateKvPressureRestoreChunk active cur applied restore).chunkedPrefillSize =
      S.chunkedPrefillSize := by
  unfold updateKvPressureRestoreChunk
  split
  next => cases restore <;> (dsimp only; split <;> rfl)
  next => split <;> rfl

theorem decideChunkGreedy_size (args : ControllerArgs) (h : S.HasTtft) :
    (S.decideChunkGreedy args).chunkedPrefillSize = S.decidedChunk args := by
  obtain ⟨S₁, _, hdecide⟩ := decideChunkGreedy_decides args h
  rw [hdecide, updateKvPressureRestoreChunk_size]
  rfl

/-- Nothing is left in the batches that the samples were taken off. -/
theorem flatMap_drained {f : Option MeteredBatch → List Rat}
    (h : ∀ batch, f (Option.map drained batch) = []) (batches : List (Option MeteredBatch)) :
    (batches.map (Option.map drained)).flatMap f = [] := by
  apply List.flatMap_eq_nil_iff.mpr
  intro taken htaken
  obtain ⟨batch, _, rfl⟩ := List.mem_map.mp htaken
  exact h batch

theorem ttft?_drained (batch : Option MeteredBatch) : ttft? (batch.map drained) = [] := by
  cases batch <;> rfl

theorem tpot?_drained (batch : Option MeteredBatch) : tpot? (batch.map drained) = [] := by
  cases batch <;> rfl

theorem reqs_drained (batches : List (Option MeteredBatch)) :
    (batches.map (Option.map drained)).map (Option.map (·.reqs)) =
      batches.map (Option.map (·.reqs)) := by
  rw [List.map_map]
  apply List.map_congr_left
  intro batch _
  cases batch <;> rfl

/-- One of those batches can hold all samples. -/
theorem flatMap_tpot_modify {i : Nat} {batch : MeteredBatch} {vals : List Rat}
    (h : batches[i]? = some (some batch)) :
    ((batches.map (Option.map drained)).modify i
      (Option.map fun b => { b with tpot := vals })).flatMap tpot? = vals := by
  induction batches generalizing i with
  | nil => simp at h
  | cons first batches ih =>
    cases i with
    | zero =>
      obtain rfl : first = some batch := Option.some.inj h
      show vals ++ (batches.map (Option.map drained)).flatMap tpot? = vals
      rw [flatMap_drained tpot?_drained, List.append_nil]
    | succ i =>
      show tpot? (first.map drained) ++ _ = _
      rw [tpot?_drained]
      exact ih h

theorem map_modify_same {α β : Type} (f : α → β) {g : α → α} (h : ∀ a, f (g a) = f a)
    (xs : List α) (i : Nat) : (xs.modify i g).map f = xs.map f := by
  induction xs generalizing i with
  | nil => simp
  | cons x xs ih =>
    cases i with
    | zero => simp [h]
    | succ i => simp [ih]

/-- Without a ttft sample only the metric lists are touched. -/
theorem decideChunkGreedy_exits (args : ControllerArgs) (h : ¬ S.HasTtft) :
    S.OnlyMetricLists (S.decideChunkGreedy args) := by
  have httft := S.collectBaseMetrics_ttft
  have htpot : S.collectBaseMetrics.1.tpotVals = S.lastBatch.flatMap tpot? :=
    BaseMetrics.collect_tpot _ _ _
  have hnone : S.lastBatch.flatMap ttft? = [] := not_not.mp h
  have hlast := BaseMetrics.collect_lastIdx ⟨[], [], [], none⟩ 0 S.lastBatch
  have hstate := S.collectBaseMetrics_state
  unfold decideChunkGreedy
  dsimp only
  rw [httft, if_pos hnone, hstate]
  unfold putBack
  rw [htpot]
  rcases hlast with ⟨i, batch, hlast, hbatch⟩ | ⟨hlast, hempty⟩
  · rw [show S.collectBaseMetrics.1.lastIdx = some (0 + i) from hlast, Nat.zero_add]
    refine ⟨rfl, ?_, ?_, flatMap_tpot_modify hbatch⟩
    · dsimp only
      rw [map_modify_same _ (by intro b; cases b <;> rfl), reqs_drained]
    · dsimp only
      rw [List.flatMap_def, map_modify_same _ (by intro b; cases b <;> rfl), ← List.flatMap_def,
        flatMap_drained ttft?_drained, hnone]
  · rw [show S.collectBaseMetrics.1.lastIdx = none from hlast]
    refine ⟨rfl, reqs_drained _, ?_, ?_⟩
    · rw [hnone]
      exact flatMap_drained ttft?_drained _
    · rw [hempty]
      exact flatMap_drained tpot?_drained _

/-- When the size for KV pressure lowers a size, or keeps it. -/
theorem pressureChunk_le_iff {counts : List Nat} {size : Nat} :
    pressureChunk counts ≤ size ↔ counts.min?.getD 0 + 64 < size / 128 * 128 := by
  unfold pressureChunk
  omega

/-- What a greedy decision does, for every state and all metrics. -/
theorem decideChunkGreedy_law (hmin : args.minChunk ≤ S.chunkedPrefillSize)
    (hmax : S.chunkedPrefillSize ≤ args.maxChunk) :
    GreedyLaw args S (S.decideChunkGreedy args) where
  above h batch hbatch b hb := by
    rw [decideChunkGreedy_size args h]
    exact S.applySafetyGuard_gt _ hbatch hb
  pressure h hpressure hleast := by
    refine ⟨pressureChunk S.runningReqNum, pressureChunk_le_iff.mpr hleast, ?_⟩
    rw [decideChunkGreedy_size args h]
    unfold decidedChunk greedyChunk
    rw [if_pos hpressure]
  latency h hpressure hrestore := by
    refine ⟨S.measured.latencyChunk args, latencyChunk_oneStep (S := S.measured) hmin hmax, ?_⟩
    rw [decideChunkGreedy_size args h]
    unfold decidedChunk greedyChunk
    rw [if_neg hpressure]
    have hmeasured : S.measured.kvPressureChunkRestore = none := hrestore
    rw [hmeasured]
  exits h := decideChunkGreedy_exits args h

end Controlled

/-- The defaults of `ServerArgs`, with targets of one second. -/
def defaultControllerArgs : ControllerArgs where
  sloTtft := 1
  sloTpot := 1
  baseChunk := 128
  maxChunk := 2048
  minChunk := 128
  kvFreeThreshold := 1 / 10
  tpotViolationRatio := 108 / 100
  ttftLowRatio := 1 / 10
  ttftHighRatio := 3 / 10
  tpotSafeRatio := 85 / 100

/-- One micro-batch of `count` requests, no free memory, and the smallest chunk size. -/
def crowdedStage (count : Nat) (ttft tpot : List Rat) : Controlled where
  lastBatch := [some ⟨List.range count, ttft, tpot⟩]
  availableSize := 0
  evictableSize := 0
  maxTotalNumTokens := 1000
  ttft := 1 / 2
  tpot := 1 / 2
  chunkedPrefillSize := 128
  maxPrefillTokens := 128
  kvPressureChunkRestore := none

theorem decideChunkGreedy_law_full :
    Controlled.GreedyLaw defaultControllerArgs ((crowdedStage 64 [1] []).setChunkedPrefillSize 512)
      (((crowdedStage 64 [1] []).setChunkedPrefillSize 512).decideChunkGreedy
        defaultControllerArgs) :=
  Controlled.decideChunkGreedy_law (by decide) (by decide)

/-- Under pressure 64 running requests raise the size from 128 to 256, with no need for the guard;
and without a ttft sample 128 stays below 200 running requests. -/
theorem greedy_raises_and_stays :
    ((crowdedStage 64 [1] []).KvPressure defaultControllerArgs ∧
      ¬ (crowdedStage 64 [1] []).GuardFires (Controlled.pressureChunk [64]) ∧
      ((crowdedStage 64 [1] []).decideChunkGreedy defaultControllerArgs).chunkedPrefillSize = 256) ∧
    ((crowdedStage 200 [] [1]).decideChunkGreedy defaultControllerArgs).chunkedPrefillSize ≤
      (List.range 200).length := by
  decide +kernel

end FastPP
