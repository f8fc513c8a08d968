import FastPP.Controller.Alp
import FastPP.Controller.GreedyLaw

namespace FastPP

namespace AlpState

open MeteredBatch

variable {args : AlpArgs} {alp : AlpModel} {curTime : Rat} {S : AlpState} {proposed : Nat}

/-- A multiple of 128 above all counts without the chunked requests is not above some last
batch with its chunked request. -/
def RoundsShort (S : AlpState) : Prop :=
  ∃ k, (∀ n ∈ S.alpRunningReqNum, n < 128 * k) ∧
    ∃ batch ∈ S.lastBatch, ∃ b ∈ batch, 128 * k ≤ b.reqs.length

theorem sampled_lastBatch (S : AlpState) :
    S.sampled.lastBatch = S.lastBatch.map (Option.map drained) := by
  show S.collectBaseMetrics.2.lastBatch = _
  rw [Controlled.collectBaseMetrics_state]

theorem sampled_alpRunningReqNum (S : AlpState) :
    S.sampled.alpRunningReqNum = S.alpRunningReqNum := by
  unfold alpRunningReqNum
  rw [sampled_lastBatch]
  apply List.ext_getElem
  · simp
  · intro i _ _
    rw [List.getElem_mapIdx, List.getElem_mapIdx, List.getElem_map, Option.map_map]
    rfl

theorem sampled_waitingTimes (S : AlpState) (curTime : Rat) :
    S.sampled.waitingTimes curTime = S.waitingTimes curTime := by
  have hchunks : S.sampled.waitingChunks = S.waitingChunks := by
    unfold waitingChunks
    rw [sampled_lastBatch]
    congr 1
    apply List.ext_getElem
    · simp
    · intro i _ _
      rw [List.getElem_mapIdx, List.getElem_mapIdx, List.getElem_map, Option.bind_map]
      rfl
  unfold waitingTimes
  rw [hchunks]
  rfl

/-- The proposal does not read the samples. -/
theorem sampled_proposedChunk (S : AlpState) :
    S.sampled.proposedChunk args alp curTime = S.proposedChunk args alp curTime := by
  have hkv : S.sampled.alpKvFree = S.alpKvFree := by
    unfold alpKvFree
    rw [sampled_alpRunningReqNum]
    unfold sampled
    rw [Controlled.collectBaseMetrics_state]
    rfl
  have hquery : S.sampled.query args alp curTime = S.query args alp curTime := by
    have hcatch : S.sampled.catchUpSpeed args curTime = S.catchUpSpeed args curTime := by
      unfold catchUpSpeed
      rw [sampled_waitingTimes]
    unfold query requiredThroughput
    rw [hcatch, sampled_alpRunningReqNum, sampled_lastBatch, List.length_map]
    rfl
  unfold proposedChunk
  rw [hkv, hquery, sampled_alpRunningReqNum]

/-- The size set is the proposal after the safety guard. -/
theorem decideChunkAlp_size (hempty : S.isEmpty = false)
    (h : S.proposedChunk args alp curTime = some proposed) :
    (S.decideChunkAlp args (some alp) curTime).chunkedPrefillSize =
      S.applySafetyGuard proposed S.alpRunningReqNum := by
  have hproposed : S.sampled.proposedChunk args alp curTime = some proposed :=
    S.sampled_proposedChunk.trans h
  have hguard : S.sampled.applySafetyGuard proposed S.alpRunningReqNum =
      S.applySafetyGuard proposed S.alpRunningReqNum :=
    Controlled.applySafetyGuard_drained S.sampled_lastBatch
  unfold decideChunkAlp
  simp only [hempty, hproposed, Bool.false_eq_true, if_false]
  rw [← hguard, ← S.sampled_alpRunningReqNum]
  rfl

/-- The guard repairs with the counts without the chunked requests, rounded up to the next
multiple of 128, and misses a last batch exactly if that multiple is not above it. -/
theorem decideChunkAlp_above_iff (hempty : S.isEmpty = false)
    (h : S.proposedChunk args alp curTime = some proposed) :
    (∀ batch ∈ S.lastBatch, ∀ b ∈ batch,
      b.reqs.length < (S.decideChunkAlp args (some alp) curTime).chunkedPrefillSize) ↔
    ¬ (S.GuardFires proposed ∧ S.RoundsShort) := by
  rw [decideChunkAlp_size hempty h]
  unfold Controlled.applySafetyGuard
  split
  next hfires =>
    constructor
    · rintro habove ⟨_, k, hcounts, batch, hbatch, b, hb, hle⟩
      have hlt := habove batch hbatch b hb
      obtain ⟨most, hmost⟩ := Option.isSome_iff_exists.mp
        (List.isSome_max?_of_ne_nil (l := S.alpRunningReqNum)
          (fun h => List.ne_nil_of_mem hbatch (by simpa [alpRunningReqNum] using h)))
      have hk := hcounts most (List.max?_eq_some_iff.mp hmost).1
      unfold Controlled.guardSize at hlt
      rw [hmost, Option.getD_some] at hlt
      omega
    · intro hnot batch hbatch b hb
      by_contra hle
      refine hnot ⟨hfires, S.alpRunningReqNum.max?.getD 0 / 128 + 1, ?_, batch, hbatch, b, hb, ?_⟩
      · intro n hn
        have hgt := Controlled.guardSize_gt hn
        unfold Controlled.guardSize at hgt
        omega
      · unfold Controlled.guardSize at hle
        omega
  next hquiet =>
    refine ⟨fun _ hslip => hquiet hslip.1, fun _ batch hbatch b hb => ?_⟩
    by_contra hle
    exact hquiet ⟨batch, hbatch, b, hb, by omega⟩

/-- The chunked request of the micro-batch is at most one of the requests of a last batch. -/
theorem otherReqs_length {b : MeteredBatch} (hnodup : b.reqs.Nodup) (idx : Nat) :
    (S.otherReqs idx b).length ≤ b.reqs.length ∧
      b.reqs.length ≤ (S.otherReqs idx b).length + 1 ∧
      ((S.otherReqs idx b).length < b.reqs.length ↔
        ∃ q ∈ b.reqs, (S.beingChunkedReq[idx]?.join).map (·.identity) = some q) := by
  have hle : (S.otherReqs idx b).length ≤ b.reqs.length := List.length_filter_le _ _
  refine ⟨hle, ?_, ?_⟩
  · cases hchunk : (S.beingChunkedReq[idx]?.join).map (·.identity) with
    | none =>
      have hall : S.otherReqs idx b = b.reqs := by
        apply List.filter_eq_self.mpr
        intro q _
        rw [hchunk]
        rfl
      rw [hall]
      omega
    | some chunk =>
      have herase : S.otherReqs idx b = b.reqs.erase chunk := by
        rw [hnodup.erase_eq_filter]
        apply List.filter_congr
        intro q _
        rw [hchunk]
        by_cases hq : q = chunk
        · simp [hq]
        · simp [hq, Ne.symm hq]
      have := List.le_length_erase (l := b.reqs) (a := chunk)
      rw [herase]
      omega
  · constructor
    · intro hlt
      by_contra hno
      push Not at hno
      have hall : S.otherReqs idx b = b.reqs := by
        apply List.filter_eq_self.mpr
        intro q hq
        exact decide_eq_true (hno q hq)
      rw [hall] at hlt
      omega
    · intro ⟨q, hq, hchunk⟩
      exact List.length_filter_lt_length_iff_exists.mpr ⟨q, hq, by simp [hchunk]⟩

/-- With distinct requests this is so exactly if the largest last batches have a multiple of 128
requests and each of them has the chunked request of its micro-batch. -/
theorem roundsShort_iff (hnodup : ∀ batch ∈ S.lastBatch, ∀ b ∈ batch, b.reqs.Nodup) :
    S.RoundsShort ↔ ∃ k, (∃ batch ∈ S.lastBatch, ∃ b ∈ batch, b.reqs.length = 128 * k) ∧
      ∀ (idx : Nat) (b : MeteredBatch), S.lastBatch[idx]? = some (some b) →
        b.reqs.length < 128 * k ∨ b.reqs.length = 128 * k ∧
          ∃ q ∈ b.reqs, (S.beingChunkedReq[idx]?.join).map (·.identity) = some q := by
  constructor
  · intro ⟨k, hcounts, batch, hbatch, b, hb, hle⟩
    have hothers : ∀ (idx : Nat) (b : MeteredBatch), S.lastBatch[idx]? = some (some b) →
        (S.otherReqs idx b).length < 128 * k := by
      intro idx b hidx
      apply hcounts
      apply List.mem_mapIdx.mpr
      obtain ⟨hlt, hget⟩ := List.getElem?_eq_some_iff.mp hidx
      exact ⟨idx, hlt, by rw [hget]; rfl⟩
    have hnear : ∀ (idx : Nat) (b : MeteredBatch), S.lastBatch[idx]? = some (some b) →
        b.reqs.length < 128 * k ∨ b.reqs.length = 128 * k ∧
          ∃ q ∈ b.reqs, (S.beingChunkedReq[idx]?.join).map (·.identity) = some q := by
      intro idx b hidx
      have hlt := hothers idx b hidx
      obtain ⟨_, hone, hown⟩ := otherReqs_length (S := S)
        (hnodup _ (List.mem_of_getElem? hidx) b rfl) idx
      by_cases hshort : b.reqs.length < 128 * k
      · exact .inl hshort
      · exact .inr ⟨by omega, hown.mp (by omega)⟩
    refine ⟨k, ⟨batch, hbatch, b, hb, ?_⟩, hnear⟩
    obtain rfl : batch = some b := hb
    obtain ⟨idx, hidx⟩ := List.getElem?_of_mem hbatch
    rcases hnear idx b hidx with hlt | ⟨heq, _⟩
    · omega
    · exact heq
  · intro ⟨k, ⟨batch, hbatch, b, hb, hlen⟩, hnear⟩
    refine ⟨k, ?_, batch, hbatch, b, hb, hlen.ge⟩
    have hpos : 0 < 128 * k := by
      obtain rfl : batch = some b := hb
      obtain ⟨idx, hidx⟩ := List.getElem?_of_mem hbatch
      rcases hnear idx b hidx with hlt | ⟨_, q, hq, _⟩
      · omega
      · have := List.length_pos_of_mem hq
        omega
    intro n hn
    obtain ⟨idx, hlt, rfl⟩ := List.mem_mapIdx.mp hn
    cases hget : S.lastBatch[idx] with
    | none => exact hpos
    | some b =>
      have hidx : S.lastBatch[idx]? = some (some b) := List.getElem?_eq_some_iff.mpr ⟨hlt, hget⟩
      obtain ⟨hle, _, hown⟩ := otherReqs_length (S := S)
        (hnodup _ (List.mem_of_getElem? hidx) b rfl) idx
      show (S.otherReqs idx b).length < 128 * k
      rcases hnear idx b hidx with hshort | ⟨heq, hchunk⟩
      · omega
      · have := hown.mpr hchunk
        omega

end AlpState

def defaultAlpArgs : AlpArgs where
  toControllerArgs := defaultControllerArgs
  alpFreshEpsilon := 1 / 4
  alpSloTpotCoeff := 105 / 100
  alpThroughputCoeff := 1
  alpWindowSec := 10
  throughputCoeff_nonneg := by decide

/-- Two micro-batches without free memory: one with `count` requests of which the first is
chunked, and one without a last batch. -/
def chunkedStage (count : Nat) : AlpState where
  toControlled := { crowdedStage 0 [] [] with lastBatch := [some ⟨List.range count, [], []⟩, none] }
  waitingQueue := []
  qpsQueue := []
  beingChunkedReq := [some ⟨0, some 0, 0, 1000, 0, 128⟩, none]
  systemStartTime := 0
  execTimeUpdateSum := 0
  execTimeUpdateCount := 0
  curChunk := none
  nextChunk := none

theorem decideChunkAlp_above_iff_odd : (List.range 130).length < ((chunkedStage 130).decideChunkAlp
    defaultAlpArgs (some ⟨[128], fun _ => none⟩) 1).chunkedPrefillSize := by
  have hproposed : (chunkedStage 130).proposedChunk defaultAlpArgs ⟨[128], fun _ => none⟩ 1 =
    some 128 := by decide +kernel
  apply (AlpState.decideChunkAlp_above_iff (by decide) hproposed).mpr _ _ List.mem_cons_self _ rfl
  rintro ⟨_, k, hcounts, batch, hbatch, b, hb, hle⟩
  have hlt : 129 < 128 * k := hcounts 129 (by decide +kernel)
  have hlen : ∀ batch ∈ (chunkedStage 130).lastBatch, ∀ b ∈ batch, b.reqs.length ≤ 130 := by
    decide +kernel
  have := hlen batch hbatch b hb
  omega

/-- With 128 requests the guard counts 127 of them and sets the size to 128. -/
theorem alp_guard_rounds_short : ((chunkedStage 128).decideChunkAlp defaultAlpArgs
    (some ⟨[128], fun _ => none⟩) 1).chunkedPrefillSize ≤ (List.range 128).length := by
  decide +kernel

end FastPP
