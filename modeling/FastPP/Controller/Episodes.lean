import FastPP.Controller.GreedyLaw
import Mathlib.Data.List.Induction

namespace FastPP

/-- What the scheduler shows to one decision. -/
structure ControllerReading where
  lastBatch : List (Option MeteredBatch)
  availableSize : Nat
  evictableSize : Nat

namespace Controlled

variable {args : ControllerArgs} {S : Controlled} {readings : List ControllerReading} {r : Nat}

def observe (S : Controlled) (reading : ControllerReading) : Controlled :=
  { S with
    lastBatch := reading.lastBatch
    availableSize := reading.availableSize
    evictableSize := reading.evictableSize }

/-- One decision after another. -/
def decideAll (args : ControllerArgs) (S : Controlled) (readings : List ControllerReading) :
    Controlled :=
  readings.foldl (fun S reading => (S.observe reading).decideChunkGreedy args) S

theorem decideAll_snoc (reading : ControllerReading) : S.decideAll args (readings ++ [reading]) =
    ((S.decideAll args readings).observe reading).decideChunkGreedy args := by
  unfold decideAll
  rw [List.foldl_append]
  rfl

/-- The record before and after a decision: kept, made by a decision that lowers the size under
pressure, or removed by one that reaches the recorded size. -/
theorem restore_cases (args : ControllerArgs) (S : Controlled) :
    (S.decideChunkGreedy args).kvPressureChunkRestore = S.kvPressureChunkRestore ∨
    (S.kvPressureChunkRestore = none ∧ S.HasTtft ∧ S.KvPressure args ∧
      (S.decideChunkGreedy args).chunkedPrefillSize < S.chunkedPrefillSize ∧
      (S.decideChunkGreedy args).kvPressureChunkRestore = some S.chunkedPrefillSize) ∨
    ∃ r, S.kvPressureChunkRestore = some r ∧ S.HasTtft ∧
      (S.decideChunkGreedy args).kvPressureChunkRestore = none ∧
      (S.KvPressure args ∧ r ≤ (S.decideChunkGreedy args).chunkedPrefillSize ∨
        ¬ S.KvPressure args ∧ (S.decideChunkGreedy args).chunkedPrefillSize = r) := by
  by_cases httft : S.HasTtft
  · have hsize := decideChunkGreedy_size args httft
    obtain ⟨S₁, hkept, hdecide⟩ := decideChunkGreedy_decides args httft
    have hkept : (S₁.setChunkedPrefillSize (S.decidedChunk args)).kvPressureChunkRestore =
      S.kvPressureChunkRestore := hkept
    rw [hsize, hdecide]
    unfold updateKvPressureRestoreChunk
    by_cases hpressure : S.KvPressure args
    · rw [if_pos hpressure]
      cases hrestore : S.kvPressureChunkRestore with
      | none =>
        rw [hrestore] at hkept
        dsimp only
        by_cases hlower : S.decidedChunk args < S.chunkedPrefillSize
        · rw [if_pos hlower]
          exact .inr (.inl ⟨rfl, httft, hpressure, hlower, rfl⟩)
        · rw [if_neg hlower]
          exact .inl hkept
      | some r =>
        rw [hrestore] at hkept
        dsimp only
        by_cases hreached : r ≤ S.decidedChunk args
        · rw [if_pos hreached]
          exact .inr (.inr ⟨r, rfl, httft, rfl, .inl ⟨hpressure, hreached⟩⟩)
        · rw [if_neg hreached]
          exact .inl hkept
    · rw [if_neg hpressure]
      by_cases hreached : S.kvPressureChunkRestore = some (S.decidedChunk args)
      · rw [if_pos hreached]
        exact .inr (.inr ⟨_, hreached, httft, rfl, .inr ⟨hpressure, rfl⟩⟩)
      · rw [if_neg hreached]
        exact .inl hkept
  · have hothers := (decideChunkGreedy_exits args httft).others
    exact .inl (by rw [hothers])

/-- With a record the latencies decide nothing. -/
theorem decidedChunk_of_restore (h : S.kvPressureChunkRestore = some r) :
    S.decidedChunk args = S.applySafetyGuard
      (if S.KvPressure args then pressureChunk S.runningReqNum else r) S.runningReqNum := by
  unfold decidedChunk greedyChunk
  have hmeasured : S.measured.kvPressureChunkRestore = some r := h
  rw [hmeasured]

/-- Without pressure and guard the recorded size is set again and the record cleared. -/
theorem decideChunkGreedy_restores (h : S.kvPressureChunkRestore = some r) (httft : S.HasTtft)
    (hpressure : ¬ S.KvPressure args) (hguard : ¬ S.GuardFires r) :
    (S.decideChunkGreedy args).chunkedPrefillSize = r ∧
      (S.decideChunkGreedy args).kvPressureChunkRestore = none := by
  have hsize : S.decidedChunk args = r := by
    rw [decidedChunk_of_restore h, if_neg hpressure, applySafetyGuard, if_neg hguard]
  obtain ⟨S₁, _, hdecide⟩ := decideChunkGreedy_decides args httft
  refine ⟨(decideChunkGreedy_size args httft).trans hsize, ?_⟩
  rw [hdecide]
  unfold updateKvPressureRestoreChunk
  rw [if_neg hpressure, if_pos (by rw [h, hsize])]

/-- The record `r` was made when the size was `r`, by a decision under pressure that lowered the
size while there was no record, and it has been there since. -/
def RecordedAt (args : ControllerArgs) (S : Controlled) (readings : List ControllerReading)
    (r : Nat) : Prop :=
  ∃ before reading after, readings = before ++ reading :: after ∧
    (S.decideAll args before).kvPressureChunkRestore = none ∧
    (S.decideAll args before).chunkedPrefillSize = r ∧
    ((S.decideAll args before).observe reading).KvPressure args ∧
    (S.decideAll args (before ++ [reading])).chunkedPrefillSize < r ∧
    ∀ middle, middle <+: after →
      (S.decideAll args (before ++ reading :: middle)).kvPressureChunkRestore = some r

/-- What holds after a history of decisions, and of the next one. -/
structure EpisodesUndone (args : ControllerArgs) (S : Controlled)
    (readings : List ControllerReading) : Prop where
  recorded : ∀ r, (S.decideAll args readings).kvPressureChunkRestore = some r →
    S.RecordedAt args readings r
  restored : ∀ r reading, (S.decideAll args readings).kvPressureChunkRestore = some r →
    ((S.decideAll args readings).observe reading).HasTtft →
    ¬ ((S.decideAll args readings).observe reading).KvPressure args →
    ¬ ((S.decideAll args readings).observe reading).GuardFires r →
    (S.decideAll args (readings ++ [reading])).chunkedPrefillSize = r ∧
      (S.decideAll args (readings ++ [reading])).kvPressureChunkRestore = none
  latencyFree : ∀ r reading, (S.decideAll args readings).kvPressureChunkRestore = some r →
    ((S.decideAll args readings).observe reading).HasTtft →
    let T := (S.decideAll args readings).observe reading
    (S.decideAll args (readings ++ [reading])).chunkedPrefillSize = T.applySafetyGuard
      (if T.KvPressure args then pressureChunk T.runningReqNum else r) T.runningReqNum
  exits : ∀ reading, ¬ ((S.decideAll args readings).observe reading).HasTtft →
    (S.decideAll args (readings ++ [reading])).chunkedPrefillSize =
        (S.decideAll args readings).chunkedPrefillSize ∧
      (S.decideAll args (readings ++ [reading])).kvPressureChunkRestore =
        (S.decideAll args readings).kvPressureChunkRestore
  ended : ∀ r reading, (S.decideAll args readings).kvPressureChunkRestore = some r →
    let T := (S.decideAll args readings).observe reading
    let T' := S.decideAll args (readings ++ [reading])
    T'.kvPressureChunkRestore = some r ∨ T'.kvPressureChunkRestore = none ∧
      (T.KvPressure args ∧ r ≤ T'.chunkedPrefillSize ∨
        ¬ T.KvPressure args ∧ T'.chunkedPrefillSize = r)

/-- By induction on the history: the last decision kept the record or made it. -/
theorem recordedAt_decideAll (hstart : S.kvPressureChunkRestore = none)
    (h : (S.decideAll args readings).kvPressureChunkRestore = some r) :
    S.RecordedAt args readings r := by
  induction readings using List.reverseRecOn with
  | nil => exact absurd (h.symm.trans hstart) (Option.some_ne_none r)
  | append_singleton readings reading ih =>
    have hlast := h
    rw [decideAll_snoc] at hlast
    rcases restore_cases args ((S.decideAll args readings).observe reading) with
      hkept | ⟨hnone, _, hpressure, hlower, hmade⟩ | ⟨_, _, _, hgone, _⟩
    · rw [hkept] at hlast
      obtain ⟨before, first, after, hsplit, hnone, hsize, hpressure, hlower, hsince⟩ := ih hlast
      refine ⟨before, first, after ++ [reading], by rw [hsplit]; simp, hnone, hsize, hpressure,
        hlower, ?_⟩
      intro middle hmiddle
      rcases List.prefix_concat_iff.mp hmiddle with hwhole | hearlier
      · rw [hwhole]
        rw [hsplit, List.append_assoc] at h
        exact h
      · exact hsince middle hearlier
    · rw [hmade] at hlast
      obtain rfl := Option.some.inj hlast
      refine ⟨readings, reading, [], rfl, hnone, rfl, hpressure, ?_, ?_⟩
      · rw [decideAll_snoc]
        exact hlower
      · intro middle hmiddle
        rw [List.prefix_nil.mp hmiddle]
        exact h
    · rw [hgone] at hlast
      exact absurd hlast.symm (Option.some_ne_none r)

/-- Episodes of KV pressure are undone, over every history of greedy decisions. -/
theorem decideAll_episodesUndone (hstart : S.kvPressureChunkRestore = none)
    (readings : List ControllerReading) : EpisodesUndone args S readings where
  recorded r h := recordedAt_decideAll hstart h
  restored r reading h httft hpressure hguard := by
    rw [decideAll_snoc]
    exact decideChunkGreedy_restores h httft hpressure hguard
  latencyFree r reading h httft := by
    rw [decideAll_snoc, decideChunkGreedy_size args httft]
    exact decidedChunk_of_restore h
  exits reading httft := by
    rw [decideAll_snoc]
    have hothers := (decideChunkGreedy_exits args httft).others
    rw [hothers]
    exact ⟨rfl, rfl⟩
  ended r reading h := by
    intro T T'
    have hlast : T' = T.decideChunkGreedy args := decideAll_snoc reading
    have hrecord : T.kvPressureChunkRestore = some r := h
    rcases restore_cases args T with hkept | ⟨hnone, _⟩ | ⟨r', hr', _, hgone, hreached⟩
    · exact .inl (by rw [hlast, hkept, hrecord])
    · exact absurd (hrecord.symm.trans hnone) (Option.some_ne_none r)
    · obtain rfl := Option.some.inj (hrecord.symm.trans hr')
      rw [hlast]
      exact .inr ⟨hgone, hreached⟩

end Controlled

/-- One micro-batch of `count` requests with a ttft sample, and no free memory. -/
def crowded (count : Nat) : ControllerReading := ⟨[some ⟨List.range count, [1], []⟩], 0, 0⟩

theorem decideAll_episodesUndone_crowded : Controlled.EpisodesUndone defaultControllerArgs
    ((crowdedStage 0 [] []).setChunkedPrefillSize 512) [crowded 0, crowded 448, crowded 0] :=
  Controlled.decideAll_episodesUndone rfl _

/-- All three decisions are under pressure and need no guard. The first lowers the size from 512
to 128, the second raises it to 640 and drops the record, the third lowers it and records 640. -/
theorem record_forgets_first_size :
    let S := (crowdedStage 0 [] []).setChunkedPrefillSize 512
    ([[], [crowded 0], [crowded 0, crowded 448], [crowded 0, crowded 448, crowded 0]].map
      fun readings => ((S.decideAll defaultControllerArgs readings).chunkedPrefillSize,
        (S.decideAll defaultControllerArgs readings).kvPressureChunkRestore)) =
      [(512, none), (128, some 512), (640, none), (128, some 640)] ∧
    ∀ count ∈ [0, 448], (S.observe (crowded count)).KvPressure defaultControllerArgs := by
  decide +kernel

end FastPP
