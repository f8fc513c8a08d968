import Mathlib.Algebra.Order.Field.Rat
import Mathlib.Data.Matrix.Basic
import Mathlib.LinearAlgebra.Matrix.Notation

namespace FastPP

/-- `MIN_RELATIVE_ERROR_DENOM`. -/
def minRelativeErrorDenom : Rat := 1 / 1000000000

/-- `MIN_RLS_DENOM`. -/
def minRlsDenom : Rat := 1 / 1000000000000

/-- `INTERFERENCE_BIAS_FEATURE`. -/
def interferenceBiasFeature : Rat := 1 / 10

/-- A scale that can be divided by. -/
abbrev NormScale := { scale : Rat // scale ≠ 0 }

abbrev Features := Fin 4 → Rat

theorem features_neZero : NeZero 4 := ⟨four_ne_zero⟩

/-- A saved state; what is absent keeps its value. -/
structure RuntimeTable where
  runtimeOutlierSkipThreshold : Option Rat
  forgetFactor : Option Rat
  rlsDelta : Option Rat
  ctxNormScale : Option NormScale
  prefillTokNormScale : Option NormScale
  prefixSumNormScale : Option NormScale
  chunkExecTimes : Int → Option Rat
  interferenceTheta : Option (List Rat)
  interferenceCov : Option (List (List Rat))
  interferenceUpdates : Option Nat

/-- `ALPScheduler`. -/
structure AlpScheduler where
  candidateChunks : List Int
  runtimeOutlierSkipThreshold : Rat
  forgetFactor : Rat
  rlsDelta : Rat
  ctxNormScale : NormScale
  prefillTokNormScale : NormScale
  prefixSumNormScale : NormScale
  prefillExecTimeByChunk : Int → Option Rat
  interferenceTheta : Features
  interferenceCov : Matrix (Fin 4) (Fin 4) Rat
  interferenceUpdates : Nat
  runtimeTable : Option RuntimeTable

/-- The arguments of `update_runtime_overhead`. -/
structure OverheadSample where
  observedExecTime : Rat
  runtimeChunkSize : Option Int
  decodeCtxSum : Rat
  prefillSquareSum : Rat
  prefillPrefixProdSum : Rat

namespace AlpScheduler

attribute [local instance] features_neZero

variable (S : AlpScheduler)

/-- `_load_runtime_table_state`. -/
def loadRuntimeTableState (bundle : Option RuntimeTable) : AlpScheduler :=
  match bundle with
  | none => S
  | some bundle =>
    let rlsDelta := bundle.rlsDelta.getD S.rlsDelta
    let loadedCov := bundle.interferenceCov.getD []
    { S with
      runtimeOutlierSkipThreshold :=
        bundle.runtimeOutlierSkipThreshold.getD S.runtimeOutlierSkipThreshold
      forgetFactor := bundle.forgetFactor.getD S.forgetFactor
      rlsDelta
      ctxNormScale := bundle.ctxNormScale.getD S.ctxNormScale
      prefillTokNormScale := bundle.prefillTokNormScale.getD S.prefillTokNormScale
      prefixSumNormScale := bundle.prefixSumNormScale.getD S.prefixSumNormScale
      prefillExecTimeByChunk := fun chunk =>
        if chunk ∈ S.candidateChunks then
          ((bundle.chunkExecTimes chunk).map fun raw => max raw minRelativeErrorDenom).or
            (S.prefillExecTimeByChunk chunk)
        else S.prefillExecTimeByChunk chunk
      interferenceTheta := fun i => (bundle.interferenceTheta.getD []).getD i 0
      interferenceCov := fun i j => (loadedCov[i.val]?.bind fun row => row[j.val]?).getD
        (if i = j then rlsDelta else 0)
      interferenceUpdates := bundle.interferenceUpdates.getD 0 }

/-- `reset_runtime_calibration`. -/
def resetRuntimeCalibration : AlpScheduler :=
  loadRuntimeTableState { S with
    prefillExecTimeByChunk := fun chunk => if chunk ∈ S.candidateChunks then some 0 else none
    interferenceTheta := 0
    interferenceCov := S.rlsDelta • 1
    interferenceUpdates := 0 } S.runtimeTable

/-- `_normalize_interference_features`. -/
def normalizeInterferenceFeatures (decodeCtxSum prefillSquareSum prefillPrefixProdSum : Rat) :
    Features :=
  ![decodeCtxSum / S.ctxNormScale, prefillSquareSum / S.prefillTokNormScale,
    prefillPrefixProdSum / S.prefixSumNormScale, interferenceBiasFeature]

/-- `prefill_exec_time_by_chunk.get(chunk, 0.0)`. -/
def prefillExecTime (chunk : Int) : Rat := (S.prefillExecTimeByChunk chunk).getD 0

/-- `pred_total`. -/
def predTotal (prefillExecTime : Rat) (x : Features) : Rat :=
  prefillExecTime + S.interferenceTheta 0 * x 0 + S.interferenceTheta 1 * x 1 +
    S.interferenceTheta 2 * x 2 + S.interferenceTheta 3 * x 3

/-- `np.clip`. -/
def clip (value low high : Rat) : Rat := min (max value low) high

/-- `update_err`, clipped for an outlier. -/
def updateErr (observed predTotal : Rat) : Rat :=
  let updateErr := observed - predTotal
  let predTotalDenom := max |predTotal| minRelativeErrorDenom
  let relativeError := |updateErr| / predTotalDenom
  if 0 < S.runtimeOutlierSkipThreshold ∧ S.runtimeOutlierSkipThreshold < relativeError then
    let maxDelta := S.runtimeOutlierSkipThreshold * predTotalDenom
    clip updateErr (-maxDelta) maxDelta
  else updateErr

/-- `px0` to `px3`. -/
def px (x : Features) : Features :=
  let p := S.interferenceCov
  ![p 0 0 * x 0 + p 0 1 * x 1 + p 0 2 * x 2 + p 0 3 * x 3,
    p 1 0 * x 0 + p 1 1 * x 1 + p 1 2 * x 2 + p 1 3 * x 3,
    p 2 0 * x 0 + p 2 1 * x 1 + p 2 2 * x 2 + p 2 3 * x 3,
    p 3 0 * x 0 + p 3 1 * x 1 + p 3 2 * x 2 + p 3 3 * x 3]

/-- `gain_denom` before the clamp. -/
def gainDenom (x : Features) : Rat :=
  S.forgetFactor + x 0 * S.px x 0 + x 1 * S.px x 1 + x 2 * S.px x 2 + x 3 * S.px x 3

/-- `gain_denom`. -/
def clampedGainDenom (x : Features) : Rat :=
  if S.gainDenom x < minRlsDenom then minRlsDenom else S.gainDenom x

/-- `g0` to `g3`. -/
def gain (x : Features) : Features :=
  ![S.px x 0 / S.clampedGainDenom x, S.px x 1 / S.clampedGainDenom x,
    S.px x 2 / S.clampedGainDenom x, S.px x 3 / S.clampedGainDenom x]

/-- `xp0` to `xp3`. -/
def xp (x : Features) : Features :=
  let p := S.interferenceCov
  ![x 0 * p 0 0 + x 1 * p 1 0 + x 2 * p 2 0 + x 3 * p 3 0,
    x 0 * p 0 1 + x 1 * p 1 1 + x 2 * p 2 1 + x 3 * p 3 1,
    x 0 * p 0 2 + x 1 * p 1 2 + x 2 * p 2 2 + x 3 * p 3 2,
    x 0 * p 0 3 + x 1 * p 1 3 + x 2 * p 2 3 + x 3 * p 3 3]

/-- The assignments to `interference_theta`, `interference_cov` and `interference_updates`. -/
def learn (x : Features) (updateErr : Rat) : AlpScheduler :=
  let theta := S.interferenceTheta
  let p := S.interferenceCov
  let g := S.gain x
  let xp := S.xp x
  let ff := S.forgetFactor
  { S with
    interferenceTheta := ![theta 0 + g 0 * updateErr, theta 1 + g 1 * updateErr,
      theta 2 + g 2 * updateErr, theta 3 + g 3 * updateErr]
    interferenceCov := !![
      (p 0 0 - g 0 * xp 0) / ff, (p 0 1 - g 0 * xp 1) / ff, (p 0 2 - g 0 * xp 2) / ff,
        (p 0 3 - g 0 * xp 3) / ff;
      (p 1 0 - g 1 * xp 0) / ff, (p 1 1 - g 1 * xp 1) / ff, (p 1 2 - g 1 * xp 2) / ff,
        (p 1 3 - g 1 * xp 3) / ff;
      (p 2 0 - g 2 * xp 0) / ff, (p 2 1 - g 2 * xp 1) / ff, (p 2 2 - g 2 * xp 2) / ff,
        (p 2 3 - g 2 * xp 3) / ff;
      (p 3 0 - g 3 * xp 0) / ff, (p 3 1 - g 3 * xp 1) / ff, (p 3 2 - g 3 * xp 2) / ff,
        (p 3 3 - g 3 * xp 3) / ff]
    interferenceUpdates := S.interferenceUpdates + 1 }

/-- The normalized features of a sample. -/
def features (sample : OverheadSample) : Features :=
  S.normalizeInterferenceFeatures sample.decodeCtxSum sample.prefillSquareSum
    sample.prefillPrefixProdSum

/-- `update_runtime_overhead`. -/
def updateRuntimeOverhead (sample : OverheadSample) : AlpScheduler :=
  match sample.runtimeChunkSize with
  | none => S
  | some chunk =>
    if sample.observedExecTime ≤ 0 then S
    else if S.prefillExecTime chunk ≤ 0 then S
    else S.learn (S.features sample) (S.updateErr sample.observedExecTime
      (S.predTotal (S.prefillExecTime chunk) (S.features sample)))

/-- A sequence of samples. -/
def updateAll (samples : List OverheadSample) : AlpScheduler :=
  samples.foldl updateRuntimeOverhead S

end AlpScheduler

end FastPP
