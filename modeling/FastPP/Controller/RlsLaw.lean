import FastPP.Controller.AlpScheduler
import FastPP.Lib.LeastSquares
import Mathlib.Data.Rat.Star

namespace FastPP

open Matrix LeastSquares

namespace AlpScheduler

variable {S : AlpScheduler} {x : Features} {err : Rat}

theorem px_eq (S : AlpScheduler) (x : Features) : S.px x = S.interferenceCov *ᵥ x := by
  ext i
  fin_cases i <;> simp [px, mulVec, dotProduct, Fin.sum_univ_four]

theorem xp_eq (S : AlpScheduler) (x : Features) : S.xp x = x ᵥ* S.interferenceCov := by
  ext i
  fin_cases i <;> simp [xp, vecMul, dotProduct, Fin.sum_univ_four]

theorem gainDenom_eq (S : AlpScheduler) (x : Features) :
    S.gainDenom x = S.forgetFactor + x ⬝ᵥ S.interferenceCov *ᵥ x := by
  rw [gainDenom, px_eq, dotProduct, Fin.sum_univ_four]
  ring

theorem predTotal_eq (S : AlpScheduler) (prefillExecTime : Rat) (x : Features) :
    S.predTotal prefillExecTime x = prefillExecTime + x ⬝ᵥ S.interferenceTheta := by
  rw [predTotal, dotProduct, Fin.sum_univ_four]
  ring

theorem gain_eq (S : AlpScheduler) (x : Features) :
    S.gain x = (S.clampedGainDenom x)⁻¹ • (S.interferenceCov *ᵥ x) := by
  ext i
  fin_cases i <;> simp [gain, px_eq, div_eq_inv_mul]

/-- The four assignments to `theta` are one step along the gain. -/
theorem learn_theta (S : AlpScheduler) (x : Features) (err : Rat) :
    (S.learn x err).interferenceTheta = S.interferenceTheta + err • S.gain x := by
  have hentry : ∀ i, (S.learn x err).interferenceTheta i =
      S.interferenceTheta i + S.gain x i * err := by
    intro i
    fin_cases i <;> rfl
  ext i
  rw [hentry, Pi.add_apply, Pi.smul_apply, smul_eq_mul, mul_comm]

/-- The sixteen assignments to the covariance are a rank-one update. -/
theorem learn_cov (S : AlpScheduler) (x : Features) (err : Rat) :
    (S.learn x err).interferenceCov = S.forgetFactor⁻¹ • (S.interferenceCov -
      (S.clampedGainDenom x)⁻¹ • vecMulVec (S.interferenceCov *ᵥ x) (x ᵥ* S.interferenceCov)) := by
  have hentry : ∀ i j, (S.learn x err).interferenceCov i j =
      (S.interferenceCov i j - S.gain x i * S.xp x j) / S.forgetFactor := by
    intro i j
    fin_cases i <;> fin_cases j <;> rfl
  ext i j
  rw [hentry, gain_eq, xp_eq, Matrix.smul_apply, Matrix.sub_apply, Matrix.smul_apply,
    vecMulVec_apply, Pi.smul_apply, smul_eq_mul, smul_eq_mul, smul_eq_mul, div_eq_inv_mul, mul_assoc]

/-- The denominator of the gain, before the clamp and after it. -/
theorem forgetFactor_le_gainDenom (hP : S.interferenceCov.PosDef) (x : Features) :
    S.forgetFactor ≤ S.gainDenom x := by
  rw [gainDenom_eq]
  exact le_add_of_nonneg_right (quadratic_nonneg hP x)

theorem lt_clampedGainDenom (hff : 0 < S.forgetFactor) (x : Features) :
    x ⬝ᵥ S.interferenceCov *ᵥ x < S.clampedGainDenom x := by
  have hdenom := gainDenom_eq S x
  unfold clampedGainDenom
  split
  next hclamp => linarith
  next => linarith

/-- Every update keeps the covariance symmetric and positive definite, also with the clamp. -/
theorem learn_posDef (hff : 0 < S.forgetFactor) (hP : S.interferenceCov.PosDef) (x : Features)
    (err : Rat) : (S.learn x err).interferenceCov.PosDef := by
  rw [learn_cov]
  exact (posDef_sub_rankOne hP (lt_clampedGainDenom hff x)).smul (inv_pos.mpr hff)

/-- Without the clamp the inverse is that of recursive least squares. -/
theorem learn_inv (hff : 0 < S.forgetFactor) (hP : S.interferenceCov.PosDef)
    (hclamp : ¬ S.gainDenom x < minRlsDenom) :
    (S.learn x err).interferenceCov⁻¹ =
      S.forgetFactor • S.interferenceCov⁻¹ + vecMulVec x x := by
  have hdenom : S.clampedGainDenom x = S.gainDenom x := if_neg hclamp
  have hpos : 0 < S.gainDenom x := lt_of_lt_of_le hff (forgetFactor_le_gainDenom hP x)
  rw [learn_cov, hdenom]
  refine inv_eq_right_inv ?_
  rw [smul_mul, ← Matrix.mul_smul, smul_add, smul_smul, inv_mul_cancel₀ hff.ne', one_smul]
  exact sub_rankOne_mul hP hff.ne' hpos.ne' (gainDenom_eq S x)

/-- The gain solves the new normal equations. -/
theorem gain_solves (hff : 0 < S.forgetFactor) (hP : S.interferenceCov.PosDef)
    (hclamp : ¬ S.gainDenom x < minRlsDenom) :
    (S.forgetFactor • S.interferenceCov⁻¹ + vecMulVec x x) *ᵥ S.gain x = x := by
  have hdenom : S.clampedGainDenom x = S.gainDenom x := if_neg hclamp
  have hpos : 0 < S.gainDenom x := lt_of_lt_of_le hff (forgetFactor_le_gainDenom hP x)
  have hunit : IsUnit S.interferenceCov.det :=
    (isUnit_iff_isUnit_det S.interferenceCov).mp hP.isUnit
  rw [gain_eq, hdenom, mulVec_smul, add_mulVec, smul_mulVec, mulVec_mulVec,
    nonsing_inv_mul _ hunit, one_mulVec, vecMulVec_mulVec, op_smul_eq_smul, ← add_smul,
    ← gainDenom_eq, smul_smul, inv_mul_cancel₀ hpos.ne', one_smul]

end AlpScheduler

namespace AlpScheduler

variable {S R : AlpScheduler} {sample : OverheadSample} {samples : List OverheadSample}

/-- `prefill_exec_time` of a sample. -/
def samplePrefillTime (S : AlpScheduler) (sample : OverheadSample) : Rat :=
  match sample.runtimeChunkSize with
  | none => 0
  | some chunk => S.prefillExecTime chunk

/-- A sample that is learned from: one of a chunk, with positive times. -/
def Accepts (S : AlpScheduler) (sample : OverheadSample) : Prop :=
  sample.runtimeChunkSize ≠ none ∧ 0 < sample.observedExecTime ∧ 0 < S.samplePrefillTime sample

instance (S : AlpScheduler) (sample : OverheadSample) : Decidable (S.Accepts sample) :=
  inferInstanceAs (Decidable (_ ∧ _ ∧ _))

/-- `pred_total` of a sample. -/
def prediction (S : AlpScheduler) (sample : OverheadSample) : Rat :=
  S.predTotal (S.samplePrefillTime sample) (S.features sample)

/-- The relative error of the sample exceeds the threshold. -/
def Clips (S : AlpScheduler) (sample : OverheadSample) : Prop :=
  S.Accepts sample ∧ 0 < S.runtimeOutlierSkipThreshold ∧
    S.runtimeOutlierSkipThreshold < |sample.observedExecTime - S.prediction sample| /
      max |S.prediction sample| minRelativeErrorDenom

/-- The denominator of the gain is below `MIN_RLS_DENOM`. -/
def Clamps (S : AlpScheduler) (sample : OverheadSample) : Prop :=
  S.Accepts sample ∧ S.gainDenom (S.features sample) < minRlsDenom

/-- The features of an accepted sample, and the time they are to explain. -/
def datum (S : AlpScheduler) (sample : OverheadSample) : Option (Features × Rat) :=
  if S.Accepts sample then
    some (S.features sample, sample.observedExecTime - S.samplePrefillTime sample)
  else none

/-- The weighted squared error over a sequence of samples, and the regularizer of the start. -/
noncomputable def cost (S : AlpScheduler) (samples : List OverheadSample) (theta : Features) : Rat :=
  regularizedCost S.forgetFactor S.interferenceCov⁻¹ S.interferenceTheta (samples.filterMap S.datum)
    theta

/-- No sample of the sequence is clipped, and the clamp does not fire at one. -/
def PlainRun (S : AlpScheduler) (samples : List OverheadSample) : Prop :=
  ∀ before sample after, samples = before ++ sample :: after →
    ¬ (S.updateAll before).Clips sample ∧ ¬ (S.updateAll before).Clamps sample

/-- What recursive least squares are after a sequence of samples. -/
structure RecursiveLeastSquares (S : AlpScheduler) (samples : List OverheadSample)
    (R : AlpScheduler) : Prop where
  symm : R.interferenceCov.IsSymm
  posDef : R.interferenceCov.PosDef
  gainDenom : ∀ sample, S.forgetFactor ≤ R.gainDenom (R.features sample)
  unclamped : minRlsDenom ≤ S.forgetFactor → ∀ sample, ¬ R.Clamps sample
  inverse : ∀ sample, R.Accepts sample → ¬ R.Clamps sample →
    (R.updateRuntimeOverhead sample).interferenceCov⁻¹ =
      S.forgetFactor • R.interferenceCov⁻¹ + vecMulVec (R.features sample) (R.features sample)
  minimum : S.PlainRun samples → ∀ theta, theta ≠ R.interferenceTheta →
    S.cost samples R.interferenceTheta < S.cost samples theta
  clipped : ∀ sample, R.Clips sample → ∃ err,
    (R.updateRuntimeOverhead sample).interferenceTheta =
        R.interferenceTheta + err • R.gain (R.features sample) ∧
      |err| = R.runtimeOutlierSkipThreshold * max |R.prediction sample| minRelativeErrorDenom ∧
      (0 < err ↔ 0 < sample.observedExecTime - R.prediction sample)
  skipped : ∀ sample, ¬ R.Accepts sample → R.updateRuntimeOverhead sample = R

/-- An accepted sample is learned from, the others change nothing. -/
theorem updateRuntimeOverhead_accepted (h : S.Accepts sample) :
    S.updateRuntimeOverhead sample = S.learn (S.features sample)
      (S.updateErr sample.observedExecTime (S.prediction sample)) := by
  obtain ⟨hchunk, hobserved, hprefill⟩ := h
  obtain ⟨chunk, hsome⟩ := Option.ne_none_iff_exists'.mp hchunk
  have htime : S.samplePrefillTime sample = S.prefillExecTime chunk := by
    unfold samplePrefillTime
    rw [hsome]
  rw [htime] at hprefill
  unfold updateRuntimeOverhead prediction
  simp only [hsome, htime]
  rw [if_neg (not_le.mpr hobserved), if_neg (not_le.mpr hprefill)]

theorem updateRuntimeOverhead_skipped (h : ¬ S.Accepts sample) :
    S.updateRuntimeOverhead sample = S := by
  unfold updateRuntimeOverhead
  cases hsome : sample.runtimeChunkSize with
  | none => rfl
  | some chunk =>
    show (if sample.observedExecTime ≤ 0 then S else _) = S
    split
    next => rfl
    next hobserved =>
      split
      next => rfl
      next hprefill =>
        refine absurd ⟨?_, not_le.mp hobserved, ?_⟩ h
        · rw [hsome]
          exact Option.some_ne_none chunk
        · unfold samplePrefillTime
          rw [hsome]
          exact not_le.mp hprefill

/-- The error of a sample that is not clipped. -/
theorem updateErr_unclipped (ha : S.Accepts sample) (h : ¬ S.Clips sample) :
    S.updateErr sample.observedExecTime (S.prediction sample) =
      sample.observedExecTime - S.prediction sample :=
  if_neg fun hclip => h ⟨ha, hclip⟩

/-- The error of a clipped sample has the size of the threshold and keeps its sign. -/
theorem updateErr_clipped (h : S.Clips sample) :
    |S.updateErr sample.observedExecTime (S.prediction sample)| =
        S.runtimeOutlierSkipThreshold * max |S.prediction sample| minRelativeErrorDenom ∧
      (0 < S.updateErr sample.observedExecTime (S.prediction sample) ↔
        0 < sample.observedExecTime - S.prediction sample) := by
  obtain ⟨_, hthreshold, hover⟩ := h
  have herr : S.updateErr sample.observedExecTime (S.prediction sample) =
      clip (sample.observedExecTime - S.prediction sample)
        (-(S.runtimeOutlierSkipThreshold * max |S.prediction sample| minRelativeErrorDenom))
        (S.runtimeOutlierSkipThreshold * max |S.prediction sample| minRelativeErrorDenom) :=
    if_pos ⟨hthreshold, hover⟩
  have hdenom : 0 < max |S.prediction sample| minRelativeErrorDenom :=
    lt_max_of_lt_right (by norm_num [minRelativeErrorDenom])
  rw [lt_div_iff₀ hdenom] at hover
  have hdelta := mul_pos hthreshold hdenom
  rw [herr]
  generalize S.runtimeOutlierSkipThreshold * max |S.prediction sample| minRelativeErrorDenom =
    delta at hover hdelta ⊢
  generalize sample.observedExecTime - S.prediction sample = e at hover ⊢
  unfold clip
  rcases lt_abs.mp hover with hpos | hneg
  · rw [max_eq_left (by linarith), min_eq_right hpos.le, abs_of_pos hdelta]
    exact ⟨rfl, fun _ => hdelta.trans hpos, fun _ => hdelta⟩
  · rw [max_eq_right (by linarith), min_eq_left (by linarith), abs_neg, abs_of_pos hdelta]
    exact ⟨rfl, fun h => by linarith, fun h => by linarith⟩

end AlpScheduler

end FastPP

namespace FastPP

open Matrix LeastSquares

namespace AlpScheduler

variable {S : AlpScheduler} {sample : OverheadSample} {samples : List OverheadSample}

theorem updateAll_snoc (S : AlpScheduler) (samples : List OverheadSample)
    (sample : OverheadSample) : S.updateAll (samples ++ [sample]) =
      (S.updateAll samples).updateRuntimeOverhead sample :=
  List.foldl_append

/-- Learning changes neither the forget factor nor how samples are read. -/
theorem updateRuntimeOverhead_settings (S : AlpScheduler) (sample : OverheadSample) :
    (S.updateRuntimeOverhead sample).forgetFactor = S.forgetFactor ∧
      (S.updateRuntimeOverhead sample).datum = S.datum := by
  by_cases h : S.Accepts sample
  · rw [updateRuntimeOverhead_accepted h]
    exact ⟨rfl, rfl⟩
  · rw [updateRuntimeOverhead_skipped h]
    exact ⟨rfl, rfl⟩

theorem updateAll_settings (S : AlpScheduler) (samples : List OverheadSample) :
    (S.updateAll samples).forgetFactor = S.forgetFactor ∧
      (S.updateAll samples).datum = S.datum := by
  induction samples using List.reverseRecOn with
  | nil => exact ⟨rfl, rfl⟩
  | append_singleton samples sample ih =>
    obtain ⟨hff, hdatum⟩ := updateRuntimeOverhead_settings (S.updateAll samples) sample
    rw [updateAll_snoc]
    exact ⟨hff.trans ih.1, hdatum.trans ih.2⟩

/-- The covariance stays positive definite over every sequence of samples. -/
theorem updateAll_posDef (hff : 0 < S.forgetFactor) (hP : S.interferenceCov.PosDef)
    (samples : List OverheadSample) : (S.updateAll samples).interferenceCov.PosDef := by
  induction samples using List.reverseRecOn with
  | nil => exact hP
  | append_singleton samples sample ih =>
    rw [updateAll_snoc]
    by_cases h : (S.updateAll samples).Accepts sample
    · rw [updateRuntimeOverhead_accepted h]
      exact learn_posDef ((updateAll_settings S samples).1.symm ▸ hff) ih _ _
    · rw [updateRuntimeOverhead_skipped h]
      exact ih

theorem datum_accepted (h : S.Accepts sample) : S.datum sample =
    some (S.features sample, sample.observedExecTime - S.samplePrefillTime sample) := if_pos h

/-- After a sequence without clipped samples and without the clamp the cost has its vertex at
`theta`, and the inverse of the covariance as its quadratic part. -/
theorem updateAll_vertexAt (hff : 0 < S.forgetFactor) (hP : S.interferenceCov.PosDef)
    (hplain : S.PlainRun samples) : VertexAt (S.updateAll samples).interferenceCov⁻¹
      (S.updateAll samples).interferenceTheta (S.cost samples) := by
  induction samples using List.reverseRecOn with
  | nil => exact vertexAt_start _ _ _
  | append_singleton samples sample ih =>
    obtain ⟨hclip, hclamp⟩ := hplain samples sample [] rfl
    have ih := ih fun before other after heq =>
      hplain before other (after ++ [sample]) (by rw [heq]; exact List.append_assoc _ _ _)
    have hPR := updateAll_posDef hff hP samples
    obtain ⟨hffR, hdatumR⟩ := updateAll_settings S samples
    have hffR' : 0 < (S.updateAll samples).forgetFactor := hffR.symm ▸ hff
    rw [updateAll_snoc]
    unfold cost
    rw [List.filterMap_append]
    unfold cost at ih
    rw [← hdatumR, ← hffR] at ih ⊢
    generalize S.updateAll samples = R at hclip hclamp ih hPR hffR'
    by_cases ha : R.Accepts sample
    · have hdenom : ¬ R.gainDenom (R.features sample) < minRlsDenom := fun h => hclamp ⟨ha, h⟩
      have herr : R.updateErr sample.observedExecTime (R.prediction sample) =
          sample.observedExecTime - R.samplePrefillTime sample -
            R.features sample ⬝ᵥ R.interferenceTheta := by
        rw [updateErr_unclipped ha hclip, prediction, predTotal_eq]
        ring
      rw [updateRuntimeOverhead_accepted ha, learn_inv hffR' hPR hdenom, learn_theta, herr,
        List.filterMap_cons_some (datum_accepted ha), List.filterMap_nil, regularizedCost_snoc]
      exact ih.step (isSymm_of_posDef hPR.inv) (gain_solves hffR' hPR hdenom)
    · have hnone : R.datum sample = none := if_neg ha
      rw [updateRuntimeOverhead_skipped ha, List.filterMap_cons_none hnone, List.filterMap_nil,
        List.append_nil]
      exact ih

/-- Online learning is recursive least squares: for every positive forget factor and start
covariance, over every sequence of samples. -/
theorem updateAll_recursiveLeastSquares (hff : 0 < S.forgetFactor) {delta : Rat}
    (hdelta : 0 < delta) (hstart : S.interferenceCov = delta • 1)
    (samples : List OverheadSample) :
    S.RecursiveLeastSquares samples (S.updateAll samples) := by
  have hP : S.interferenceCov.PosDef := by
    rw [hstart]
    exact PosDef.one.smul hdelta
  have hPR := updateAll_posDef hff hP samples
  obtain ⟨hffR, _⟩ := updateAll_settings S samples
  have hgain : ∀ x, S.forgetFactor ≤ (S.updateAll samples).gainDenom x :=
    fun x => hffR ▸ forgetFactor_le_gainDenom hPR x
  exact {
    symm := isSymm_of_posDef hPR
    posDef := hPR
    gainDenom := fun sample => hgain _
    unclamped := fun hmin sample hclamp => absurd hclamp.2 (not_lt.mpr (hmin.trans (hgain _)))
    inverse := by
      intro sample ha hclamp
      rw [updateRuntimeOverhead_accepted ha, ← hffR]
      exact learn_inv (hffR.symm ▸ hff) hPR fun h => hclamp ⟨ha, h⟩
    minimum := fun hplain theta hne => (updateAll_vertexAt hff hP hplain).lt hPR.inv hne
    clipped := by
      intro sample hclip
      obtain ⟨hsize, hsign⟩ := updateErr_clipped hclip
      refine ⟨_, ?_, hsize, hsign⟩
      rw [updateRuntimeOverhead_accepted hclip.1, learn_theta]
    skipped := fun sample h => updateRuntimeOverhead_skipped h }

/-- After a reset the covariance is a multiple of the identity, without one in the table. -/
theorem resetRuntimeCalibration_cov
    (h : ∀ table, S.runtimeTable = some table → table.interferenceCov = none) :
    S.resetRuntimeCalibration.interferenceCov = S.resetRuntimeCalibration.rlsDelta • 1 := by
  unfold resetRuntimeCalibration loadRuntimeTableState
  split
  next => rfl
  next table htable =>
    ext i j
    rw [Matrix.smul_apply, Matrix.one_apply]
    simp [h table htable]

/-- One candidate of ten milliseconds, and no other calibration. -/
def calibrated (forgetFactor rlsDelta : Rat) : AlpScheduler where
  candidateChunks := [128]
  runtimeOutlierSkipThreshold := 2 / 5
  forgetFactor
  rlsDelta
  ctxNormScale := ⟨100000, by decide⟩
  prefillTokNormScale := ⟨1048576, by decide⟩
  prefixSumNormScale := ⟨2097152, by decide⟩
  prefillExecTimeByChunk := fun chunk => if chunk = 128 then some (1 / 100) else none
  interferenceTheta := 0
  interferenceCov := rlsDelta • 1
  interferenceUpdates := 0
  runtimeTable := none

/-- A step of twelve milliseconds without decode context. -/
def idleSample : OverheadSample := ⟨12 / 1000, some 128, 0, 0, 0⟩

/-- The default factors. -/
theorem updateAll_recursiveLeastSquares_default :
    (calibrated (399 / 400) (5 / 4)).RecursiveLeastSquares [idleSample, idleSample]
      ((calibrated (399 / 400) (5 / 4)).updateAll [idleSample, idleSample]) :=
  updateAll_recursiveLeastSquares (by decide +kernel) (by norm_num : (0 : Rat) < 5 / 4) rfl _

/-- A forget factor and a start covariance below the clamp. -/
def belowClamp : AlpScheduler := calibrated (1 / 10000000000000) (1 / 10000000000000)

/-- There the clamp fires, and the inverse is not that of recursive least squares. -/
theorem clamp_breaks_inverse : belowClamp.Accepts idleSample ∧
    (belowClamp.updateRuntimeOverhead idleSample).interferenceCov⁻¹ ≠
      belowClamp.forgetFactor • belowClamp.interferenceCov⁻¹ +
        vecMulVec (belowClamp.features idleSample) (belowClamp.features idleSample) := by
  refine ⟨by decide +kernel, fun h => ?_⟩
  have hP : belowClamp.interferenceCov.PosDef := PosDef.one.smul (by norm_num)
  have hP' := updateAll_posDef (by decide +kernel) hP [idleSample]
  have hinv : belowClamp.interferenceCov⁻¹ = (10000000000000 : Rat) • 1 := by
    refine inv_eq_right_inv ?_
    show ((1 / 10000000000000 : Rat) • (1 : Matrix (Fin 4) (Fin 4) Rat)) * _ = 1
    rw [smul_mul, one_mul, smul_smul]
    norm_num
  have hproduct := mul_nonsing_inv _ ((isUnit_iff_isUnit_det _).mp hP'.isUnit)
  change _ * (belowClamp.updateRuntimeOverhead idleSample).interferenceCov⁻¹ = 1 at hproduct
  rw [h, hinv] at hproduct
  have hentry := congrFun (congrFun hproduct 3) 3
  obtain ⟨h0, h1, h2, h3⟩ : (belowClamp.updateAll [idleSample]).interferenceCov 3 0 = 0 ∧
      (belowClamp.updateAll [idleSample]).interferenceCov 3 1 = 0 ∧
      (belowClamp.updateAll [idleSample]).interferenceCov 3 2 = 0 ∧
      (belowClamp.updateAll [idleSample]).interferenceCov 3 3 = 999 / 1000 := by
    decide +kernel
  have hfeature : belowClamp.features idleSample 3 = 1 / 10 := by
    decide +kernel
  have hff : belowClamp.forgetFactor = 1 / 10000000000000 := rfl
  have hright : (belowClamp.forgetFactor • (10000000000000 : Rat) • (1 : Matrix (Fin 4) (Fin 4) Rat) +
      vecMulVec (belowClamp.features idleSample) (belowClamp.features idleSample)) 3 3 =
        101 / 100 := by
    rw [Matrix.add_apply, Matrix.smul_apply, Matrix.smul_apply, one_apply_eq, vecMulVec_apply,
      hfeature, hff]
    norm_num
  rw [mul_apply, Fin.sum_univ_four, h0, h1, h2, h3, zero_mul, zero_mul, zero_mul, hright,
    one_apply_eq] at hentry
  norm_num at hentry

end AlpScheduler

end FastPP
