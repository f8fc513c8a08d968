import Mathlib.LinearAlgebra.Matrix.PosDef
import Mathlib.Tactic.FieldSimp
import Mathlib.Tactic.LinearCombination
import Mathlib.Tactic.Linarith
import Mathlib.Tactic.Module

namespace LeastSquares

open Matrix

variable {n K : Type} [Fintype n] [DecidableEq n] [Field K] [LinearOrder K] [StarRing K]
  [TrivialStar K] {P A : Matrix n n K} {x theta gain : n → K} {c d ff y : K}

omit [Fintype n] [DecidableEq n] in
theorem isSymm_of_posDef (hP : P.PosDef) : P.IsSymm := by
  rw [IsSymm, ← conjTranspose_eq_transpose_of_trivial]
  exact hP.isHermitian

omit [TrivialStar K] in
/-- A matrix less a rank-one part, times its inverse plus one. -/
theorem sub_rankOne_mul (hP : P.PosDef) (hc : c ≠ 0) (hd : d ≠ 0) (hdenom : d = c + x ⬝ᵥ P *ᵥ x) :
    (P - d⁻¹ • vecMulVec (P *ᵥ x) (x ᵥ* P)) * (P⁻¹ + c⁻¹ • vecMulVec x x) = 1 := by
  have hunit : IsUnit P.det := (isUnit_iff_isUnit_det P).mp hP.isUnit
  have hleft : P * P⁻¹ = 1 := mul_nonsing_inv P hunit
  have hback : (x ᵥ* P) ᵥ* P⁻¹ = x := by
    rw [vecMul_vecMul, hleft, vecMul_one]
  have hsame : x ᵥ* P ⬝ᵥ x = x ⬝ᵥ P *ᵥ x := (dotProduct_mulVec x P x).symm
  have hcoeff : c⁻¹ - d⁻¹ - c⁻¹ * d⁻¹ * (x ⬝ᵥ P *ᵥ x) = 0 := by
    field_simp
    linear_combination hdenom
  rw [sub_mul, mul_add, mul_add, hleft, Matrix.mul_smul, mul_vecMulVec, smul_mul, smul_mul,
    Matrix.mul_smul, vecMulVec_mul, hback, vecMulVec_mul_vecMulVec, hsame, vecMulVec_smul]
  generalize vecMulVec (P *ᵥ x) x = R
  calc 1 + c⁻¹ • R - (d⁻¹ • R + d⁻¹ • c⁻¹ • (x ⬝ᵥ P *ᵥ x) • R)
      = 1 + (c⁻¹ - d⁻¹ - c⁻¹ * d⁻¹ * (x ⬝ᵥ P *ᵥ x)) • R := by module
    _ = 1 := by rw [hcoeff, zero_smul, add_zero]

omit [TrivialStar K] in
/-- The inverse of a rank-one update is a rank-one update of the inverse. -/
theorem inv_sub_rankOne (hP : P.PosDef) (hc : c ≠ 0) (hd : d ≠ 0)
    (hdenom : d = c + x ⬝ᵥ P *ᵥ x) :
    (P - d⁻¹ • vecMulVec (P *ᵥ x) (x ᵥ* P))⁻¹ = P⁻¹ + c⁻¹ • vecMulVec x x :=
  inv_eq_right_inv (sub_rankOne_mul hP hc hd hdenom)

omit [DecidableEq n] in
theorem quadratic_nonneg (hP : P.PosDef) (x : n → K) : 0 ≤ x ⬝ᵥ P *ᵥ x := by
  have h := hP.posSemidef.dotProduct_mulVec_nonneg x
  rwa [star_trivial] at h

omit [DecidableEq n] in
theorem quadratic_pos (hP : P.PosDef) (hx : x ≠ 0) : 0 < x ⬝ᵥ P *ᵥ x := by
  have h := hP.dotProduct_mulVec_pos hx
  rwa [star_trivial] at h

section Order

set_option linter.overlappingInstances false

variable [IsStrictOrderedRing K] [StarOrderedRing K]

/-- A positive definite matrix stays so where the denominator exceeds the quadratic form. -/
theorem posDef_sub_rankOne (hP : P.PosDef) (hd : x ⬝ᵥ P *ᵥ x < d) :
    (P - d⁻¹ • vecMulVec (P *ᵥ x) (x ᵥ* P)).PosDef := by
  have hc : 0 < d - x ⬝ᵥ P *ᵥ x := sub_pos.mpr hd
  have hinv := inv_sub_rankOne (c := d - x ⬝ᵥ P *ᵥ x) (d := d) hP hc.ne'
    (lt_of_le_of_lt (quadratic_nonneg hP x) hd).ne' (sub_add_cancel _ _).symm
  have hrank : (vecMulVec x x).PosSemidef := by
    have h := posSemidef_vecMulVec_self_star x
    rwa [star_trivial] at h
  rw [← posDef_inv_iff, hinv]
  exact hP.inv.add_posSemidef (hrank.smul (inv_nonneg.mpr hc.le))

end Order

/-- `cost` is a quadratic with its vertex at `theta`. -/
def VertexAt (A : Matrix n n K) (theta : n → K) (cost : (n → K) → K) : Prop :=
  ∀ other, cost other = cost theta + (other - theta) ⬝ᵥ A *ᵥ (other - theta)

omit [DecidableEq n] in
/-- The vertex is the one minimum. -/
theorem VertexAt.lt [IsStrictOrderedRing K] {cost : (n → K) → K} (h : VertexAt A theta cost)
    (hA : A.PosDef) {other : n → K} (hne : other ≠ theta) : cost theta < cost other := by
  rw [h other]
  exact lt_add_of_pos_right _ (quadratic_pos hA (sub_ne_zero.mpr hne))

omit [DecidableEq n] [LinearOrder K] [StarRing K] [TrivialStar K] in
/-- The quadratic form of a rank-one update. -/
theorem quadratic_add_rankOne (A : Matrix n n K) (ff : K) (x v : n → K) :
    v ⬝ᵥ (ff • A + vecMulVec x x) *ᵥ v = ff * (v ⬝ᵥ A *ᵥ v) + (x ⬝ᵥ v) ^ 2 := by
  rw [add_mulVec, smul_mulVec, vecMulVec_mulVec, dotProduct_add, dotProduct_smul, dotProduct_smul,
    dotProduct_comm v x, smul_eq_mul, op_smul_eq_mul, pow_two]

omit [DecidableEq n] [LinearOrder K] [StarRing K] [TrivialStar K] in
/-- Along the gain the quadratic form of a symmetric matrix is that of the feature. -/
theorem quadratic_sub_gain {B : Matrix n n K} (hB : B.IsSymm) (hgain : B *ᵥ gain = x) (e : K)
    (v : n → K) : (v - e • gain) ⬝ᵥ B *ᵥ (v - e • gain) =
      v ⬝ᵥ B *ᵥ v - 2 * e * (x ⬝ᵥ v) + e ^ 2 * (x ⬝ᵥ gain) := by
  have hcross : gain ⬝ᵥ B *ᵥ v = x ⬝ᵥ v := by
    rw [dotProduct_mulVec, ← mulVec_transpose, hB.eq, hgain]
  rw [mulVec_sub, mulVec_smul, hgain, dotProduct_sub, sub_dotProduct, sub_dotProduct,
    smul_dotProduct, smul_dotProduct, dotProduct_smul, dotProduct_smul, hcross,
    dotProduct_comm v x, dotProduct_comm gain x]
  simp only [smul_eq_mul]
  ring

omit [DecidableEq n] [LinearOrder K] [StarRing K] [TrivialStar K] in
/-- One more square, with a weight on the old cost: the vertex moves along the gain. -/
theorem VertexAt.step {cost : (n → K) → K} (h : VertexAt A theta cost) (hA : A.IsSymm)
    (hgain : (ff • A + vecMulVec x x) *ᵥ gain = x) :
    VertexAt (ff • A + vecMulVec x x) (theta + (y - x ⬝ᵥ theta) • gain)
      (fun other => ff * cost other + (y - x ⬝ᵥ other) ^ 2) := by
  intro other
  have hsymm : (ff • A + vecMulVec x x).IsSymm := by
    rw [IsSymm, transpose_add, transpose_smul, hA.eq, transpose_vecMulVec]
  generalize he : y - x ⬝ᵥ theta = e
  have hmoved : other - (theta + e • gain) = other - theta - e • gain := sub_add_eq_sub_sub _ _ _
  have hother := h other
  have hvertex := h (theta + e • gain)
  have herror : y - x ⬝ᵥ other = e - x ⬝ᵥ (other - theta) := by
    rw [dotProduct_sub]
    linear_combination he
  have herror' : y - x ⬝ᵥ (theta + e • gain) = e - e * (x ⬝ᵥ gain) := by
    rw [dotProduct_add, dotProduct_smul, smul_eq_mul]
    linear_combination he
  have hgainForm := quadratic_add_rankOne A ff x gain
  rw [hgain, dotProduct_comm gain x] at hgainForm
  rw [add_sub_cancel_left, mulVec_smul, dotProduct_smul, smul_dotProduct, smul_eq_mul,
    smul_eq_mul] at hvertex
  dsimp only
  rw [hmoved, quadratic_sub_gain hsymm hgain, quadratic_add_rankOne, hother, hvertex, herror,
    herror']
  linear_combination e ^ 2 * hgainForm

section Cost

omit [DecidableEq n] [LinearOrder K] [StarRing K] [TrivialStar K]

/-- The squared errors of samples, the oldest first, each with a weight for its age. -/
def weightedError (ff : K) (theta : n → K) : List ((n → K) × K) → K
  | [] => 0
  | (x, y) :: rest => ff ^ rest.length * (y - x ⬝ᵥ theta) ^ 2 + weightedError ff theta rest

/-- The weighted errors and a regularizer around the start. -/
def regularizedCost (ff : K) (A : Matrix n n K) (start : n → K) (samples : List ((n → K) × K))
    (theta : n → K) : K :=
  weightedError ff theta samples + ff ^ samples.length * ((theta - start) ⬝ᵥ A *ᵥ (theta - start))

theorem weightedError_snoc (ff : K) (theta : n → K) (samples : List ((n → K) × K)) (x : n → K)
    (y : K) : weightedError ff theta (samples ++ [(x, y)]) =
      ff * weightedError ff theta samples + (y - x ⬝ᵥ theta) ^ 2 := by
  induction samples with
  | nil =>
    show ff ^ 0 * _ + 0 = ff * 0 + _
    ring
  | cons sample samples ih =>
    rw [List.cons_append, weightedError, weightedError, ih, List.length_append,
      List.length_singleton]
    ring

theorem regularizedCost_snoc (ff : K) (A : Matrix n n K) (start : n → K)
    (samples : List ((n → K) × K)) (x : n → K) (y : K) :
    regularizedCost ff A start (samples ++ [(x, y)]) =
      fun theta => ff * regularizedCost ff A start samples theta + (y - x ⬝ᵥ theta) ^ 2 := by
  funext theta
  rw [regularizedCost, regularizedCost, weightedError_snoc, List.length_append,
    List.length_singleton]
  ring

theorem vertexAt_start (ff : K) (A : Matrix n n K) (start : n → K) :
    VertexAt A start (regularizedCost ff A start []) := by
  intro other
  rw [regularizedCost, regularizedCost, sub_self, zero_dotProduct]
  show 0 + ff ^ 0 * _ = 0 + ff ^ 0 * 0 + _
  ring

end Cost

end LeastSquares
