import Mathlib.Data.List.Infix
import Mathlib.Tactic.Common

/-! Sequences to which each step adds what it makes, if anything. -/

namespace StepLog

/-- What the steps before `n` make, in their order. -/
def made {α : Type*} (f : Nat → Option α) (n : Nat) : List α := (List.range n).filterMap f

variable {α β : Type*}

@[simp] theorem made_zero (f : Nat → Option α) : made f 0 = [] := rfl

theorem made_succ (f : Nat → Option α) (n : Nat) : made f (n + 1) = made f n ++ (f n).toList := by
  rw [made, List.range_succ, List.filterMap_append, ← made]
  cases h : f n <;> simp [h]

theorem made_le (f : Nat → Option α) {m n : Nat} (h : m ≤ n) : made f m <+: made f n := by
  obtain ⟨k, rfl⟩ := Nat.exists_eq_add_of_le h
  induction k with
  | zero => exact List.prefix_rfl
  | succ k ih =>
    rw [show m + (k + 1) = m + k + 1 by omega, made_succ]
    exact (ih (by omega)).trans (List.prefix_append _ _)

/-- Steps that make something alike make equally many. -/
theorem made_length {f : Nat → Option α} {g : Nat → Option β}
    (h : ∀ s, (f s).isSome = (g s).isSome) (n : Nat) : (made f n).length = (made g n).length := by
  induction n with
  | zero => rfl
  | succ n ih =>
    have hn := h n
    rw [made_succ, made_succ, List.length_append, List.length_append, ih]
    cases hf : f n <;> cases hg : g n <;> simp_all

/-- What step `t` makes stands after what the steps before it make. -/
theorem made_get {f : Nat → Option α} {t n : Nat} {x : α} (hx : f t = some x) (h : t < n) :
    (made f n)[(made f t).length]? = some x := by
  obtain ⟨rest, hrest⟩ := made_le f (Nat.succ_le_of_lt h)
  have hsucc := made_succ f t
  rw [hx, Option.toList_some] at hsucc
  rw [← hrest, hsucc, List.append_assoc, List.getElem?_append_right le_rfl]
  simp

/-- A maker found at the place of step `t` has made something at `t`. -/
theorem lt_of_made_get {f : Nat → Option α} {t n : Nat} {x : α}
    (h : (made f n)[(made f t).length]? = some x) : t < n := by
  by_contra hle
  have hlen := (made_le f (Nat.le_of_not_lt hle)).length_le
  rw [List.getElem?_eq_none hlen] at h
  cases h

/-- The parts of two runs before a step are the same. -/
theorem made_filter {f : Nat → Option (Nat × α)} (hf : ∀ s x, f s = some x → x.1 = s) {t p m : Nat}
    (hm : t + 1 - p ≤ m) :
    (made f m).filter (fun x => decide (x.1 + p ≤ t)) = made f (t + 1 - p) := by
  obtain ⟨k, rfl⟩ := Nat.exists_eq_add_of_le hm
  clear hm
  induction k with
  | zero =>
    refine List.filter_eq_self.mpr fun x hx => ?_
    obtain ⟨s, hs, hfs⟩ := List.mem_filterMap.mp hx
    have h1 := List.mem_range.mp hs
    have h2 := hf s x hfs
    simp only [decide_eq_true_eq]
    omega
  | succ k ih =>
    rw [show t + 1 - p + (k + 1) = t + 1 - p + k + 1 by omega, made_succ, List.filter_append, ih]
    have hnone : (f (t + 1 - p + k)).toList.filter (fun x => decide (x.1 + p ≤ t)) = [] := by
      refine List.filter_eq_nil_iff.mpr fun x hx => ?_
      have h2 := hf _ x (Option.mem_toList.mp hx)
      simp only [decide_eq_true_eq]
      omega
    rw [hnone, List.append_nil]

end StepLog
