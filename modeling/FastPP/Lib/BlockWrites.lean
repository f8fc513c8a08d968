import Mathlib.Algebra.BigOperators.Group.List.Basic
import Mathlib.Algebra.Ring.Nat
import Mathlib.Data.List.Basic

/-! Blocks of entries laid out one after another. -/

namespace Blocks

variable {ι α : Type*} {block : ι → List α} {items before after : List ι} {item : ι} {entry : α}
  {j pos : Nat}

/-- Where the block after `before` begins. -/
def offset (block : ι → List α) (before : List ι) : Nat :=
  (before.map fun item => (block item).length).sum

theorem length_flatMap (block : ι → List α) (items : List ι) :
    (items.flatMap block).length = offset block items := by
  rw [List.length_flatMap]
  rfl

/-- An entry stands at its place behind the offset of its block. -/
theorem getElem?_offset (hitems : items = before ++ item :: after) (hj : j < (block item).length) :
    (items.flatMap block)[offset block before + j]? = (block item)[j]? := by
  rw [hitems, List.flatMap_append, List.flatMap_cons, ← length_flatMap,
    List.getElem?_append_right (Nat.le_add_right _ _), Nat.add_sub_cancel_left,
    List.getElem?_append_left hj]

/-- Every entry comes from a block. -/
theorem exists_block (h : (items.flatMap block)[pos]? = some entry) :
    ∃ before item after j, items = before ++ item :: after ∧ pos = offset block before + j ∧
      (block item)[j]? = some entry := by
  induction items generalizing pos with
  | nil => cases h
  | cons first rest ih =>
    rw [List.flatMap_cons] at h
    by_cases hlt : pos < (block first).length
    · rw [List.getElem?_append_left hlt] at h
      exact ⟨[], first, rest, pos, rfl, (Nat.zero_add pos).symm, h⟩
    · rw [List.getElem?_append_right (by omega)] at h
      obtain ⟨before, item, after, j, hrest, hpos, hentry⟩ := ih h
      refine ⟨first :: before, item, after, j, by rw [hrest]; rfl, ?_, hentry⟩
      have hoffset : offset block (first :: before) =
          (block first).length + offset block before := by
        unfold offset
        rw [List.map_cons, List.sum_cons]
      omega

end Blocks

/-! Blocks of cells written one after another into a list: a cell holds what the last
block over it wrote. -/

namespace BlockWrites

variable {α : Type*} {start size : Nat → Nat} {m p q x : Nat}

/-- The list with `values` in the place of the cells from `at` on. -/
def write (cells : List α) (pos : Nat) (values : List α) : List α :=
  cells.take pos ++ values ++ cells.drop (pos + values.length)

theorem write_nil (cells : List α) (pos : Nat) : write cells pos [] = cells := by
  simp [write]

theorem write_length {cells values : List α} {pos : Nat}
    (h : pos + values.length ≤ cells.length) : (write cells pos values).length = cells.length := by
  simp only [write, List.length_append, List.length_take, List.length_drop]
  omega

theorem write_inside {cells values : List α} {pos r : Nat} (hpos : pos ≤ cells.length)
    (hr : r < values.length) : (write cells pos values)[pos + r]? = values[r]? := by
  have htake : (cells.take pos).length = pos := by
    rw [List.length_take]
    omega
  unfold write
  rw [List.append_assoc, List.getElem?_append_right (by omega), htake,
    show pos + r - pos = r by omega, List.getElem?_append_left hr]

theorem write_outside {cells values : List α} {pos x : Nat} (hpos : pos ≤ cells.length)
    (hx : x < pos ∨ pos + values.length ≤ x) : (write cells pos values)[x]? = cells[x]? := by
  have htake : (cells.take pos).length = pos := by
    rw [List.length_take]
    omega
  unfold write
  rcases hx with hx | hx
  · rw [List.append_assoc, List.getElem?_append_left (by omega), List.getElem?_take_of_lt hx]
  · rw [List.append_assoc, List.getElem?_append_right (by omega), htake,
      List.getElem?_append_right (by omega), List.getElem?_drop]
    congr 1
    omega

/-- Block `q` lies over cell `x`. -/
def Covers (start size : Nat → Nat) (q x : Nat) : Prop := start q ≤ x ∧ x < start q + size q

instance (start size : Nat → Nat) (q x : Nat) : Decidable (Covers start size q x) :=
  inferInstanceAs (Decidable (_ ∧ _))

/-- Of the first `m` blocks, `q` is the last over cell `x`. -/
def Holds (start size : Nat → Nat) (m x q : Nat) : Prop :=
  q < m ∧ Covers start size q x ∧ ∀ later, q < later → later < m → ¬ Covers start size later x

theorem holds_succ : Holds start size (m + 1) x q ↔
    (Covers start size m x ∧ q = m) ∨ (¬ Covers start size m x ∧ Holds start size m x q) := by
  constructor
  · intro h
    by_cases hm : Covers start size m x
    · left
      refine ⟨hm, ?_⟩
      by_contra hne
      have hlt := h.1
      exact h.2.2 m (by omega) (by omega) hm
    · right
      have hlt := h.1
      have hne : q ≠ m := fun e => hm (e ▸ h.2.1)
      exact ⟨hm, by omega, h.2.1, fun later h1 h2 => h.2.2 later h1 (by omega)⟩
  · rintro (⟨hm, rfl⟩ | ⟨hm, hq, hcov, hlast⟩)
    · exact ⟨by omega, hm, fun later h1 h2 => by omega⟩
    · refine ⟨by omega, hcov, fun later h1 h2 => ?_⟩
      by_cases he : later = m
      · exact he ▸ hm
      · exact hlast later h1 (by omega)

/-- A cell under some block is held by that block or a later one. -/
theorem exists_holds (hp : p < m) (hcov : Covers start size p x) :
    ∃ q, p ≤ q ∧ Holds start size m x q := by
  induction m with
  | zero => omega
  | succ m ih =>
    by_cases hm : Covers start size m x
    · exact ⟨m, by omega, holds_succ.mpr (.inl ⟨hm, rfl⟩)⟩
    · have hne : p ≠ m := fun e => hm (e ▸ hcov)
      obtain ⟨q, hle, hq⟩ := ih (by omega)
      exact ⟨q, hle, holds_succ.mpr (.inr ⟨hm, hq⟩)⟩

end BlockWrites
