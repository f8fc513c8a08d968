import Mathlib.Data.List.Infix
import Mathlib.Data.List.TakeDrop

/-! Computations over a sequence in which each state is made from the states before it. -/

namespace Causal

variable {τ κ : Type*} (next : List κ → τ → κ)

/-- The states of a sequence of tokens. -/
def states (tokens : List τ) : List κ :=
  tokens.foldl (fun done t => done ++ [next done t]) []

@[simp] theorem states_nil : states next [] = [] := rfl

theorem states_snoc (tokens : List τ) (t : τ) :
    states next (tokens ++ [t]) = states next tokens ++ [next (states next tokens) t] := by
  unfold states
  rw [List.foldl_append]
  rfl

@[simp] theorem states_length (tokens : List τ) : (states next tokens).length = tokens.length := by
  induction tokens using List.reverseRecOn with
  | nil => rfl
  | append_singleton tokens t ih => rw [states_snoc, List.length_append, List.length_append, ih]; rfl

/-- The states of a prefix come first. -/
theorem states_append (front back : List τ) :
    states next front <+: states next (front ++ back) := by
  induction back using List.reverseRecOn with
  | nil => rw [List.append_nil]
  | append_singleton back t ih =>
    rw [← List.append_assoc, states_snoc]
    exact ih.trans (List.prefix_append _ _)

theorem states_prefix {front tokens : List τ} (h : front <+: tokens) :
    states next front <+: states next tokens := by
  obtain ⟨back, rfl⟩ := h
  exact states_append next front back

theorem states_take (tokens : List τ) (n : Nat) :
    states next (tokens.take n) = (states next tokens).take n := by
  have hpre := states_prefix next (List.take_prefix n tokens)
  rw [List.prefix_iff_eq_take.mp hpre, states_length, List.length_take]
  rcases Nat.le_total n tokens.length with hle | hle
  · rw [Nat.min_eq_left hle]
  · have hlen := states_length next tokens
    rw [Nat.min_eq_right hle, List.take_of_length_le (by omega), List.take_of_length_le (by omega)]

/-- A state is the last one of the sequence up to its token. -/
theorem states_getElem? (tokens : List τ) {i : Nat} (hi : i < tokens.length) :
    (states next tokens)[i]? = (states next (tokens.take (i + 1))).getLast? := by
  have hlen := states_length next tokens
  rw [states_take, List.getLast?_eq_getElem?, List.length_take, hlen,
    List.getElem?_take_of_lt (by omega)]
  congr 1
  omega

/-- A list with the right last state for every prefix is the list of the states. -/
theorem eq_states {tokens : List τ} {values : List κ} (hlen : values.length = tokens.length)
    (h : ∀ i < tokens.length, values[i]? = (states next (tokens.take (i + 1))).getLast?) :
    values = states next tokens := by
  apply List.ext_getElem?
  intro i
  by_cases hi : i < tokens.length
  · rw [h i hi, states_getElem? next tokens hi]
  · have hlen' := states_length next tokens
    rw [List.getElem?_eq_none (by omega), List.getElem?_eq_none (by omega)]

/-- One more token, computed from the states that are there. -/
theorem states_next {tokens : List τ} {n : Nat} {t : τ} (ht : tokens[n]? = some t) :
    states next (tokens.take (n + 1)) =
      states next (tokens.take n) ++ [next (states next (tokens.take n)) t] := by
  rw [List.take_add_one, ht, Option.toList_some, states_snoc]

end Causal
