import Mathlib.Data.List.Basic
import Mathlib.Order.Lattice

namespace FastPP

variable {α κ : Type} [LinearOrder κ] {key : α → κ} {xs : List α} {c d : α}

/-- `xs.sort(key=key)`. -/
def sortByKey (key : α → κ) (xs : List α) : List α :=
  xs.mergeSort fun a b => decide (key a ≤ key b)

theorem sortByKey_perm (key : α → κ) (xs : List α) : (sortByKey key xs).Perm xs :=
  List.mergeSort_perm _ _

theorem keyLe_trans (a b c : α) (hab : decide (key a ≤ key b) = true)
    (hbc : decide (key b ≤ key c) = true) : decide (key a ≤ key c) = true :=
  decide_eq_true (le_trans (of_decide_eq_true hab) (of_decide_eq_true hbc))

theorem keyLe_total (a b : α) :
    (decide (key a ≤ key b) || decide (key b ≤ key a)) = true := by
  rw [Bool.or_eq_true, decide_eq_true_eq, decide_eq_true_eq]
  exact le_total (key a) (key b)

theorem sortByKey_sorted (key : α → κ) (xs : List α) :
    (sortByKey key xs).Pairwise fun a b => key a ≤ key b :=
  (List.pairwise_mergeSort keyLe_trans keyLe_total xs).imp fun h => of_decide_eq_true h

/-- Items of one key stay in their order. -/
theorem sortByKey_stable (key : α → κ) (xs : List α) (k : κ) :
    (sortByKey key xs).filter (fun a => decide (key a = k)) =
      xs.filter fun a => decide (key a = k) := by
  have hequal : (xs.filter fun a => decide (key a = k)).Pairwise
      fun a b => decide (key a ≤ key b) = true := by
    apply List.pairwise_of_forall_mem_list
    intro a ha b hb
    have hak := of_decide_eq_true (List.mem_filter.mp ha).2
    have hbk := of_decide_eq_true (List.mem_filter.mp hb).2
    exact decide_eq_true (by rw [hak, hbk])
  have hsub := (List.sublist_mergeSort keyLe_trans keyLe_total hequal List.filter_sublist).filter
    fun a => decide (key a = k)
  rw [List.filter_filter] at hsub
  simp only [Bool.and_self] at hsub
  have hperm := (sortByKey_perm key xs).filter fun a => decide (key a = k)
  exact (hsub.eq_of_length hperm.length_eq.symm).symm

/-- An item of a lesser key stands before one of a greater key. -/
theorem sortByKey_before (key : α → κ) (hc : c ∈ xs) (hd : d ∈ xs) (hlt : key c < key d) :
    ∃ before between after, sortByKey key xs = before ++ c :: between ++ d :: after := by
  have hsorted := sortByKey_sorted key xs
  obtain ⟨before, rest, hsplit⟩ := List.append_of_mem ((sortByKey_perm key xs).mem_iff.mpr hc)
  have hmem := (sortByKey_perm key xs).mem_iff.mpr hd
  rw [hsplit] at hsorted hmem
  obtain ⟨_, _, hcross⟩ := List.pairwise_append.mp hsorted
  rcases List.mem_append.mp hmem with hbefore | hrest
  · exact absurd (hcross d hbefore c List.mem_cons_self) (not_le.mpr hlt)
  · rcases List.mem_cons.mp hrest with heq | hafter
    · rw [heq] at hlt
      exact absurd hlt (lt_irrefl _)
    · obtain ⟨between, after, hrest⟩ := List.append_of_mem hafter
      refine ⟨before, between, after, ?_⟩
      rw [hsplit, hrest, List.append_assoc, List.cons_append]

end FastPP
