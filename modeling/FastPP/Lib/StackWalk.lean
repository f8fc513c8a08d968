import Mathlib.Data.Finset.Card
import Mathlib.Data.List.Nodup

namespace StackWalk

variable {α : Type} {children : α → List α} {tree : Finset α} {root : α}

/-- A walk over what is reachable from a stack, which gives up after `fuel` nodes. -/
def walk (children : α → List α) : Nat → List α → Option (List α)
  | _, [] => some []
  | 0, _ :: _ => none
  | fuel + 1, node :: stack =>
    (walk children fuel ((children node).reverse ++ stack)).map fun rest => node :: rest

/-- The nodes of `tree` hang below the root, each under one parent. -/
structure Rooted (children : α → List α) (tree : Finset α) (root : α) (parent : α → Option α)
    (rank : α → Nat) : Prop where
  root_mem : root ∈ tree
  child : ∀ p ∈ tree, ∀ c ∈ children p, c ∈ tree ∧ c ≠ root ∧ parent c = some p
  nodup : ∀ p ∈ tree, (children p).Nodup
  above : ∀ n ∈ tree, n ≠ root → ∃ p ∈ tree, n ∈ children p ∧ rank p < rank n

/-- Between two rounds: the nodes visited, and the stack. -/
structure Frontier (children : α → List α) (tree : Finset α) (root : α)
    (visited stack : List α) : Prop where
  nodup : (visited ++ stack).Nodup
  mem_tree : ∀ n ∈ visited ++ stack, n ∈ tree
  root_mem : root ∈ visited ++ stack
  below : ∀ n ∈ visited, ∀ c ∈ children n, c ∈ visited ++ stack
  above : ∀ n ∈ visited ++ stack, n = root ∨ ∃ p ∈ visited, n ∈ children p

variable {parent : α → Option α} {rank : α → Nat} {visited stack : List α} {node : α}

theorem Frontier.length_le (h : Frontier children tree root visited stack) :
    visited.length + stack.length ≤ tree.card := by
  classical
  rw [← List.length_append, ← List.toFinset_card_of_nodup h.nodup]
  apply Finset.card_le_card
  intro n hn
  exact h.mem_tree n (List.mem_toFinset.mp hn)

/-- One round: the children of the node are new. -/
theorem Frontier.step (hr : Rooted children tree root parent rank)
    (h : Frontier children tree root visited (node :: stack)) :
    Frontier children tree root (visited ++ [node]) ((children node).reverse ++ stack) := by
  have hnode : node ∈ tree := h.mem_tree node (by simp)
  have hnd := h.nodup
  rw [List.nodup_append] at hnd
  obtain ⟨hvisited, hstack, hapart⟩ := hnd
  obtain ⟨hnodeStack, hstack⟩ := List.nodup_cons.mp hstack
  have hfresh : ∀ c ∈ children node, c ∉ visited ++ node :: stack := by
    intro c hc hold
    obtain ⟨_, hroot, hparent⟩ := hr.child node hnode c hc
    rcases h.above c hold with e | ⟨p, hp, hcp⟩
    · exact hroot e
    · have hp' := (hr.child p (h.mem_tree p (List.mem_append_left _ hp)) c hcp).2.2
      rw [hparent] at hp'
      obtain rfl := Option.some.inj hp'
      exact hapart node hp node List.mem_cons_self rfl
  constructor
  · rw [List.append_assoc, List.nodup_append]
    refine ⟨hvisited, ?_, ?_⟩
    · rw [List.singleton_append, List.nodup_cons, List.nodup_append]
      refine ⟨?_, List.nodup_reverse.mpr (hr.nodup node hnode), hstack, ?_⟩
      · intro hmem
        rcases List.mem_append.mp hmem with hc | hc
        · exact hfresh node (List.mem_reverse.mp hc) (by simp)
        · exact hnodeStack hc
      · rintro c hc d hd rfl
        exact hfresh c (List.mem_reverse.mp hc) (by simp [hd])
    · intro v hv d hd e
      subst e
      rcases List.mem_append.mp hd with hd | hd
      · exact hapart v hv v (by simp_all) rfl
      rcases List.mem_append.mp hd with hd | hd
      · exact hfresh v (List.mem_reverse.mp hd) (List.mem_append_left _ hv)
      · exact hapart v hv v (List.mem_cons_of_mem _ hd) rfl
  · intro n hn
    simp only [List.mem_append, List.mem_singleton, List.mem_reverse] at hn
    rcases hn with (hn | rfl) | (hn | hn)
    · exact h.mem_tree n (by simp [hn])
    · exact hnode
    · exact (hr.child node hnode n hn).1
    · exact h.mem_tree n (by simp [hn])
  · have hroot := h.root_mem
    simp only [List.mem_append, List.mem_cons] at hroot
    simp only [List.mem_append, List.mem_singleton, List.mem_reverse]
    tauto
  · intro n hn c hc
    simp only [List.mem_append, List.mem_singleton, List.mem_reverse]
    rcases List.mem_append.mp hn with hn | hn
    · have hold := h.below n hn c hc
      simp only [List.mem_append, List.mem_cons] at hold
      tauto
    · rw [List.mem_singleton] at hn
      subst hn
      exact .inr (.inl hc)
  · intro n hn
    simp only [List.mem_append, List.mem_singleton, List.mem_reverse] at hn
    have hold : n ∈ visited ++ node :: stack → n = root ∨ ∃ p ∈ visited ++ [node], n ∈ children p := by
      intro hmem
      rcases h.above n hmem with e | ⟨p, hp, hnp⟩
      · exact .inl e
      · exact .inr ⟨p, List.mem_append_left _ hp, hnp⟩
    rcases hn with (hn | rfl) | (hn | hn)
    · exact hold (by simp [hn])
    · exact hold (by simp)
    · exact .inr ⟨node, by simp, hn⟩
    · exact hold (by simp [hn])

theorem walk_frontier (hr : Rooted children tree root parent rank) {fuel : Nat}
    (h : Frontier children tree root visited stack) (hfuel : tree.card ≤ fuel + visited.length) :
    ∃ nodes, walk children fuel stack = some nodes ∧
      Frontier children tree root (visited ++ nodes) [] := by
  induction fuel generalizing visited stack with
  | zero =>
    cases stack with
    | nil => exact ⟨[], by rw [walk], by simpa using h⟩
    | cons node stack =>
      have hle := h.length_le
      rw [List.length_cons] at hle
      omega
  | succ fuel ih =>
    cases stack with
    | nil => exact ⟨[], by rw [walk], by simpa using h⟩
    | cons node stack =>
      obtain ⟨nodes, hwalk, hdone⟩ := ih (h.step hr) (by
        rw [List.length_append, List.length_singleton]
        omega)
      refine ⟨node :: nodes, ?_, ?_⟩
      · rw [walk, hwalk]
        rfl
      · rwa [List.append_assoc, List.singleton_append] at hdone

/-- The walk from the root visits every node once. -/
theorem walk_root (hr : Rooted children tree root parent rank) {fuel : Nat}
    (hfuel : tree.card ≤ fuel) :
    ∃ nodes, walk children fuel [root] = some nodes ∧ nodes.Nodup ∧ ∀ n, n ∈ nodes ↔ n ∈ tree := by
  have hstart : Frontier children tree root [] [root] := by
    constructor
    · simp
    · intro n hn
      obtain rfl := List.mem_singleton.mp hn
      exact hr.root_mem
    · simp
    · simp
    · intro n hn
      exact .inl (List.mem_singleton.mp hn)
  obtain ⟨nodes, hwalk, hdone⟩ := walk_frontier hr hstart (by simpa using hfuel)
  rw [List.nil_append] at hdone
  have hnodup := hdone.nodup
  have hsub := hdone.mem_tree
  have hroot := hdone.root_mem
  rw [List.append_nil] at hnodup hsub hroot
  refine ⟨nodes, hwalk, hnodup, fun n => ⟨hsub n, ?_⟩⟩
  -- nothing is missed, since what hangs below a visited node is visited
  intro hn
  induction hk : rank n using Nat.strongRecOn generalizing n with
  | ind k ih =>
    subst hk
    by_cases h0 : n = root
    · rw [h0]
      exact hroot
    · obtain ⟨p, hp, hchild, hlt⟩ := hr.above n hn h0
      have hmem := hdone.below p (ih _ hlt p hp rfl) n hchild
      rwa [List.append_nil] at hmem

end StackWalk
