import FastPP.Routing.TreeDropping
import Mathlib.Data.Finset.Max

namespace FastPP

namespace TenantTree

variable {S S' : TenantTree} {tree tree' : Finset Nat} {rank : Nat → Nat} {n m p : Nat}
  {t s : String}

theorem Dropped.leafOf_mono (hd : Dropped S S' tree tree' n t) (hm : m ∈ tree)
    (hmt : ¬ (m = n ∧ s = t)) (hleaf : s ∈ S.leafOf m) : m ∈ tree' ∧ s ∈ S'.leafOf m := by
  obtain ⟨hs, hbelow⟩ := mem_leafOf.mp hleaf
  have hs' := hd.mem_tenants.mpr ⟨hs, hmt⟩
  have hm' := hd.mem_of_tenant hm hs'
  exact ⟨hm', mem_leafOf.mpr ⟨hs', hd.notBelow hm' hbelow⟩⟩

/-- The parent of a node with the tenant is no leaf for it. -/
theorem Shape.not_leaf_above (h : S.Shape tree rank) (hn : n ∈ tree)
    (hp : (S.nodes n).parent = some p) (ht : t ∈ (S.nodes n).tenantLastAccessTime) :
    t ∉ S.leafOf p := by
  intro hleaf
  obtain ⟨c, _, hchild⟩ := (h.hangs_of_parent hn hp).child
  exact (mem_leafOf.mp hleaf).2 c n hchild ht

/-- Where the tenant is, one of its leaves is. -/
theorem Shape.exists_leaf (h : S.Shape tree rank) (hn : n ∈ tree)
    (ht : t ∈ (S.nodes n).tenantLastAccessTime) : ∃ m ∈ tree, t ∈ S.leafOf m := by
  have hsome : (tree.filter fun m => t ∈ (S.nodes m).tenantLastAccessTime).Nonempty :=
    ⟨n, Finset.mem_filter.mpr ⟨hn, ht⟩⟩
  obtain ⟨m, hm, hmax⟩ := Finset.exists_max_image _ rank hsome
  obtain ⟨hmt, hmo⟩ := Finset.mem_filter.mp hm
  refine ⟨m, hmt, mem_leafOf.mpr ⟨hmo, ?_⟩⟩
  intro c k hk hko
  obtain ⟨hkt, _, hparent, _⟩ := h.children m hmt c k hk
  have hle := hmax k (Finset.mem_filter.mpr ⟨hkt, hko⟩)
  have hlt := (h.hangs_of_parent hkt hparent).rank_lt
  omega

/-- While a tenant is removed: the queue holds its leaves, and the counts of the other
tenants are right. -/
structure Removing (S : TenantTree) (tree : Finset Nat) (rank : Nat → Nat) (t : String)
    (queue : List Nat) : Prop where
  shape : S.Shape tree rank
  tenanted : S.Tenanted tree
  count : ∀ s, s ≠ t → S.charCount s = S.usedSize tree s
  entry : ∀ s, s ≠ t → (s ∈ S.tenantCharCount ↔ s ∈ (S.nodes 0).tenantLastAccessTime)
  nodup : queue.Nodup
  leaves : ∀ m, m ∈ queue ↔ m ∈ tree ∧ t ∈ S.leafOf m

/-- The nodes of a tenant. -/
def owned (S : TenantTree) (tree : Finset Nat) (t : String) : Finset Nat :=
  tree.filter fun m => t ∈ (S.nodes m).tenantLastAccessTime

theorem Dropped.owned_lt (hd : Dropped S S' tree tree' n t) (hn : n ∈ tree)
    (ht : t ∈ (S.nodes n).tenantLastAccessTime) :
    (owned S' tree' t).card < (owned S tree t).card := by
  apply Finset.card_lt_card
  refine ⟨?_, ?_⟩
  · intro m hm
    obtain ⟨hmt, hmo⟩ := Finset.mem_filter.mp hm
    exact Finset.mem_filter.mpr ⟨hd.sub m hmt, (hd.mem_tenants.mp hmo).1⟩
  · intro hsub
    have hmem := hsub (Finset.mem_filter.mpr ⟨hn, ht⟩)
    exact (hd.mem_tenants.mp (Finset.mem_filter.mp hmem).2).2 ⟨rfl, rfl⟩

/-- What the queue gets. -/
def nextLeaves (S : TenantTree) (n : Nat) (t : String) : List Nat :=
  match (S.nodes n).parent with
  | none => []
  | some parent => if t ∈ S.leafOf parent then [parent] else []

theorem mem_nextLeaves : m ∈ S.nextLeaves n t ↔ (S.nodes n).parent = some m ∧ t ∈ S.leafOf m := by
  unfold nextLeaves
  cases hparent : (S.nodes n).parent with
  | none => simp
  | some p =>
    by_cases hleaf : t ∈ S.leafOf p
    · simp only [hleaf, if_true, List.mem_singleton, Option.some.injEq]
      constructor
      · rintro rfl
        exact ⟨rfl, hleaf⟩
      · rintro ⟨rfl, _⟩
        rfl
    · simp only [hleaf, if_false, List.not_mem_nil, Option.some.injEq, false_iff]
      rintro ⟨rfl, hleaf'⟩
      exact hleaf hleaf'

theorem nextLeaves_nodup (S : TenantTree) (n : Nat) (t : String) : (S.nextLeaves n t).Nodup := by
  unfold nextLeaves
  split
  · exact List.nodup_nil
  · split
    · exact List.nodup_singleton _
    · exact List.nodup_nil

/-- One round of the removal. -/
theorem Removing.step {queue : List Nat} (h : S.Removing tree rank t (n :: queue)) :
    ∃ S' tree', S.dropTenant n t = some S' ∧ Dropped S S' tree tree' n t ∧
      (owned S' tree' t).card < (owned S tree t).card ∧
      S'.Removing tree' rank t (queue ++ S'.nextLeaves n t) := by
  obtain ⟨hn, hleaf⟩ := (h.leaves n).mp List.mem_cons_self
  obtain ⟨ht, hbelow⟩ := mem_leafOf.mp hleaf
  obtain ⟨hnq, hqueue⟩ := List.nodup_cons.mp h.nodup
  obtain ⟨S', tree', hdrop, hd, hshape, htenanted⟩ :=
    dropTenant_spec h.shape h.tenanted hn hbelow
  refine ⟨S', tree', hdrop, hd, hd.owned_lt hn ht, hshape, htenanted, ?_, ?_, ?_, ?_⟩
  · intro s hs
    have hused := hd.usedSize_eq hn s
    rw [if_neg hs, Nat.add_zero] at hused
    rw [hused, ← h.count s hs]
    unfold charCount
    rw [hd.counts]
  · intro s hs
    rw [hd.counts, hd.mem_tenants, h.entry s hs]
    exact ⟨fun hm => ⟨hm, fun e => hs e.2⟩, fun hm => hm.1⟩
  · rw [List.nodup_append]
    refine ⟨hqueue, nextLeaves_nodup S' n t, ?_⟩
    rintro m hm k hk rfl
    rw [mem_nextLeaves, hd.parent] at hk
    exact h.shape.not_leaf_above hn hk.1 ht ((h.leaves m).mp (List.mem_cons_of_mem n hm)).2
  · intro m
    rw [List.mem_append, mem_nextLeaves, hd.parent]
    constructor
    · rintro (hm | ⟨hparent, hm⟩)
      · obtain ⟨hmt, hml⟩ := (h.leaves m).mp (List.mem_cons_of_mem n hm)
        exact hd.leafOf_mono hmt (fun e => hnq (e.1 ▸ hm)) hml
      · have hp := h.shape.hangs_of_parent hn hparent
        have hne : m ≠ n := by
          rintro rfl
          exact Nat.lt_irrefl _ hp.rank_lt
        exact ⟨hd.kept m hp.mem hne, hm⟩
    · rintro ⟨hmt, hml⟩
      by_cases hparent : (S.nodes n).parent = some m
      · exact .inr ⟨hparent, hml⟩
      · obtain ⟨hmo, hmb⟩ := mem_leafOf.mp hml
        obtain ⟨hold, hne⟩ := hd.mem_tenants.mp hmo
        have hmem := (h.leaves m).mpr ⟨hd.sub m hmt,
          mem_leafOf.mpr ⟨hold, hd.notBelow_old h.shape hmt (absurd · hparent) hmb⟩⟩
        rcases List.mem_cons.mp hmem with e | e
        · exact absurd ⟨e, rfl⟩ hne
        · exact .inl e

/-- The removal ends, and then the tenant has no node. -/
theorem removeLoop_spec {fuel : Nat} {queue : List Nat} (h : S.Removing tree rank t queue)
    (hfuel : (owned S tree t).card ≤ fuel) :
    ∃ S' tree', removeLoop t fuel S queue = some S' ∧ S'.Removing tree' rank t [] ∧
      S'.tenantCharCount = S.tenantCharCount := by
  induction fuel generalizing S tree queue with
  | zero =>
    cases queue with
    | nil => exact ⟨S, tree, by rw [removeLoop], h, rfl⟩
    | cons n queue =>
      obtain ⟨_, _, _, _, hlt, _⟩ := h.step
      omega
  | succ fuel ih =>
    cases queue with
    | nil => exact ⟨S, tree, by rw [removeLoop], h, rfl⟩
    | cons n queue =>
      obtain ⟨S₁, tree₁, hdrop, hd, hlt, h₁⟩ := h.step
      obtain ⟨S', tree', hloop, h', hcounts'⟩ := ih h₁ (by omega)
      refine ⟨S', tree', ?_, h', hcounts'.trans hd.counts⟩
      rw [removeLoop, hdrop]
      exact hloop

theorem Removing.gone (h : S.Removing tree rank t []) (hn : n ∈ tree) :
    t ∉ (S.nodes n).tenantLastAccessTime := by
  intro ht
  obtain ⟨m, hm, hleaf⟩ := h.shape.exists_leaf hn ht
  cases (h.leaves m).mpr ⟨hm, hleaf⟩

/-- The queue starts with the leaves of the tenant. -/
theorem Sound.removing_start (h : S.Sound tree rank) (t : String) {nodes : List Nat}
    (hnodup : nodes.Nodup) (hmem : ∀ n, n ∈ nodes ↔ n ∈ tree) :
    S.Removing tree rank t (nodes.filter fun n => t ∈ S.leafOf n) := by
  refine ⟨h.shape, h.tenanted, fun s _ => h.count s, fun s _ => h.entry s, hnodup.filter _, ?_⟩
  intro m
  rw [List.mem_filter, hmem, decide_eq_true_iff]

/-- `remove_tenant` returns, keeps the tree sound, and removes the tenant. -/
theorem removeTenant_sound (h : S.Sound tree rank) (t : String) :
    ∃ S' tree', S.removeTenant t = some S' ∧ S'.Sound tree' rank ∧
      ∀ s, s ∈ S'.tenantCharCount ↔ s ≠ t ∧ s ∈ S.tenantCharCount := by
  obtain ⟨nodes, hnodes, hnodup, hmem⟩ := h.shape.allNodes_spec
  have hstart := h.removing_start t hnodup hmem
  have hfuel : (owned S tree t).card ≤ S.nextNode :=
    (Finset.card_filter_le _ _).trans h.shape.card_le
  obtain ⟨S', tree', hloop, h', hcounts⟩ := removeLoop_spec hstart hfuel
  refine ⟨{ S' with tenantCharCount := S'.tenantCharCount.erase t }, tree', ?_, ?_, ?_⟩
  · unfold removeTenant
    rw [hnodes]
    show (removeLoop t S.nextNode S (nodes.filter fun n => t ∈ S.leafOf n)).bind _ = _
    rw [hloop]
    rfl
  · refine ⟨h'.shape.congr rfl fun _ => ⟨rfl, rfl, rfl⟩,
      ⟨h'.tenanted.owned, h'.tenanted.inherit⟩, ?_, ?_⟩
    · intro s
      unfold charCount
      by_cases hst : s = t
      · rw [hst, AList.lookup_erase]
        symm
        apply Finset.sum_eq_zero
        intro m hm
        exact if_neg (h'.gone hm)
      · rw [AList.lookup_erase_ne hst]
        exact h'.count s hst
    · intro s
      rw [AList.mem_erase]
      by_cases hst : s = t
      · subst hst
        exact ⟨fun e => absurd rfl e.1, fun e => absurd e (h'.gone h'.shape.root_mem)⟩
      · exact ⟨fun e => (h'.entry s hst).mp e.2, fun e => ⟨hst, (h'.entry s hst).mpr e⟩⟩
  · intro s
    rw [AList.mem_erase, hcounts]

end TenantTree

end FastPP
