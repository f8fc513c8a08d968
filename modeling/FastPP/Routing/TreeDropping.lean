import FastPP.Routing.TreeMatching

namespace FastPP

namespace TenantTree

variable {S S' : TenantTree} {tree tree' : Finset Nat} {rank : Nat → Nat} {n m p : Nat}
  {t s : String}

/-- No child of the node has the tenant. -/
def NotBelow (S : TenantTree) (n : Nat) (t : String) : Prop :=
  ∀ c m, (S.nodes n).children.lookup c = some m → t ∉ (S.nodes m).tenantLastAccessTime

theorem mem_leafOf : t ∈ S.leafOf n ↔ t ∈ (S.nodes n).tenantLastAccessTime ∧ S.NotBelow n t := by
  unfold leafOf NotBelow
  rw [List.mem_filter, List.all_eq_true, AList.mem_keys]
  constructor
  · rintro ⟨ht, hall⟩
    refine ⟨ht, ?_⟩
    intro c m hm
    have hno := hall m (DashMap.mem_values.mpr ⟨c, hm⟩)
    simpa using hno
  · rintro ⟨ht, hno⟩
    refine ⟨ht, ?_⟩
    intro m hm
    obtain ⟨c, hc⟩ := DashMap.mem_values.mp hm
    simpa using hno c m hc

/-- A tenant was removed from a node, which left the tree if it was empty then. -/
structure Dropped (S S' : TenantTree) (tree tree' : Finset Nat) (n : Nat) (t : String) :
    Prop where
  next : S'.nextNode = S.nextNode
  counts : S'.tenantCharCount = S.tenantCharCount
  text : ∀ m, (S'.nodes m).text = (S.nodes m).text
  parent : ∀ m, (S'.nodes m).parent = (S.nodes m).parent
  tenants : ∀ m, (S'.nodes m).tenantLastAccessTime =
    if m = n then (S.nodes m).tenantLastAccessTime.erase t else (S.nodes m).tenantLastAccessTime
  sub : ∀ m ∈ tree', m ∈ tree
  kept : ∀ m ∈ tree, m ≠ n → m ∈ tree'
  gone : n ∉ tree' → (S'.nodes n).tenantLastAccessTime = ∅
  children : ∀ p ∈ tree', ∀ c m, (S'.nodes p).children.lookup c = some m ↔
    (S.nodes p).children.lookup c = some m ∧ m ∈ tree'

section Dropping

variable (hd : Dropped S S' tree tree' n t)

include hd

theorem Dropped.mem_tenants : s ∈ (S'.nodes m).tenantLastAccessTime ↔
    s ∈ (S.nodes m).tenantLastAccessTime ∧ ¬ (m = n ∧ s = t) := by
  rw [hd.tenants]
  by_cases hmn : m = n
  · subst hmn
    simp [AList.mem_erase, and_comm]
  · simp [hmn]

theorem Dropped.mem_of_tenant (hm : m ∈ tree) (hs : s ∈ (S'.nodes m).tenantLastAccessTime) :
    m ∈ tree' := by
  by_cases hmn : m = n
  · by_contra hgone
    rw [hmn] at hgone hs
    rw [hd.gone hgone] at hs
    exact AList.notMem_empty s hs
  · exact hd.kept m hm hmn

theorem Dropped.notBelow (hm : m ∈ tree') (h : S.NotBelow m s) : S'.NotBelow m s := by
  intro c k hk hs
  exact h c k ((hd.children m hm c k).mp hk).1 (hd.mem_tenants.mp hs).1

/-- Only the parent of the node can become a leaf, and only for the tenant. -/
theorem Dropped.notBelow_old (h : S.Shape tree rank) (hm : m ∈ tree')
    (hparent : (S.nodes n).parent = some m → s ≠ t) (h' : S'.NotBelow m s) : S.NotBelow m s := by
  intro c k hk hs
  obtain ⟨hkt, _, hkp, _⟩ := h.children m (hd.sub m hm) c k hk
  have hkn : ¬ (k = n ∧ s = t) := by
    rintro ⟨rfl, hst⟩
    exact hparent hkp hst
  have hs' := hd.mem_tenants.mpr ⟨hs, hkn⟩
  exact h' c k ((hd.children m hm c k).mpr ⟨hk, hd.mem_of_tenant hkt hs'⟩) hs'

theorem Dropped.share_eq (m : Nat) :
    S'.share s m = if m = n ∧ s = t then 0 else S.share s m := by
  unfold share
  rw [hd.text]
  by_cases hdrop : m = n ∧ s = t
  · rw [if_pos hdrop, if_neg (fun hs => (hd.mem_tenants.mp hs).2 hdrop)]
  · rw [if_neg hdrop]
    simp only [hd.mem_tenants, hdrop, not_false_eq_true, and_true]

/-- What the node had for the tenant is gone. -/
theorem Dropped.usedSize_eq (hn : n ∈ tree) (s : String) :
    S'.usedSize tree' s + (if s = t then S.share t n else 0) = S.usedSize tree s := by
  have hall : S'.usedSize tree' s = S'.usedSize tree s := by
    unfold usedSize
    apply Finset.sum_subset hd.sub
    intro m hm hgone
    unfold share
    rw [if_neg fun hs => hgone (hd.mem_of_tenant hm hs)]
  rw [hall]
  unfold usedSize
  rw [← Finset.add_sum_erase tree _ hn, ← Finset.add_sum_erase tree _ hn]
  have hrest : ∑ m ∈ tree.erase n, S'.share s m = ∑ m ∈ tree.erase n, S.share s m := by
    apply Finset.sum_congr rfl
    intro m hm
    rw [hd.share_eq, if_neg fun e => (Finset.mem_erase.mp hm).1 e.1]
  rw [hrest, hd.share_eq]
  by_cases hst : s = t
  · subst hst
    simp only [and_self, if_true]
    omega
  · simp [hst]

end Dropping

/-- The node without its tenant. -/
def untenant (S : TenantTree) (n : Nat) (t : String) : TenantTree :=
  S.setNode n { S.nodes n with
    tenantLastAccessTime := (S.nodes n).tenantLastAccessTime.erase t }

theorem untenant_same (S : TenantTree) (n : Nat) (t : String) (m : Nat) :
    SameNode (S.nodes m) ((S.untenant n t).nodes m) := by
  by_cases hmn : m = n
  · subst hmn
    constructor <;> simp [untenant, setNode]
  · constructor <;> simp [untenant, setNode, hmn]

theorem untenant_tenants (S : TenantTree) (n : Nat) (t : String) (m : Nat) :
    ((S.untenant n t).nodes m).tenantLastAccessTime =
      if m = n then (S.nodes m).tenantLastAccessTime.erase t
      else (S.nodes m).tenantLastAccessTime := by
  by_cases hmn : m = n
  · subst hmn
    simp [untenant, setNode]
  · simp [untenant, setNode, hmn]

/-- The node stays in the tree. -/
theorem dropped_untenant (h : S.Shape tree rank) (hn : n ∈ tree) (t : String) :
    Dropped S (S.untenant n t) tree tree n t where
  next := rfl
  counts := rfl
  text m := (untenant_same S n t m).text
  parent m := (untenant_same S n t m).parent
  tenants := untenant_tenants S n t
  sub _ hm := hm
  kept _ hm _ := hm
  gone hgone := absurd hn hgone
  children := by
    intro p hp c m
    rw [(untenant_same S n t p).children]
    exact ⟨fun hm => ⟨hm, (h.children p hp c m hm).1⟩, fun hm => hm.1⟩

/-- The node leaves the children of its parent. -/
def unlink (S : TenantTree) (p : Nat) (c : Char) : TenantTree :=
  S.setNode p { S.nodes p with children := (S.nodes p).children.erase c }

theorem unlink_fields (S : TenantTree) (p : Nat) (c : Char) (m : Nat) :
    ((S.unlink p c).nodes m).text = (S.nodes m).text ∧
      ((S.unlink p c).nodes m).parent = (S.nodes m).parent ∧
      ((S.unlink p c).nodes m).tenantLastAccessTime = (S.nodes m).tenantLastAccessTime ∧
      ((S.unlink p c).nodes m).children =
        if m = p then (S.nodes m).children.erase c else (S.nodes m).children := by
  by_cases hmp : m = p
  · subst hmp
    simp [unlink, setNode]
  · simp [unlink, setNode, hmp]

/-- The node leaves the tree. -/
theorem dropped_unlink (h : S.Shape tree rank) (hn : n ∈ tree) (hp : S.Hangs tree rank n p)
    {c : Char} (hc : (S.nodes n).text.head? = some c)
    (hempty : (S.nodes n).tenantLastAccessTime.erase t = ∅) :
    Dropped S ((S.untenant n t).unlink p c) tree (tree.erase n) n t where
  next := rfl
  counts := rfl
  text m := by rw [(unlink_fields _ p c m).1, (untenant_same S n t m).text]
  parent m := by rw [(unlink_fields _ p c m).2.1, (untenant_same S n t m).parent]
  tenants m := by rw [(unlink_fields _ p c m).2.2.1, untenant_tenants]
  sub _ hm := Finset.mem_of_mem_erase hm
  kept _ hm hne := Finset.mem_erase.mpr ⟨hne, hm⟩
  gone := by
    intro _
    rw [(unlink_fields _ p c n).2.2.1, untenant_tenants, if_pos rfl, hempty]
  children := by
    intro q hq d m
    obtain ⟨hqn, hqt⟩ := Finset.mem_erase.mp hq
    obtain ⟨c', hc', hchild⟩ := hp.child
    obtain rfl := Option.some.inj (hc.symm.trans hc')
    rw [(unlink_fields _ p c q).2.2.2, (untenant_same S n t q).children]
    by_cases hqp : q = p
    · subst hqp
      rw [if_pos rfl]
      by_cases hdc : d = c
      · subst hdc
        rw [AList.lookup_erase, hchild]
        constructor
        · intro e
          cases e
        · rintro ⟨e, hm⟩
          obtain rfl := Option.some.inj e
          exact absurd hm (Finset.notMem_erase _ _)
      · rw [AList.lookup_erase_ne hdc]
        refine ⟨fun hm => ⟨hm, ?_⟩, fun hm => hm.1⟩
        obtain ⟨hmt, _, _, hhead⟩ := h.children q hqt d m hm
        refine Finset.mem_erase.mpr ⟨?_, hmt⟩
        rintro rfl
        exact hdc (Option.some.inj (hhead.symm.trans hc))
    · rw [if_neg hqp]
      refine ⟨fun hm => ⟨hm, ?_⟩, fun hm => hm.1⟩
      obtain ⟨hmt, _, hparent, _⟩ := h.children q hqt d m hm
      refine Finset.mem_erase.mpr ⟨?_, hmt⟩
      rintro rfl
      exact hqp (Option.some.inj (hparent.symm.trans hp.parent))

/-- What is left of the tree has the shape of one. -/
theorem Dropped.shape (hd : Dropped S S' tree tree' n t) (h : S.Shape tree rank)
    (hroot : 0 ∈ tree') (hbare : n ∉ tree' → (S.nodes n).children = ∅) : S'.Shape tree' rank where
  root_mem := hroot
  root_text := by rw [hd.text, h.root_text]
  root_parent := by rw [hd.parent, h.root_parent]
  lt_next m hm := hd.next ▸ h.lt_next m (hd.sub m hm)
  hangs := by
    intro m hm h0
    obtain ⟨p, hp⟩ := h.hangs m (hd.sub m hm) h0
    obtain ⟨c, hc, hchild⟩ := hp.child
    have hpt : p ∈ tree' := by
      by_cases hpn : p = n
      · by_contra hgone
        rw [hpn] at hgone hchild
        rw [hbare hgone] at hchild
        cases hchild
      · exact hd.kept p hp.mem hpn
    refine ⟨p, ?_, hpt, ?_, ?_, c, ?_, (hd.children p hpt c m).mpr ⟨hchild, hm⟩⟩
    · rw [hd.parent, hp.parent]
    · rw [hd.text]
      exact hp.text_ne
    · rw [hd.text, hp.rank]
    · rw [hd.text, hc]
  children := by
    intro p hp c m hm
    obtain ⟨hold, hmt⟩ := (hd.children p hp c m).mp hm
    obtain ⟨_, hm0, hparent, hhead⟩ := h.children p (hd.sub p hp) c m hold
    rw [hd.parent, hd.text]
    exact ⟨hmt, hm0, hparent, hhead⟩

theorem Dropped.inherit (hd : Dropped S S' tree tree' n t) (h : S.Shape tree rank)
    (ht : S.Tenanted tree) (hleaf : S.NotBelow n t) :
    ∀ m ∈ tree', ∀ p, (S'.nodes m).parent = some p →
      ∀ s ∈ (S'.nodes m).tenantLastAccessTime, s ∈ (S'.nodes p).tenantLastAccessTime := by
  intro m hm p hp s hs
  rw [hd.parent] at hp
  have hold := (hd.mem_tenants.mp hs).1
  refine hd.mem_tenants.mpr ⟨ht.inherit m (hd.sub m hm) p hp s hold, ?_⟩
  rintro ⟨rfl, rfl⟩
  obtain ⟨c, _, hchild⟩ := (h.hangs_of_parent (hd.sub m hm) hp).child
  exact hleaf c m hchild hold

/-- Removing a tenant from a node below which it has no more: the tree stays one. -/
theorem dropTenant_spec (h : S.Shape tree rank) (ht : S.Tenanted tree) (hn : n ∈ tree)
    (hleaf : S.NotBelow n t) :
    ∃ S' tree', S.dropTenant n t = some S' ∧ Dropped S S' tree tree' n t ∧
      S'.Shape tree' rank ∧ S'.Tenanted tree' := by
  have hsame := untenant_same S n t n
  have hkept := dropped_untenant h hn t
  have hown : ∀ m ∈ tree, m ≠ 0 → m ≠ n → ∃ s, s ∈ ((S.untenant n t).nodes m).tenantLastAccessTime := by
    intro m hm h0 hmn
    rw [untenant_tenants, if_neg hmn]
    exact ht.owned m hm h0
  unfold dropTenant
  show ∃ S' tree', (if ((S.untenant n t).nodes n).children = ∅ ∧
    ((S.untenant n t).nodes n).tenantLastAccessTime = ∅ then _ else _) = some S' ∧ _
  split
  next hempty =>
    rw [hsame.children, untenant_tenants, if_pos rfl] at hempty
    cases hparent : (S.nodes n).parent with
    | none =>
      have h0 : n = 0 := by
        by_contra h0
        obtain ⟨p, hp⟩ := h.hangs n hn h0
        rw [hp.parent] at hparent
        cases hparent
      refine ⟨S.untenant n t, tree, ?_, hkept, hkept.shape h h.root_mem (absurd hn), ?_,
        hkept.inherit h ht hleaf⟩
      · have hup : ((S.untenant n t).nodes n).parent = none := hsame.parent.trans hparent
        split
        next => rfl
        next p hp => exact absurd (hp.symm.trans hup) (Option.some_ne_none p)
      · intro m hm hm0
        exact hown m hm hm0 (h0 ▸ hm0)
    | some p =>
      have hp := h.hangs_of_parent hn hparent
      obtain ⟨c, hc, _⟩ := hp.child
      have hd := dropped_unlink h hn hp hc hempty.2
      have hn0 : 0 ≠ n := by
        rintro rfl
        rw [h.root_parent] at hparent
        cases hparent
      refine ⟨(S.untenant n t).unlink p c, tree.erase n, ?_, hd,
        hd.shape h (Finset.mem_erase.mpr ⟨hn0, h.root_mem⟩) (fun _ => hempty.1), ?_,
        hd.inherit h ht hleaf⟩
      · have hup : ((S.untenant n t).nodes n).parent = some p := hsame.parent.trans hparent
        split
        next hp => exact absurd (hup.symm.trans hp) (Option.some_ne_none p)
        next p' hp =>
          obtain rfl := Option.some.inj (hup.symm.trans hp)
          show (((S.untenant n t).nodes n).text.head?).bind _ = _
          rw [hsame.text, hc]
          rfl
      · intro m hm hm0
        obtain ⟨hmn, hmt⟩ := Finset.mem_erase.mp hm
        rw [(unlink_fields _ p c m).2.2.1]
        exact hown m hmt hm0 hmn
  next hfull =>
    rw [hsame.children, untenant_tenants, if_pos rfl] at hfull
    refine ⟨S.untenant n t, tree, rfl, hkept, hkept.shape h h.root_mem (absurd hn), ?_,
      hkept.inherit h ht hleaf⟩
    intro m hm hm0
    by_cases hmn : m = n
    · subst hmn
      rw [untenant_tenants, if_pos rfl]
      -- the tenants of a child are left
      by_cases hnone : (S.nodes m).tenantLastAccessTime.erase t = ∅
      · exfalso
        obtain ⟨c, hc⟩ := DashMap.exists_mem_of_ne_empty fun e => hfull ⟨e, hnone⟩
        obtain ⟨k, hk⟩ := Option.isSome_iff_exists.mp (AList.lookup_isSome.mpr hc)
        obtain ⟨hkt, hk0, hparent, _⟩ := h.children m hn c k hk
        obtain ⟨s, hs⟩ := ht.owned k hkt hk0
        have hst : s ≠ t := by
          rintro rfl
          exact hleaf c k hk hs
        have hleft : s ∈ (S.nodes m).tenantLastAccessTime.erase t :=
          AList.mem_erase.mpr ⟨hst, ht.inherit k hkt m hparent s hs⟩
        rw [hnone] at hleft
        exact AList.notMem_empty s hleft
      · exact DashMap.exists_mem_of_ne_empty hnone
    · exact hown m hm hm0 hmn

end TenantTree

end FastPP
