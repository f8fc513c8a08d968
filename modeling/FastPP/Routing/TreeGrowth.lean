import FastPP.Routing.TreeShape
import Mathlib.Algebra.BigOperators.Group.Finset.Piecewise

namespace FastPP

namespace TenantTree

variable {S S' : TenantTree} {tree : Finset Nat} {rank : Nat → Nat} {n m p : Nat} {t s : String}

theorem touch_same (S : TenantTree) (n : Nat) (t : String) (now m : Nat) :
    SameNode (S.nodes m) ((S.touch n t now).nodes m) := by
  by_cases hmn : m = n
  · subst hmn
    constructor <;> simp [touch, setNode]
  · constructor <;> simp [touch, setNode, Function.update_of_ne hmn]

theorem mem_touch {now : Nat} : s ∈ ((S.touch n t now).nodes m).tenantLastAccessTime ↔
    (m = n ∧ s = t) ∨ s ∈ (S.nodes m).tenantLastAccessTime := by
  by_cases hmn : m = n
  · subst hmn
    simp [touch, setNode, AList.mem_insert]
  · simp [touch, setNode, hmn]

theorem charCount_addChars (S : TenantTree) (t s : String) (chars : Nat) :
    (S.addChars t chars).charCount s = S.charCount s + if s = t then chars else 0 := by
  unfold charCount addChars
  by_cases hst : s = t
  · subst hst
    simp [AList.lookup_insert]
  · simp [AList.lookup_insert_ne hst, hst]

theorem mem_addChars (S : TenantTree) (t s : String) (chars : Nat) :
    s ∈ (S.addChars t chars).tenantCharCount ↔ s = t ∨ s ∈ S.tenantCharCount := by
  simp [addChars, AList.mem_insert]

/-- Node `n` was given to tenant `t`, and counts for it. -/
structure Granted (S S' : TenantTree) (n : Nat) (t : String) : Prop where
  next : S'.nextNode = S.nextNode
  same : ∀ m, SameNode (S.nodes m) (S'.nodes m)
  tenants : ∀ m s, s ∈ (S'.nodes m).tenantLastAccessTime ↔
    (m = n ∧ s = t) ∨ s ∈ (S.nodes m).tenantLastAccessTime
  count : ∀ s, S'.charCount s = S.charCount s +
    if s = t ∧ t ∉ (S.nodes n).tenantLastAccessTime then (S.nodes n).text.length else 0
  entry : ∀ s, s ∈ S'.tenantCharCount ↔ s = t ∨ s ∈ S.tenantCharCount

theorem granted_touch (now : Nat) (ht : t ∈ (S.nodes n).tenantLastAccessTime)
    (hentry : t ∈ S.tenantCharCount) : Granted S (S.touch n t now) n t where
  next := rfl
  same := touch_same S n t now
  tenants _ _ := mem_touch
  count s := by
    rw [if_neg (fun hs => hs.2 ht)]
    rfl
  entry s := by
    constructor
    · exact .inr
    · rintro (rfl | hs)
      · exact hentry
      · exact hs

theorem granted_claim (now : Nat)
    (hentry : t ∈ (S.nodes n).tenantLastAccessTime → t ∈ S.tenantCharCount) :
    Granted S (S.claim n t now) n t := by
  unfold claim
  by_cases ht : t ∈ (S.nodes n).tenantLastAccessTime
  · simp only [ht, if_true]
    exact granted_touch now ht (hentry ht)
  · simp only [ht, if_false]
    refine ⟨rfl, touch_same (S.addChars t _) n t now, ?_, ?_, ?_⟩
    · intro m s
      exact @mem_touch (S.addChars t _) n m t s now
    · intro s
      simp only [ht, not_false_eq_true, and_true]
      exact charCount_addChars S t s _
    · intro s
      exact mem_addChars S t s _

/-- The beginning of `insert`. -/
theorem granted_enter (now : Nat) (hroot : (S.nodes 0).text = []) :
    Granted S ((S.touch 0 t now).addChars t 0) 0 t where
  next := rfl
  same := touch_same S 0 t now
  tenants _ _ := mem_touch
  count s := by
    have hcount := charCount_addChars (S.touch 0 t now) t s 0
    rw [ite_self, Nat.add_zero] at hcount
    rw [hroot, List.length_nil, ite_self, Nat.add_zero]
    exact hcount
  entry s := mem_addChars (S.touch 0 t now) t s 0

theorem Granted.share_eq (hg : Granted S S' n t) (s : String) (m : Nat) :
    S'.share s m = S.share s m +
      if m = n then if s = t ∧ t ∉ (S.nodes n).tenantLastAccessTime then (S.nodes n).text.length
        else 0 else 0 := by
  unfold share
  rw [(hg.same m).text]
  by_cases hmn : m = n
  · subst hmn
    by_cases hst : s = t
    · subst hst
      by_cases hs : s ∈ (S.nodes m).tenantLastAccessTime
      · simp [hg.tenants, hs]
      · simp [hg.tenants, hs]
    · simp [hg.tenants, hst]
  · simp [hg.tenants, hmn]

/-- A node may be given to a tenant of its parent. -/
theorem Granted.sound (hg : Granted S S' n t) (h : S.Sound tree rank) (hn : n ∈ tree)
    (habove : ∀ p, (S.nodes n).parent = some p → t ∈ (S.nodes p).tenantLastAccessTime) :
    S'.Sound tree rank where
  shape := h.shape.congr hg.next hg.same
  tenanted := by
    constructor
    · intro m hm h0
      obtain ⟨s, hs⟩ := h.tenanted.owned m hm h0
      exact ⟨s, (hg.tenants m s).mpr (.inr hs)⟩
    · intro m hm p hp s hs
      rw [(hg.same m).parent] at hp
      rw [hg.tenants] at hs ⊢
      right
      rcases hs with ⟨rfl, rfl⟩ | hs
      · exact habove p hp
      · exact h.tenanted.inherit m hm p hp s hs
  count s := by
    unfold usedSize
    rw [hg.count, h.count]
    simp only [hg.share_eq, Finset.sum_add_distrib, Finset.sum_ite_eq', hn, if_true]
    rfl
  entry s := by
    rw [hg.entry, hg.tenants, h.entry]
    constructor
    · rintro (rfl | hs)
      · by_cases h0 : n = 0
        · exact .inl ⟨h0.symm, rfl⟩
        · obtain ⟨p, hp⟩ := h.shape.hangs n hn h0
          exact .inr (h.tenant_root hp.mem (habove p hp.parent))
      · exact .inr hs
    · rintro (⟨_, rfl⟩ | hs)
      · exact .inl rfl
      · exact .inr hs

/-- What the vacant branch of `insert` leaves behind. -/
structure NodeAt (S S' : TenantTree) (curr : Nat) (c : Char) (text : List Char) (t : String) :
    Prop where
  next : S'.nextNode = S.nextNode + 1
  leaf : ∃ tenants : DashMap String Nat, S'.nodes S.nextNode = ⟨∅, text, tenants, some curr⟩ ∧
    ∀ s, s ∈ tenants ↔ s = t
  above : S'.nodes curr =
    { S.nodes curr with children := (S.nodes curr).children.insert c S.nextNode }
  others : ∀ m, m ≠ S.nextNode → m ≠ curr → S'.nodes m = S.nodes m
  count : ∀ s, S'.charCount s = S.charCount s + if s = t then text.length else 0
  entry : ∀ s, s ∈ S'.tenantCharCount ↔ s = t ∨ s ∈ S.tenantCharCount

theorem addNode_spec {curr : Nat} (hne : curr ≠ S.nextNode) (c : Char) (text : List Char)
    (t : String) (now : Nat) : NodeAt S (S.addNode curr c text t now) curr c text t where
  next := rfl
  leaf := by
    refine ⟨(∅ : DashMap String Nat).insert t now, ?_, ?_⟩
    · simp [addNode, setNode, touch, addChars, Function.update_of_ne hne.symm]
    · intro s
      rw [AList.mem_insert]
      exact or_iff_left (AList.notMem_empty s)
  above := by
    simp [addNode, setNode, touch, addChars, Function.update_of_ne hne]
  others := by
    intro m h1 h2
    simp [addNode, setNode, touch, addChars, Function.update_of_ne h1, Function.update_of_ne h2]
  count s := charCount_addChars S t s text.length
  entry s := mem_addChars S t s text.length

section Leaf

variable {curr : Nat} {c : Char} {text : List Char} (hg : NodeAt S S' curr c text t)
  (h : S.Sound tree rank) (hcurr : curr ∈ tree)

include hg h

/-- An old node keeps all but its children, and those as well below another node. -/
theorem NodeAt.old (hn : n ∈ tree) : (S'.nodes n).text = (S.nodes n).text ∧
    (S'.nodes n).parent = (S.nodes n).parent ∧
    (S'.nodes n).tenantLastAccessTime = (S.nodes n).tenantLastAccessTime ∧
    (n ≠ curr → (S'.nodes n).children = (S.nodes n).children) := by
  by_cases hnc : n = curr
  · rw [hnc, hg.above]
    exact ⟨rfl, rfl, rfl, fun hne => absurd rfl hne⟩
  · rw [hg.others n (h.shape.ne_next hn) hnc]
    exact ⟨rfl, rfl, rfl, fun _ => rfl⟩

include hcurr

theorem NodeAt.shape (hfree : (S.nodes curr).children.lookup c = none)
    (hhead : text.head? = some c) : S'.Shape (Insert.insert S.nextNode tree)
      (Function.update rank S.nextNode (rank curr + text.length)) where
  root_mem := Finset.mem_insert_of_mem h.shape.root_mem
  root_text := by rw [(hg.old h h.shape.root_mem).1, h.shape.root_text]
  root_parent := by rw [(hg.old h h.shape.root_mem).2.1, h.shape.root_parent]
  lt_next := by
    intro n hn
    rw [hg.next]
    rcases Finset.mem_insert.mp hn with rfl | hn
    · omega
    · have hlt := h.shape.lt_next n hn
      omega
  hangs := by
    intro n hn h0
    obtain ⟨tenants, hleaf, _⟩ := hg.leaf
    rcases Finset.mem_insert.mp hn with rfl | hn
    · refine ⟨curr, ?_, Finset.mem_insert_of_mem hcurr, ?_, ?_, c, ?_, ?_⟩
      · rw [hleaf]
      · rw [hleaf]
        rintro hnil
        simp only at hnil
        rw [hnil] at hhead
        cases hhead
      · rw [hleaf, Function.update_self, Function.update_of_ne (h.shape.ne_next hcurr)]
      · rw [hleaf, hhead]
      · rw [hg.above, AList.lookup_insert]
    · obtain ⟨p, hp⟩ := h.shape.hangs n hn h0
      obtain ⟨htext, hparent, _, _⟩ := hg.old h hn
      obtain ⟨d, hd, hchild⟩ := hp.child
      refine ⟨p, ?_, Finset.mem_insert_of_mem hp.mem, ?_, ?_, d, ?_, ?_⟩
      · rw [hparent, hp.parent]
      · rw [htext]
        exact hp.text_ne
      · rw [htext, Function.update_of_ne (h.shape.ne_next hn),
          Function.update_of_ne (h.shape.ne_next hp.mem), hp.rank]
      · rw [htext, hd]
      · by_cases hpc : p = curr
        · subst hpc
          have hdc : d ≠ c := by
            rintro rfl
            rw [hfree] at hchild
            cases hchild
          rw [hg.above, AList.lookup_insert_ne hdc, hchild]
        · rw [(hg.old h hp.mem).2.2.2 hpc, hchild]
  children := by
    intro p hp d n hn
    obtain ⟨tenants, hleaf, _⟩ := hg.leaf
    have hkept : (S.nodes p).children.lookup d = some n → p ∈ tree →
        n ∈ Insert.insert S.nextNode tree ∧ n ≠ 0 ∧ (S'.nodes n).parent = some p ∧
          (S'.nodes n).text.head? = some d := by
      intro hold hpt
      obtain ⟨hnt, hn0, hparent, hd⟩ := h.shape.children p hpt d n hold
      obtain ⟨htext', hparent', _, _⟩ := hg.old h hnt
      rw [htext', hparent']
      exact ⟨Finset.mem_insert_of_mem hnt, hn0, hparent, hd⟩
    rcases Finset.mem_insert.mp hp with rfl | hpt
    · rw [hleaf] at hn
      cases hn
    · by_cases hpc : p = curr
      · subst hpc
        rw [hg.above] at hn
        by_cases hdc : d = c
        · subst hdc
          rw [AList.lookup_insert] at hn
          obtain rfl := Option.some.inj hn
          have hpos := h.shape.ne_next h.shape.root_mem
          refine ⟨Finset.mem_insert_self _ _, hpos.symm, ?_, ?_⟩
          · rw [hleaf]
          · rw [hleaf, hhead]
        · rw [AList.lookup_insert_ne hdc] at hn
          exact hkept hn hpt
      · rw [(hg.old h hpt).2.2.2 hpc] at hn
        exact hkept hn hpt

omit hcurr in
theorem NodeAt.share_old (hn : n ∈ tree) (s : String) : S'.share s n = S.share s n := by
  obtain ⟨htext, _, htenants, _⟩ := hg.old h hn
  unfold share
  rw [htext, htenants]

/-- A new node below a node of the tenant. -/
theorem NodeAt.sound (hfree : (S.nodes curr).children.lookup c = none)
    (hhead : text.head? = some c) (ht : t ∈ (S.nodes curr).tenantLastAccessTime) :
    S'.Sound (Insert.insert S.nextNode tree)
      (Function.update rank S.nextNode (rank curr + text.length)) where
  shape := hg.shape h hcurr hfree hhead
  tenanted := by
    obtain ⟨tenants, hleaf, htenants⟩ := hg.leaf
    constructor
    · intro n hn h0
      rcases Finset.mem_insert.mp hn with rfl | hn
      · rw [hleaf]
        exact ⟨t, (htenants t).mpr rfl⟩
      · rw [(hg.old h hn).2.2.1]
        exact h.tenanted.owned n hn h0
    · intro n hn p hp s hs
      rcases Finset.mem_insert.mp hn with rfl | hn
      · rw [hleaf] at hp hs
        obtain rfl := Option.some.inj hp
        obtain rfl := (htenants s).mp hs
        rw [(hg.old h hcurr).2.2.1]
        exact ht
      · obtain ⟨_, hparent, hsame, _⟩ := hg.old h hn
        rw [hparent] at hp
        rw [hsame] at hs
        rw [(hg.old h (h.shape.hangs_of_parent hn hp).mem).2.2.1]
        exact h.tenanted.inherit n hn p hp s hs
  count s := by
    obtain ⟨tenants, hleaf, htenants⟩ := hg.leaf
    have hnew : S'.share s S.nextNode = if s = t then text.length else 0 := by
      unfold share
      rw [hleaf]
      simp only [htenants]
    unfold usedSize
    rw [Finset.sum_insert h.shape.notMem_next, hnew, hg.count, h.count, Nat.add_comm]
    congr 1
    exact Finset.sum_congr rfl fun n hn => (hg.share_old h hn s).symm
  entry s := by
    rw [hg.entry, (hg.old h h.shape.root_mem).2.2.1, h.entry]
    constructor
    · rintro (rfl | hs)
      · exact h.tenant_root hcurr ht
      · exact hs
    · exact .inr

end Leaf

end TenantTree

end FastPP
