import FastPP.Routing.TreeEviction

namespace FastPP

/-- An operation of the tree, with the time it reads. -/
inductive TreeOp
  | insert (text : List Char) (tenant : String) (now : Nat)
  | prefixMatch (text : List Char) (now : Nat)
  | prefixMatchTenant (text : List Char) (tenant : String) (now : Nat)
  | evictTenantBySize (maxSize : Nat)
  | removeTenant (tenant : String)

namespace TenantTree

/-- The maps have the same entries, and are iterated in other orders. -/
structure Reordered (S S' : TenantTree) : Prop where
  next : S'.nextNode = S.nextNode
  text : ∀ n, (S'.nodes n).text = (S.nodes n).text
  parent : ∀ n, (S'.nodes n).parent = (S.nodes n).parent
  children : ∀ n, (S'.nodes n).children.entries.Perm (S.nodes n).children.entries
  tenants : ∀ n,
    (S'.nodes n).tenantLastAccessTime.entries.Perm (S.nodes n).tenantLastAccessTime.entries
  counts : S'.tenantCharCount.entries.Perm S.tenantCharCount.entries

/-- `none` is a panic. -/
def applyOp (heap : EvictionHeap) (S : TenantTree) : TreeOp → Option TenantTree
  | .insert text tenant now => S.insert text tenant now
  | .prefixMatch text now => (S.prefixMatch text now).map (·.1)
  | .prefixMatchTenant text tenant now => (S.prefixMatchTenant text tenant now).map (·.1)
  | .evictTenantBySize maxSize => S.evictTenantBySize heap maxSize
  | .removeTenant tenant => S.removeTenant tenant

/-- What sequential runs from `Tree::new` reach. -/
inductive Run (heap : EvictionHeap) : TenantTree → Prop
  | new : Run heap .new
  | op {S S' : TenantTree} (run : Run heap S) (op : TreeOp) (next : S.applyOp heap op = some S') :
      Run heap S'
  | reorder {S S' : TenantTree} (run : Run heap S) (same : Reordered S S') : Run heap S'

/-- The nodes below the root. -/
inductive Reachable (S : TenantTree) : Nat → Prop
  | root : Reachable S 0
  | child {p n : Nat} {c : Char} (above : Reachable S p)
      (edge : (S.nodes p).children.lookup c = some n) : Reachable S n

/-- Nodes hang under the first characters of their texts, tenants are tenants of the
parents, and the counts are what `get_used_size_per_tenant` computes. -/
structure WellFormed (S : TenantTree) : Prop where
  text_ne : ∀ n, S.Reachable n → n ≠ 0 → (S.nodes n).text ≠ []
  linked : ∀ n, S.Reachable n → n ≠ 0 → ∃ p c, S.Reachable p ∧ (S.nodes n).parent = some p ∧
    (S.nodes n).text.head? = some c ∧ (S.nodes p).children.lookup c = some n
  children : ∀ p c n, S.Reachable p → (S.nodes p).children.lookup c = some n →
    (S.nodes n).parent = some p ∧ (S.nodes n).text.head? = some c
  owned : ∀ n, S.Reachable n → n ≠ 0 → ∃ t, t ∈ (S.nodes n).tenantLastAccessTime
  inherit : ∀ p c n, S.Reachable p → (S.nodes p).children.lookup c = some n →
    ∀ t ∈ (S.nodes n).tenantLastAccessTime, t ∈ (S.nodes p).tenantLastAccessTime
  counts : ∃ used, S.getUsedSizePerTenant = some used ∧
    ∀ t, S.charCount t = (used.lookup t).getD 0

variable {S S' : TenantTree} {tree : Finset Nat} {rank : Nat → Nat} {heap : EvictionHeap}

theorem Reordered.lookup_children (h : Reordered S S') (n : Nat) (c : Char) :
    (S'.nodes n).children.lookup c = (S.nodes n).children.lookup c :=
  AList.perm_lookup (h.children n)

theorem Reordered.mem_tenants (h : Reordered S S') (n : Nat) (t : String) :
    t ∈ (S'.nodes n).tenantLastAccessTime ↔ t ∈ (S.nodes n).tenantLastAccessTime :=
  AList.mem_of_perm (h.tenants n)

theorem Reordered.sound (hr : Reordered S S') (h : S.Sound tree rank) : S'.Sound tree rank where
  shape :=
    { root_mem := h.shape.root_mem
      root_text := by rw [hr.text, h.shape.root_text]
      root_parent := by rw [hr.parent, h.shape.root_parent]
      lt_next := fun n hn => hr.next ▸ h.shape.lt_next n hn
      hangs := by
        intro n hn h0
        obtain ⟨p, hp⟩ := h.shape.hangs n hn h0
        obtain ⟨c, hc, hchild⟩ := hp.child
        refine ⟨p, ?_, hp.mem, ?_, ?_, c, ?_, ?_⟩
        · rw [hr.parent, hp.parent]
        · rw [hr.text]
          exact hp.text_ne
        · rw [hr.text, hp.rank]
        · rw [hr.text, hc]
        · rw [hr.lookup_children, hchild]
      children := by
        intro p hp c n hn
        rw [hr.lookup_children] at hn
        rw [hr.parent, hr.text]
        exact h.shape.children p hp c n hn }
  tenanted := by
    constructor
    · intro n hn h0
      obtain ⟨t, ht⟩ := h.tenanted.owned n hn h0
      exact ⟨t, (hr.mem_tenants n t).mpr ht⟩
    · intro n hn p hp t ht
      rw [hr.parent] at hp
      rw [hr.mem_tenants] at ht ⊢
      exact h.tenanted.inherit n hn p hp t ht
  count t := by
    have hcount : S'.charCount t = S.charCount t := by
      unfold charCount
      rw [AList.perm_lookup hr.counts]
    have hused : S'.usedSize tree t = S.usedSize tree t := by
      unfold usedSize share
      apply Finset.sum_congr rfl
      intro n _
      simp only [hr.mem_tenants, hr.text]
    rw [hcount, hused, h.count]
  entry t := by
    rw [AList.mem_of_perm hr.counts, hr.mem_tenants, h.entry]

/-- Every operation returns, and keeps the tree sound. -/
theorem applyOp_sound (h : S.Sound tree rank) (heap : EvictionHeap) (op : TreeOp) :
    ∃ S' tree' rank', S.applyOp heap op = some S' ∧ S'.Sound tree' rank' := by
  cases op with
  | insert text tenant now =>
    obtain ⟨S', tree', rank', hop, hsound, _⟩ := insert_sound h text tenant now
    exact ⟨S', tree', rank', hop, hsound⟩
  | prefixMatch text now =>
    obtain ⟨S', matched, tenant, hop, hsound, _⟩ := prefixMatch_sound h text now
    refine ⟨S', tree, rank, ?_, hsound⟩
    show (S.prefixMatch text now).map _ = _
    rw [hop]
    rfl
  | prefixMatchTenant text tenant now =>
    obtain ⟨S', matched, hop, hsound⟩ := prefixMatchTenant_sound h text tenant now
    refine ⟨S', tree, rank, ?_, hsound⟩
    show (S.prefixMatchTenant text tenant now).map _ = _
    rw [hop]
    rfl
  | evictTenantBySize maxSize =>
    obtain ⟨S', tree', hop, hsound, _⟩ := evictTenantBySize_sound heap h maxSize
    exact ⟨S', tree', rank, hop, hsound⟩
  | removeTenant tenant =>
    obtain ⟨S', tree', hop, hsound, _⟩ := removeTenant_sound h tenant
    exact ⟨S', tree', rank, hop, hsound⟩

theorem Run.sound (h : Run heap S) : ∃ tree rank, S.Sound tree rank := by
  induction h with
  | new => exact ⟨_, _, new_sound⟩
  | op _ op next ih =>
    obtain ⟨tree, rank, hsound⟩ := ih
    obtain ⟨S', tree', rank', hop, hsound'⟩ := applyOp_sound hsound heap op
    rw [hop] at next
    obtain rfl := Option.some.inj next
    exact ⟨tree', rank', hsound'⟩
  | reorder _ same ih =>
    obtain ⟨tree, rank, hsound⟩ := ih
    exact ⟨tree, rank, same.sound hsound⟩

/-- Every tenant of a node gets the characters of the node. -/
theorem addUsed_lookup {tenants : List String} (hnodup : tenants.Nodup) (chars : Nat)
    (used : DashMap String Nat) (t : String) :
    ((tenants.foldl (fun used tenant =>
      used.insert tenant ((used.lookup tenant).getD 0 + chars)) used).lookup t).getD 0 =
      (used.lookup t).getD 0 + if t ∈ tenants then chars else 0 := by
  induction tenants generalizing used with
  | nil => rfl
  | cons tenant tenants ih =>
    obtain ⟨hnot, hnodup⟩ := List.nodup_cons.mp hnodup
    rw [List.foldl_cons, ih hnodup]
    by_cases htt : t = tenant
    · subst htt
      rw [AList.lookup_insert, if_neg hnot, if_pos List.mem_cons_self]
      rfl
    · rw [AList.lookup_insert_ne htt]
      simp [htt]

theorem usedSizes_lookup (S : TenantTree) (nodes : List Nat) (used : DashMap String Nat)
    (t : String) :
    ((nodes.foldl (fun used n => (S.nodes n).tenantLastAccessTime.keys.foldl (fun used tenant =>
      used.insert tenant ((used.lookup tenant).getD 0 + (S.nodes n).text.length)) used)
        used).lookup t).getD 0 =
      (used.lookup t).getD 0 + (nodes.map (S.share t)).sum := by
  induction nodes generalizing used with
  | nil => rfl
  | cons n nodes ih =>
    rw [List.foldl_cons, ih, addUsed_lookup (AList.keys_nodup _), List.map_cons, List.sum_cons,
      ← Nat.add_assoc]
    simp only [share, AList.mem_keys]

theorem Sound.getUsedSizePerTenant (h : S.Sound tree rank) :
    ∃ used, S.getUsedSizePerTenant = some used ∧
      ∀ t, S.charCount t = (used.lookup t).getD 0 := by
  obtain ⟨nodes, hnodes, hnodup, hmem⟩ := h.shape.allNodes_spec
  refine ⟨_, Option.bind_eq_some_iff.mpr ⟨nodes, hnodes, rfl⟩, ?_⟩
  intro t
  have htree : tree = nodes.toFinset := by
    ext n
    rw [List.mem_toFinset, hmem]
  rw [usedSizes_lookup, AList.lookup_empty, h.count]
  unfold usedSize
  rw [htree, List.sum_toFinset _ hnodup]
  exact (Nat.zero_add _).symm

theorem Shape.reachable_mem (h : S.Shape tree rank) {n : Nat} (hn : S.Reachable n) : n ∈ tree := by
  induction hn with
  | root => exact h.root_mem
  | child _ edge ih => exact (h.children _ ih _ _ edge).1

theorem Shape.mem_reachable (h : S.Shape tree rank) {n : Nat} (hn : n ∈ tree) : S.Reachable n := by
  induction hk : rank n using Nat.strongRecOn generalizing n with
  | ind k ih =>
    subst hk
    by_cases h0 : n = 0
    · rw [h0]
      exact .root
    · obtain ⟨p, hp⟩ := h.hangs n hn h0
      obtain ⟨c, _, hchild⟩ := hp.child
      exact .child (ih _ hp.rank_lt hp.mem rfl) hchild

theorem Sound.wellFormed (h : S.Sound tree rank) : S.WellFormed where
  text_ne := by
    intro n hn h0
    obtain ⟨p, hp⟩ := h.shape.hangs n (h.shape.reachable_mem hn) h0
    exact hp.text_ne
  linked := by
    intro n hn h0
    obtain ⟨p, hp⟩ := h.shape.hangs n (h.shape.reachable_mem hn) h0
    obtain ⟨c, hc, hchild⟩ := hp.child
    exact ⟨p, c, h.shape.mem_reachable hp.mem, hp.parent, hc, hchild⟩
  children p c n hp hn := (h.shape.children p (h.shape.reachable_mem hp) c n hn).2.2
  owned n hn h0 := h.tenanted.owned n (h.shape.reachable_mem hn) h0
  inherit := by
    intro p c n hp hn t ht
    obtain ⟨hnt, _, hparent, _⟩ := h.shape.children p (h.shape.reachable_mem hp) c n hn
    exact h.tenanted.inherit n hnt p hparent t ht
  counts := h.getUsedSizePerTenant

/-- In every run the tree is well formed, and no operation panics on it: the counts never
underflow. -/
theorem run_wellFormed (h : Run heap S) :
    S.WellFormed ∧ ∀ op, ∃ S', S.applyOp heap op = some S' := by
  obtain ⟨tree, rank, hsound⟩ := h.sound
  refine ⟨hsound.wellFormed, ?_⟩
  intro op
  obtain ⟨S', _, _, hop, _⟩ := applyOp_sound hsound heap op
  exact ⟨S', hop⟩

/-- A heap that pops the first of the least entries. -/
def firstLeast : EvictionHeap where
  pop
    | [] => none
    | x :: xs =>
      (List.argmin (fun e => e.timestamp) (x :: xs)).map fun y => (y, (x :: xs).erase y)
  pop_nil := rfl
  pop_cons := by
    intro x xs
    cases hy : List.argmin (fun e : EvictionEntry => e.timestamp) (x :: xs) with
    | none => exact absurd (List.argmin_eq_none.mp hy) (List.cons_ne_nil x xs)
    | some y =>
      have hmem : y ∈ x :: xs := List.argmin_mem hy
      refine ⟨y, (x :: xs).erase y, by simp only [hy, Option.map_some],
        (List.perm_cons_erase hmem).symm, ?_⟩
      intro z hz
      exact List.le_of_mem_argmin (List.mem_of_mem_erase hz) hy

/-- Two tenants with texts that part after their first character. -/
def partedTexts : Option TenantTree :=
  (new.insert ['a', 'b'] "first" 1).bind fun S => S.insert ['a', 'c'] "second" 2

/-- The split node is one of both tenants. -/
theorem partedTexts_run : ∃ S, partedTexts = some S ∧ Run firstLeast S ∧
    (S.nodes 2).text = ['a'] ∧ "first" ∈ (S.nodes 2).tenantLastAccessTime ∧
      "second" ∈ (S.nodes 2).tenantLastAccessTime := by
  have hview : partedTexts.map (fun S => ((S.nodes 2).text,
      decide ("first" ∈ (S.nodes 2).tenantLastAccessTime),
      decide ("second" ∈ (S.nodes 2).tenantLastAccessTime))) = some (['a'], true, true) := by
    decide +kernel
  obtain ⟨S, hS, hview⟩ := Option.map_eq_some_iff.mp hview
  obtain ⟨htext, hview⟩ := Prod.mk.inj hview
  obtain ⟨hfirst, hsecond⟩ := Prod.mk.inj hview
  obtain ⟨S₁, h₁, h₂⟩ := Option.bind_eq_some_iff.mp hS
  have hrun : Run firstLeast S₁ := .op .new (.insert ['a', 'b'] "first" 1) h₁
  exact ⟨S, hS, .op hrun (.insert ['a', 'c'] "second" 2) h₂, htext, of_decide_eq_true hfirst,
    of_decide_eq_true hsecond⟩

theorem run_wellFormed_parted : ∃ S, partedTexts = some S ∧ S.WellFormed ∧
    ∀ op, ∃ S', S.applyOp firstLeast op = some S' := by
  obtain ⟨S, hS, hrun, _⟩ := partedTexts_run
  exact ⟨S, hS, run_wellFormed hrun⟩

end TenantTree

end FastPP
