import FastPP.Routing.TenantTree
import Mathlib.Algebra.BigOperators.Group.Finset.Basic
import Mathlib.Tactic.Common

namespace FastPP

theorem sharedPrefixCount_le (as bs : List Char) : sharedPrefixCount as bs ≤ as.length := by
  induction as generalizing bs with
  | nil => simp [sharedPrefixCount]
  | cons a as ih =>
    cases bs with
    | nil => simp [sharedPrefixCount]
    | cons b bs =>
      have h := ih bs
      unfold sharedPrefixCount
      split
      · simpa using h
      · simp

theorem sharedPrefixCount_pos {as bs : List Char} {c : Char} (ha : as.head? = some c)
    (hb : bs.head? = some c) : 0 < sharedPrefixCount as bs := by
  cases as with
  | nil => simp at ha
  | cons a as =>
    cases bs with
    | nil => simp at hb
    | cons b bs =>
      obtain rfl : a = c := Option.some.inj ha
      obtain rfl : b = a := Option.some.inj hb
      simp [sharedPrefixCount]

namespace DashMap

variable {K V : Type} [DecidableEq K] {map : DashMap K V} {k : K} {v : V}

theorem mem_values : v ∈ map.values ↔ ∃ k, map.lookup k = some v := by
  unfold values
  rw [List.mem_map]
  constructor
  · rintro ⟨entry, hentry, rfl⟩
    exact ⟨entry.1, AList.mem_lookup_iff.mpr hentry⟩
  · rintro ⟨k, hk⟩
    exact ⟨⟨k, v⟩, AList.mem_lookup_iff.mp hk, rfl⟩

/-- A value that tells its key stands once. -/
theorem values_nodup (key : V → Option K) (h : ∀ k v, map.lookup k = some v → key v = some k) :
    map.values.Nodup := by
  have hkeys : map.keys.Nodup := map.keys_nodup
  have hentries : map.entries.Nodup := List.Nodup.of_map _ hkeys
  apply hentries.map_on
  intro a ha b hb hab
  have hka := h a.1 a.2 (AList.mem_lookup_iff.mpr ha)
  have hkb := h b.1 b.2 (AList.mem_lookup_iff.mpr hb)
  rw [hab] at hka
  have hkey : a.1 = b.1 := Option.some.inj (hka.symm.trans hkb)
  obtain ⟨ka, va⟩ := a
  obtain ⟨kb, vb⟩ := b
  obtain rfl : ka = kb := hkey
  obtain rfl : va = vb := hab
  rfl

theorem eq_empty_of_forall (h : ∀ k, map.lookup k = none) : map = ∅ := by
  apply AList.ext
  cases hentries : map.entries with
  | nil => rfl
  | cons entry rest =>
    have hmem : entry ∈ map.entries := by
      rw [hentries]
      exact List.mem_cons_self
    have hsome := AList.mem_lookup_iff.mpr hmem
    rw [h entry.1] at hsome
    cases hsome

theorem exists_mem_of_ne_empty (h : map ≠ ∅) : ∃ k, k ∈ map := by
  by_contra hno
  apply h
  apply eq_empty_of_forall
  intro k
  exact AList.lookup_eq_none.mpr fun hk => hno ⟨k, hk⟩

end DashMap

namespace TenantTree

/-- Node `n` hangs under `p`; the rank of a node is the length of the text down to it. -/
structure Hangs (S : TenantTree) (tree : Finset Nat) (rank : Nat → Nat) (n p : Nat) : Prop where
  parent : (S.nodes n).parent = some p
  mem : p ∈ tree
  text_ne : (S.nodes n).text ≠ []
  rank : rank n = rank p + (S.nodes n).text.length
  child : ∃ c, (S.nodes n).text.head? = some c ∧ (S.nodes p).children.lookup c = some n

/-- The nodes of `tree` are those that hang below the root. -/
structure Shape (S : TenantTree) (tree : Finset Nat) (rank : Nat → Nat) : Prop where
  root_mem : 0 ∈ tree
  root_text : (S.nodes 0).text = []
  root_parent : (S.nodes 0).parent = none
  lt_next : ∀ n ∈ tree, n < S.nextNode
  hangs : ∀ n ∈ tree, n ≠ 0 → ∃ p, S.Hangs tree rank n p
  children : ∀ p ∈ tree, ∀ c n, (S.nodes p).children.lookup c = some n → n ∈ tree ∧ n ≠ 0 ∧
    (S.nodes n).parent = some p ∧ (S.nodes n).text.head? = some c

variable {S S' : TenantTree} {tree : Finset Nat} {rank : Nat → Nat} {n m p : Nat}

theorem Hangs.rank_lt (h : S.Hangs tree rank n p) : rank p < rank n := by
  have hpos := List.length_pos_iff.mpr h.text_ne
  rw [h.rank]
  omega

namespace Shape

variable (h : S.Shape tree rank)

include h

theorem hangs_of_parent (hn : n ∈ tree) (hp : (S.nodes n).parent = some p) :
    S.Hangs tree rank n p := by
  have h0 : n ≠ 0 := by
    rintro rfl
    rw [h.root_parent] at hp
    cases hp
  obtain ⟨p', h'⟩ := h.hangs n hn h0
  obtain rfl := Option.some.inj (h'.parent.symm.trans hp)
  exact h'

theorem notMem_next : S.nextNode ∉ tree := fun hm => Nat.lt_irrefl _ (h.lt_next _ hm)

theorem ne_next (hn : n ∈ tree) : n ≠ S.nextNode := Nat.ne_of_lt (h.lt_next n hn)

theorem card_le : tree.card ≤ S.nextNode := by
  rw [← Finset.card_range S.nextNode]
  apply Finset.card_le_card
  intro n hn
  exact Finset.mem_range.mpr (h.lt_next n hn)

theorem rooted : StackWalk.Rooted (fun n => (S.nodes n).children.values) tree 0
    (fun n => (S.nodes n).parent) rank where
  root_mem := h.root_mem
  child := by
    intro p hp c hc
    obtain ⟨k, hk⟩ := DashMap.mem_values.mp hc
    obtain ⟨hct, hc0, hparent, _⟩ := h.children p hp k c hk
    exact ⟨hct, hc0, hparent⟩
  nodup := by
    intro p hp
    exact DashMap.values_nodup (fun n => (S.nodes n).text.head?)
      fun c n hn => (h.children p hp c n hn).2.2.2
  above := by
    intro n hn h0
    obtain ⟨p, hp⟩ := h.hangs n hn h0
    obtain ⟨c, _, hc⟩ := hp.child
    exact ⟨p, hp.mem, DashMap.mem_values.mpr ⟨c, hc⟩, hp.rank_lt⟩

/-- The walks visit every node once. -/
theorem allNodes_spec :
    ∃ nodes, S.allNodes = some nodes ∧ nodes.Nodup ∧ ∀ n, n ∈ nodes ↔ n ∈ tree :=
  StackWalk.walk_root h.rooted h.card_le

end Shape

/-- The two nodes differ in their tenants at most. -/
structure SameNode (a b : TenantNode) : Prop where
  children : b.children = a.children
  text : b.text = a.text
  parent : b.parent = a.parent

theorem Shape.congr (h : S.Shape tree rank) (hnext : S'.nextNode = S.nextNode)
    (hsame : ∀ n, SameNode (S.nodes n) (S'.nodes n)) : S'.Shape tree rank where
  root_mem := h.root_mem
  root_text := by rw [(hsame 0).text, h.root_text]
  root_parent := by rw [(hsame 0).parent, h.root_parent]
  lt_next n hn := hnext ▸ h.lt_next n hn
  hangs := by
    intro n hn h0
    obtain ⟨p, hp⟩ := h.hangs n hn h0
    refine ⟨p, ?_, hp.mem, ?_, ?_, ?_⟩
    · rw [(hsame n).parent, hp.parent]
    · rw [(hsame n).text]
      exact hp.text_ne
    · rw [(hsame n).text, hp.rank]
    · rw [(hsame n).text, (hsame p).children]
      exact hp.child
  children := by
    intro p hp c n hn
    rw [(hsame p).children] at hn
    rw [(hsame n).parent, (hsame n).text]
    exact h.children p hp c n hn

/-- The tenants of a node are tenants of its parent, and only the root may have none. -/
structure Tenanted (S : TenantTree) (tree : Finset Nat) : Prop where
  owned : ∀ n ∈ tree, n ≠ 0 → ∃ t, t ∈ (S.nodes n).tenantLastAccessTime
  inherit : ∀ n ∈ tree, ∀ p, (S.nodes n).parent = some p →
    ∀ t ∈ (S.nodes n).tenantLastAccessTime, t ∈ (S.nodes p).tenantLastAccessTime

/-- The characters of a node that count for a tenant. -/
def share (S : TenantTree) (t : String) (n : Nat) : Nat :=
  if t ∈ (S.nodes n).tenantLastAccessTime then (S.nodes n).text.length else 0

/-- The characters of the nodes that a tenant has. -/
def usedSize (S : TenantTree) (tree : Finset Nat) (t : String) : Nat := ∑ n ∈ tree, S.share t n

/-- The count of a tenant, 0 without an entry. -/
def charCount (S : TenantTree) (t : String) : Nat := (S.tenantCharCount.lookup t).getD 0

/-- The invariant of the tree: its shape, its tenants, and their counts. -/
structure Sound (S : TenantTree) (tree : Finset Nat) (rank : Nat → Nat) : Prop where
  shape : S.Shape tree rank
  tenanted : S.Tenanted tree
  count : ∀ t, S.charCount t = S.usedSize tree t
  entry : ∀ t, t ∈ S.tenantCharCount ↔ t ∈ (S.nodes 0).tenantLastAccessTime

theorem new_sound : new.Sound {0} (fun _ => 0) where
  shape :=
    { root_mem := Finset.mem_singleton.mpr rfl
      root_text := rfl
      root_parent := rfl
      lt_next := by
        intro n hn
        rw [Finset.mem_singleton.mp hn]
        exact Nat.zero_lt_one
      hangs := fun n hn h0 => absurd (Finset.mem_singleton.mp hn) h0
      children := by
        intro p _ c n hn
        cases hn }
  tenanted := ⟨fun n hn h0 => absurd (Finset.mem_singleton.mp hn) h0, by
    intro n _ p hp
    cases hp⟩
  count t := by
    unfold usedSize
    rw [Finset.sum_singleton]
    rfl
  entry t := Iff.rfl

namespace Sound

variable (h : S.Sound tree rank)

include h

/-- Every tenant of the tree is a tenant of the root. -/
theorem tenant_root (hn : n ∈ tree) {t : String} (ht : t ∈ (S.nodes n).tenantLastAccessTime) :
    t ∈ (S.nodes 0).tenantLastAccessTime := by
  induction hk : rank n using Nat.strongRecOn generalizing n with
  | ind k ih =>
    subst hk
    by_cases h0 : n = 0
    · rwa [h0] at ht
    · obtain ⟨p, hp⟩ := h.shape.hangs n hn h0
      exact ih _ hp.rank_lt hp.mem (h.tenanted.inherit n hn p hp.parent t ht) rfl

end Sound

end TenantTree

end FastPP
