import FastPP.Radix.Shape

namespace FastPP

section Items

variable {items : List (Nat × Nat)} {t u v w : Nat}

theorem setItem_keys_of_mem (h : t ∈ items.map Prod.fst) :
    (setItem items t v).map Prod.fst = items.map Prod.fst := by
  induction items with
  | nil => simp at h
  | cons item rest ih =>
    unfold setItem
    split
    next e => simp [e]
    next hne =>
      rw [List.map_cons, List.map_cons, ih]
      rcases List.mem_cons.mp h with e | e
      · exact absurd e.symm hne
      · exact e

theorem setItem_keys_of_notMem (h : t ∉ items.map Prod.fst) :
    setItem items t v = items ++ [(t, v)] := by
  induction items with
  | nil => rfl
  | cons item rest ih =>
    rw [List.map_cons, List.mem_cons, not_or] at h
    unfold setItem
    rw [if_neg fun e => h.1 e.symm, ih h.2, List.cons_append]

theorem mem_setItem_of_ne (hu : u ≠ t) :
    (u, w) ∈ setItem items t v ↔ (u, w) ∈ items := by
  induction items with
  | nil => simp [setItem, hu]
  | cons item rest ih =>
    unfold setItem
    split
    next e =>
      obtain ⟨a, b⟩ := item
      subst e
      simp [hu]
    next => simp [ih]

theorem mem_setItem_self (hnd : (items.map Prod.fst).Nodup) :
    (t, w) ∈ setItem items t v ↔ w = v := by
  induction items with
  | nil => simp [setItem]
  | cons item rest ih =>
    rw [List.map_cons, List.nodup_cons] at hnd
    unfold setItem
    split
    next e =>
      have hno : (t, w) ∉ rest := fun hm => hnd.1 (e ▸ List.mem_map_of_mem hm)
      simp [hno]
    next hne =>
      rw [List.mem_cons, ih hnd.2]
      constructor
      · rintro (e | e)
        · exact absurd (e ▸ rfl) hne
        · exact e
      · exact .inr

theorem setItem_nodup (hnd : (items.map Prod.fst).Nodup) :
    ((setItem items t v).map Prod.fst).Nodup := by
  by_cases ht : t ∈ items.map Prod.fst
  · rwa [setItem_keys_of_mem ht]
  · rw [setItem_keys_of_notMem ht, List.map_append, List.map_singleton, List.nodup_append]
    refine ⟨hnd, by simp, ?_⟩
    intro a ha b hb
    rw [List.mem_singleton] at hb
    rintro rfl
    rw [hb] at ha
    exact ht ha

theorem lookup_eq_some (hnd : (items.map Prod.fst).Nodup) :
    items.lookup t = some v ↔ (t, v) ∈ items := by
  induction items with
  | nil => simp
  | cons item rest ih =>
    rw [List.map_cons, List.nodup_cons] at hnd
    obtain ⟨a, b⟩ := item
    by_cases hta : t = a
    · subst hta
      have hno : (t, v) ∉ rest := fun hm => hnd.1 (List.mem_map.mpr ⟨_, hm, rfl⟩)
      simp [hno, eq_comm]
    · rw [List.lookup_cons, beq_eq_false_iff_ne.mpr hta, ih hnd.2]
      simp [hta]

theorem lookup_eq_none (h : items.lookup t = none) : (t, v) ∉ items := by
  intro hm
  have h' := List.lookup_eq_none_iff.mp h _ hm
  simp at h'

end Items

namespace RadixCache

/-- The two nodes differ in their locks and times at most. -/
structure SameNode (a b : TreeNode) : Prop where
  children : b.children = a.children
  parent : b.parent = a.parent
  key : b.key = a.key
  value : b.value = a.value

theorem SameNode.rfl {a : TreeNode} : SameNode a a := ⟨Eq.refl _, Eq.refl _, Eq.refl _, Eq.refl _⟩

theorem SameNode.symm {a b : TreeNode} (h : SameNode a b) : SameNode b a where
  children := h.children.symm
  parent := h.parent.symm
  key := h.key.symm
  value := h.value.symm

theorem SameNode.trans {a b c : TreeNode} (h : SameNode a b) (h' : SameNode b c) :
    SameNode a c where
  children := h'.children.trans h.children
  parent := h'.parent.trans h.parent
  key := h'.key.trans h.key
  value := h'.value.trans h.value

variable {S S' : RadixCache} {tree : Finset Nat} {spell slots : Nat → List Nat}

theorem Shape.congr (h : S.Shape tree spell slots) (hnext : S.nextNode ≤ S'.nextNode)
    (hsame : ∀ n, SameNode (S.nodes n) (S'.nodes n)) : S'.Shape tree spell slots where
  root_mem := h.root_mem
  root_spell := h.root_spell
  root_slots := h.root_slots
  root_value := by rw [(hsame 0).value, h.root_value]
  lt_next n hn := Nat.lt_of_lt_of_le (h.lt_next n hn) hnext
  hangs := by
    intro n hn h0
    obtain ⟨p, hp⟩ := h.hangs n hn h0
    refine ⟨p, ?_, hp.mem, ?_, ?_, ?_, ?_, ?_⟩
    · rw [(hsame n).parent, hp.parent]
    · rw [(hsame n).key]
      exact hp.key_ne
    · rw [(hsame n).key, (hsame n).value, hp.value_length]
    · rw [(hsame n).key, hp.spell]
    · rw [(hsame n).value, hp.slots]
    · rw [(hsame n).key, (hsame p).children]
      exact hp.child
  children := by
    intro p hp t c hc
    rw [(hsame p).children] at hc
    rw [(hsame c).parent, (hsame c).key]
    exact h.children p hp t c hc
  keys := by
    intro p hp
    rw [(hsame p).children]
    exact h.keys p hp

/-- What `_split_node` leaves behind: node `S.nextNode` has the first `k` tokens of the
child, the child the others. -/
structure SplitAt (S S' : RadixCache) (child k p : Nat) : Prop where
  next : S'.nextNode = S.nextNode + 1
  size : S'.evictableSize = S.evictableSize
  upper : ∃ tok time, (S.nodes child).key[k]? = some tok ∧ S'.nodes S.nextNode =
    ⟨[(tok, child)], some p, (S.nodes child).key.take k, (S.nodes child).value.take k,
      (S.nodes child).lockRef, time⟩
  lower : S'.nodes child = { S.nodes child with
    parent := some S.nextNode
    key := (S.nodes child).key.drop k
    value := (S.nodes child).value.drop k }
  above : ∃ first, (S.nodes child).key.head? = some first ∧ S'.nodes p = { S.nodes p with
    children := setItem (S.nodes p).children first S.nextNode }
  others : ∀ n, n ≠ S.nextNode → n ≠ child → n ≠ p → S'.nodes n = S.nodes n

theorem splitNode_spec (clock : Nat → Rat) {child k p : Nat}
    (hk : k < (S.nodes child).key.length) (hp : (S.nodes child).parent = some p)
    (hcp : child ≠ p) (hc : child ≠ S.nextNode) (hpn : p ≠ S.nextNode) :
    ∃ S', S.splitNode clock child k = some (S', S.nextNode) ∧ SplitAt S S' child k p := by
  obtain ⟨tok, htok⟩ : ∃ tok, (S.nodes child).key[k]? = some tok :=
    ⟨_, List.getElem?_eq_getElem hk⟩
  obtain ⟨first, hfirst⟩ : ∃ first, (S.nodes child).key[0]? = some first :=
    ⟨_, List.getElem?_eq_getElem (by omega)⟩
  have hcn : (S.allocNode clock).nodes child = S.nodes child := by
    simp [allocNode, Function.update_of_ne hc]
  have heq : S.splitNode clock child k = some (
      (((S.allocNode clock).setNode S.nextNode ⟨[(tok, child)], some p,
        (S.nodes child).key.take k, (S.nodes child).value.take k, (S.nodes child).lockRef,
        clock S.reads⟩).setNode child { S.nodes child with
          parent := some S.nextNode
          key := (S.nodes child).key.drop k
          value := (S.nodes child).value.drop k }).setNode p { S.nodes p with
          children := setItem (S.nodes p).children first S.nextNode }, S.nextNode) := by
    unfold splitNode
    simp only [hcn, htok, hfirst, hp, Option.bind_eq_bind, Option.bind_some, Option.pure_def]
    simp [setNode, allocNode, TreeNode.new, Function.update_of_ne hc, Function.update_of_ne hcp.symm,
      Function.update_of_ne hpn]
  refine ⟨_, heq, ?_⟩
  · constructor
    · rfl
    · rfl
    · refine ⟨tok, clock S.reads, htok, ?_⟩
      simp [setNode, Function.update_of_ne hc.symm, Function.update_of_ne hpn.symm]
    · simp [setNode, Function.update_of_ne hcp]
    · refine ⟨first, by rw [List.head?_eq_getElem?, hfirst], ?_⟩
      simp [setNode]
    · intro n h1 h2 h3
      simp [setNode, allocNode, Function.update_of_ne h1, Function.update_of_ne h2,
        Function.update_of_ne h3]

/-- What the end of `_insert_helper` leaves behind: node `S.nextNode` is a new leaf. -/
structure LeafAt (S S' : RadixCache) (p token : Nat) (key value : List Nat) : Prop where
  next : S'.nextNode = S.nextNode + 1
  size : S'.evictableSize = S.evictableSize + value.length
  leaf : ∃ time, S'.nodes S.nextNode = ⟨[], some p, key, value, 0, time⟩
  above : S'.nodes p = { S.nodes p with
    children := setItem (S.nodes p).children token S.nextNode }
  others : ∀ n, n ≠ S.nextNode → n ≠ p → S'.nodes n = S.nodes n

theorem addLeaf_spec (clock : Nat → Rat) {p : Nat} (token : Nat) (key value : List Nat)
    (hp : p ≠ S.nextNode) : LeafAt S (S.addLeaf clock p token key value) p token key value where
  next := rfl
  size := rfl
  leaf := ⟨clock S.reads, by
    simp [addLeaf, setNode, allocNode, TreeNode.new, Function.update_of_ne hp.symm]⟩
  above := by simp [addLeaf, setNode, allocNode, Function.update_of_ne hp]
  others := by
    intro n h1 h2
    simp [addLeaf, setNode, allocNode, Function.update_of_ne h1, Function.update_of_ne h2]

theorem touch_same (clock : Nat → Rat) (n m : Nat) :
    SameNode (S.nodes m) ((S.touch clock n).nodes m) := by
  by_cases hmn : m = n
  · subst hmn
    constructor <;> simp [touch, setNode]
  · simp only [touch, setNode, Function.update_of_ne hmn]
    exact .rfl

theorem touch_lockRef (clock : Nat → Rat) (n m : Nat) :
    ((S.touch clock n).nodes m).lockRef = (S.nodes m).lockRef := by
  by_cases hmn : m = n
  · subst hmn
    simp [touch, setNode]
  · simp [touch, setNode, Function.update_of_ne hmn]

end RadixCache

end FastPP
