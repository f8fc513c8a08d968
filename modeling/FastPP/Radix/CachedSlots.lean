import FastPP.Radix.Accounting
import Mathlib.Algebra.BigOperators.Group.Finset.Basic
import Mathlib.Algebra.Order.Group.Multiset
import Mathlib.Data.Multiset.AddSub

namespace FastPP

namespace RadixCache

/-- The slots of a node and of the nodes below it; the depth is bounded by `fuel`. -/
def slotsUnder (S : RadixCache) : Nat → Nat → List Nat
  | 0, _ => []
  | fuel + 1, node =>
    (S.nodes node).value ++ (S.nodes node).children.flatMap fun child => slotsUnder S fuel child.2

/-- The slots stored in the values of the tree. -/
def cachedSlots (S : RadixCache) : List Nat := S.slotsUnder S.nextNode 0

/-- `total_size`. -/
def totalSize (S : RadixCache) : Nat := S.cachedSlots.length

/-- The slots of the nodes of a tree, each as often as it is stored. -/
def slotsOf (S : RadixCache) (tree : Finset Nat) : Multiset Nat :=
  ∑ n ∈ tree, ((S.nodes n).value : Multiset Nat)

variable {S S' : RadixCache} {tree tree' : Finset Nat} {spell slots spell' slots' : Nat → List Nat}
  {locks : List Nat} {n child k p token fuel : Nat} {key value : List Nat}

/-- The nodes of a tree are given by the cache. -/
theorem Shape.tree_eq (h : S.Shape tree spell slots) (h' : S.Shape tree' spell' slots') :
    tree' = tree := by
  ext n
  rw [← h.inTree_iff, ← h'.inTree_iff]

theorem slotsOf_congr (h : ∀ n ∈ tree, (S'.nodes n).value = (S.nodes n).value) :
    S'.slotsOf tree = S.slotsOf tree :=
  Finset.sum_congr rfl fun n hn => by rw [h n hn]

/-- The two halves of an edge have its slots. -/
theorem SplitAt.slotsOf_eq (hs : SplitAt S S' child k p) (h : S.Shape tree spell slots)
    (hct : child ∈ tree) : S'.slotsOf (Insert.insert S.nextNode tree) = S.slotsOf tree := by
  obtain ⟨tok, time, _, hup⟩ := hs.upper
  unfold slotsOf
  rw [Finset.sum_insert h.notMem_next, ← Finset.add_sum_erase tree _ hct,
    ← Finset.add_sum_erase tree _ hct, ← add_assoc]
  congr 1
  · rw [hup, hs.lower, Multiset.coe_add, List.take_append_drop]
  · apply Finset.sum_congr rfl
    intro m hm
    rw [(hs.edge_same h (Finset.mem_of_mem_erase hm) (Finset.ne_of_mem_erase hm)).2.2]

theorem LeafAt.slotsOf_eq (hl : LeafAt S S' p token key value) (h : S.Shape tree spell slots) :
    S'.slotsOf (Insert.insert S.nextNode tree) = S.slotsOf tree + value := by
  obtain ⟨time, hleaf⟩ := hl.leaf
  unfold slotsOf
  rw [Finset.sum_insert h.notMem_next, hleaf, add_comm]
  congr 1
  apply Finset.sum_congr rfl
  intro m hm
  by_cases hmp : m = p
  · rw [hmp, hl.above]
  · rw [hl.others m (h.ne_next hm) hmp]

theorem Locked.cut_slots (h : S.Locked tree spell slots locks) (clock : Nat → Rat)
    (hn : n ∈ tree) (hc : (token, child) ∈ (S.nodes n).children)
    (hk : k < (S.nodes child).key.length)
    (hrun : S.splitNode clock child k = some (S', S.nextNode)) :
    S'.slotsOf (Insert.insert S.nextNode tree) = S.slotsOf tree := by
  have hh := h.shape.hangs_of_child hn hc
  have hct := (h.shape.children n hn token child hc).1
  have hcp : child ≠ n := fun e => Nat.lt_irrefl _ (e ▸ hh.length_lt)
  obtain ⟨S₁, hrun₁, hs⟩ := splitNode_spec clock hk hh.parent hcp (h.shape.ne_next hct)
    (h.shape.ne_next hn)
  obtain ⟨rfl, _⟩ := Prod.mk.inj (Option.some.inj (hrun.symm.trans hrun₁))
  exact hs.slotsOf_eq h.shape hct

theorem touch_slotsOf (clock : Nat → Rat) (n : Nat) (tree : Finset Nat) :
    (S.touch clock n).slotsOf tree = S.slotsOf tree :=
  slotsOf_congr fun m _ => (touch_same clock n m).value

/-- A match moves slots between nodes at most. -/
theorem matchPrefixHelper_slots (clock : Nat → Rat) {found found' : List Nat} {last last' : Nat}
    (h : S.Locked tree spell slots locks) (hn : n ∈ tree)
    (hrun : matchPrefixHelper clock fuel S n key found last = some (S', found', last'))
    (h' : S'.Locked tree' spell' slots' locks) : S'.slotsOf tree' = S.slotsOf tree := by
  induction fuel generalizing S tree spell slots n key found last with
  | zero => exact nomatch hrun
  | succ fuel ih =>
    have ht := h.touch clock n
    have hstop : some (S.touch clock n, found, last) = some (S', found', last') →
        S'.slotsOf tree' = S.slotsOf tree := by
      intro hrun
      obtain ⟨rfl, _⟩ := Prod.mk.inj (Option.some.inj hrun)
      rw [ht.shape.tree_eq h'.shape, touch_slotsOf]
    unfold matchPrefixHelper at hrun
    rcases key with _ | ⟨token, rest⟩
    · exact hstop hrun
    · simp only at hrun
      split at hrun
      next => exact hstop hrun
      next child hlook =>
        have hc := (lookup_eq_some (ht.shape.keys n hn)).mp hlook
        split at hrun
        next hk =>
          obtain ⟨⟨S₁, new⟩, hsplit, hrun⟩ := Option.bind_eq_some_iff.mp hrun
          obtain ⟨rfl, _⟩ := Prod.mk.inj (Option.some.inj hrun)
          obtain ⟨S₂, spell₂, slots₂, hsplit₂, h₂, _⟩ :=
            ht.cut clock hn hc (ht.shape.child_pos rest hn hc) hk
          cases hsplit.symm.trans hsplit₂
          rw [h₂.shape.tree_eq h'.shape, ht.cut_slots clock hn hc hk hsplit, touch_slotsOf]
        next =>
          have hct := (ht.shape.children n hn token child hc).1
          rw [ih ht hct hrun, touch_slotsOf]

/-- An insertion stores the slots of the tokens that were not there. -/
theorem insertHelper_slots (clock : Nat → Rat) {len : Nat}
    (h : S.Locked tree spell slots locks) (hn : n ∈ tree) (hvalue : value.length = key.length)
    (hrun : insertHelper clock fuel S n key value = some (S', len))
    (h' : S'.Locked tree' spell' slots' locks) :
    S'.slotsOf tree' = S.slotsOf tree + (value.drop len : List Nat) := by
  induction fuel generalizing S tree spell slots n key value len with
  | zero => exact nomatch hrun
  | succ fuel ih =>
    have ht := h.touch clock n
    unfold insertHelper at hrun
    rcases key with _ | ⟨token, rest⟩
    · obtain rfl := List.length_eq_zero_iff.mp hvalue
      obtain ⟨rfl, rfl⟩ := Prod.mk.inj (Option.some.inj hrun)
      rw [ht.shape.tree_eq h'.shape, touch_slotsOf]
      exact (add_zero _).symm
    · simp only at hrun
      split at hrun
      next hlook =>
        obtain ⟨rfl, rfl⟩ := Prod.mk.inj (Option.some.inj hrun)
        have hl := addLeaf_spec (S := S.touch clock n) clock token (token :: rest) value
          (ht.shape.ne_next hn)
        have hleaf := ht.addLeaf hl hn (fun c => lookup_eq_none hlook) rfl hvalue
        rw [hleaf.shape.tree_eq h'.shape, hl.slotsOf_eq ht.shape, touch_slotsOf]
        rfl
      next child hlook =>
        have hc := (lookup_eq_some (ht.shape.keys n hn)).mp hlook
        have hct := (ht.shape.children n hn token child hc).1
        have hkc := keyMatch_le_left ((S.touch clock n).nodes child).key (token :: rest)
        split at hrun
        next hk =>
          split at hrun
          next hkey =>
            obtain ⟨rfl, rfl⟩ := Prod.mk.inj (Option.some.inj hrun)
            rw [ht.shape.tree_eq h'.shape, touch_slotsOf, hkey, ← hvalue, List.drop_length]
            exact (add_zero _).symm
          next =>
            obtain ⟨⟨S₁, len₁⟩, hrest, hrun⟩ := Option.bind_eq_some_iff.mp hrun
            obtain ⟨rfl, rfl⟩ := Prod.mk.inj (Option.some.inj hrun)
            rw [ih ht hct (by rw [List.length_drop, List.length_drop, hvalue]) hrest,
              touch_slotsOf, List.drop_drop]
        next hk =>
          obtain ⟨⟨S₁, new⟩, hsplit, hrun⟩ := Option.bind_eq_some_iff.mp hrun
          obtain ⟨⟨S₂, len₂⟩, hrest, hrun⟩ := Option.bind_eq_some_iff.mp hrun
          obtain ⟨rfl, rfl⟩ := Prod.mk.inj (Option.some.inj hrun)
          have hlt : keyMatch ((S.touch clock n).nodes child).key (token :: rest) <
              ((S.touch clock n).nodes child).key.length := by omega
          obtain ⟨S₃, spell₃, slots₃, hsplit₃, h₃, _⟩ :=
            ht.cut clock hn hc (ht.shape.child_pos rest hn hc) hlt
          cases hsplit.symm.trans hsplit₃
          rw [ih h₃ (Finset.mem_insert_self _ _)
            (by rw [List.length_drop, List.length_drop, hvalue]) hrest,
            ht.cut_slots clock hn hc hlt hsplit, touch_slotsOf, List.drop_drop]

/-- Evicted nodes give their slots back. -/
theorem Evictions.slotsOf_eq {removed : List Nat} (h : Evictions S removed S')
    (hS : S.Shape tree spell slots) (hS' : S'.Shape tree' spell' slots') :
    S.slotsOf tree = S'.slotsOf tree' +
      ((removed.map fun x => (S.nodes x).value).flatten : List Nat) := by
  obtain ⟨hnodup, hin, hgone⟩ := h.gone
  have htree : tree = tree' ∪ removed.toFinset := by
    ext m
    rw [Finset.mem_union, ← hS.inTree_iff, ← hS'.inTree_iff, hgone, List.mem_toFinset]
    by_cases hm : m ∈ removed
    · exact ⟨fun _ => .inr hm, fun _ => hin m hm⟩
    · exact ⟨fun ht => .inl ⟨ht, hm⟩, fun ht => ht.elim And.left fun hr => absurd hr hm⟩
  have hdisjoint : Disjoint tree' removed.toFinset := by
    rw [Finset.disjoint_left]
    intro m hm hr
    exact ((hgone m).mp (hS'.inTree_iff.mpr hm)).2 (List.mem_toFinset.mp hr)
  have hremoved : ∑ n ∈ removed.toFinset, ((S.nodes n).value : Multiset Nat) =
      ((removed.map fun x => (S.nodes x).value).flatten : List Nat) := by
    rw [List.sum_toFinset _ hnodup]
    clear hnodup hin hgone htree hdisjoint h
    induction removed with
    | nil => rfl
    | cons x removed ih => rw [List.map_cons, List.sum_cons, ih, List.map_cons, List.flatten_cons]; rfl
  have hkept : S'.slotsOf tree' = S.slotsOf tree' :=
    slotsOf_congr fun n _ => h.value_eq n
  rw [hkept, ← hremoved]
  unfold slotsOf
  rw [htree, Finset.sum_union hdisjoint]

open Classical in
/-- The node and the nodes below it. -/
noncomputable def below (tree : Finset Nat) (spell : Nat → List Nat) (n : Nat) : Finset Nat :=
  tree.filter fun m => spell n <+: spell m

theorem Shape.below_eq (h : S.Shape tree spell slots) (hn : n ∈ tree) :
    below tree spell n = Insert.insert n
      (((S.nodes n).children.map Prod.snd).toFinset.biUnion (below tree spell)) := by
  classical
  ext m
  simp only [below, Finset.mem_filter, Finset.mem_insert, Finset.mem_biUnion, List.mem_toFinset,
    List.mem_map]
  constructor
  · rintro ⟨hm, hpre⟩
    rcases h.child_toward hn hm hpre with rfl | ⟨t, c, hc, hcm⟩
    · exact .inl rfl
    · exact .inr ⟨c, ⟨(t, c), hc, rfl⟩, hm, hcm⟩
  · rintro (rfl | ⟨c, ⟨⟨t, d⟩, hc, rfl⟩, hm, hcm⟩)
    · exact ⟨hn, List.prefix_rfl⟩
    · exact ⟨hm, (h.hangs_of_child hn hc).spell_le.trans hcm⟩

/-- The walk down from a node finds the slots of all nodes below it. -/
theorem Shape.slotsUnder_eq (h : S.Shape tree spell slots) (hn : n ∈ tree)
    (hfuel : ∀ m ∈ below tree spell n, depth tree spell m < depth tree spell n + fuel) :
    (S.slotsUnder fuel n : Multiset Nat) = S.slotsOf (below tree spell n) := by
  have hself : n ∈ below tree spell n := Finset.mem_filter.mpr ⟨hn, List.prefix_rfl⟩
  induction fuel generalizing n with
  | zero => exact absurd (hfuel n hself) (by omega)
  | succ fuel ih =>
    have hchild : ∀ child ∈ (S.nodes n).children, child.2 ∈ tree ∧
        S.Hangs tree spell slots child.2 n := fun child hc =>
      ⟨(h.children n hn child.1 child.2 hc).1, h.hangs_of_child hn hc⟩
    have hsibling : ∀ a ∈ (S.nodes n).children, ∀ b ∈ (S.nodes n).children, ∀ m,
        m ∈ below tree spell a.2 → m ∈ below tree spell b.2 → a = b := by
      intro a ha b hb m hma hmb
      have hsame := h.sibling_prefix (hchild a ha).2 (hchild a ha).1 (hchild b hb).2
        (hchild b hb).1 (Finset.mem_filter.mp hma).2 (Finset.mem_filter.mp hmb).2
      have hheada := (h.children n hn a.1 a.2 ha).2.2.2
      have hheadb := (h.children n hn b.1 b.2 hb).2.2.2
      rw [hsame] at hheada
      exact Prod.ext (Option.some.inj (hheada.symm.trans hheadb)) hsame
    have hnodup : ((S.nodes n).children.map Prod.snd).Nodup := by
      apply List.Nodup.map_on
      · intro a ha b hb hab
        have hat : a.2 ∈ below tree spell a.2 :=
          Finset.mem_filter.mpr ⟨(hchild a ha).1, List.prefix_rfl⟩
        exact hsibling a ha b hb a.2 hat (hab ▸ hat)
      · exact List.Nodup.of_map _ (h.keys n hn)
    have hsub : ∀ child ∈ (S.nodes n).children,
        (S.slotsUnder fuel child.2 : Multiset Nat) = S.slotsOf (below tree spell child.2) := by
      intro child hc
      obtain ⟨hct, hh⟩ := hchild child hc
      apply ih hct
      · intro m hm
        obtain ⟨hmt, hpre⟩ := Finset.mem_filter.mp hm
        have hlt := hfuel m (Finset.mem_filter.mpr ⟨hmt, hh.spell_le.trans hpre⟩)
        have hdepth := Hangs.depth_lt hct hh
        omega
      · exact Finset.mem_filter.mpr ⟨hct, List.prefix_rfl⟩
    have hnot : n ∉ ((S.nodes n).children.map Prod.snd).toFinset.biUnion (below tree spell) := by
      intro hmem
      obtain ⟨c, hc, hmc⟩ := Finset.mem_biUnion.mp hmem
      obtain ⟨child, hchildmem, rfl⟩ := List.mem_map.mp (List.mem_toFinset.mp hc)
      have hle := (Finset.mem_filter.mp hmc).2.length_le
      have hlt := (hchild child hchildmem).2.length_lt
      omega
    have hsum : ∀ items : List (Nat × Nat), (∀ child ∈ items, child ∈ (S.nodes n).children) →
        ((items.flatMap fun child => S.slotsUnder fuel child.2 : List Nat) : Multiset Nat) =
          ((items.map Prod.snd).map fun c => S.slotsOf (below tree spell c)).sum := by
      intro items hitems
      induction items with
      | nil => rfl
      | cons child items ihItems =>
        rw [List.flatMap_cons, ← Multiset.coe_add, hsub child (hitems child List.mem_cons_self),
          ihItems fun c hc => hitems c (List.mem_cons_of_mem _ hc)]
        rfl
    rw [slotsUnder, ← Multiset.coe_add, hsum _ fun child hc => hc, h.below_eq hn]
    unfold slotsOf
    rw [Finset.sum_insert hnot, Finset.sum_biUnion, List.sum_toFinset _ hnodup]
    intro c hc d hd hcd
    obtain ⟨a, ha, rfl⟩ := List.mem_map.mp (List.mem_toFinset.mp hc)
    obtain ⟨b, hb, rfl⟩ := List.mem_map.mp (List.mem_toFinset.mp hd)
    exact Finset.disjoint_left.mpr fun m hma hmb =>
      hcd (congrArg Prod.snd (hsibling a ha b hb m hma hmb))

theorem Shape.cachedSlots_eq (h : S.Shape tree spell slots) :
    (S.cachedSlots : Multiset Nat) = S.slotsOf tree := by
  have hbelow : below tree spell 0 = tree := by
    apply Finset.filter_true_of_mem
    intro m _
    rw [h.root_spell]
    exact List.nil_prefix
  unfold cachedSlots
  rw [h.slotsUnder_eq h.root_mem, hbelow]
  intro m _
  have hle := h.depth_le m
  have hpos : 0 < depth tree spell 0 :=
    Finset.card_pos.mpr ⟨0, Finset.mem_filter.mpr ⟨h.root_mem, List.prefix_rfl⟩⟩
  omega

end RadixCache

end FastPP
