import FastPP.Radix.Nodes
import Mathlib.Data.Finset.Insert

namespace FastPP

namespace RadixCache

variable {S S' : RadixCache} {tree : Finset Nat} {spell slots : Nat → List Nat}
  {child k p token : Nat} {key value : List Nat}

/-- The sequence `q` leads to the slot `s`, the last of its slots on a path. -/
def Leads (tree : Finset Nat) (spell slots : Nat → List Nat) (q : List Nat) (s : Nat) : Prop :=
  ∃ n ∈ tree, q ≠ [] ∧ q <+: spell n ∧ (slots n)[q.length - 1]? = some s

/-- The ghost data of the nodes that were there is kept. -/
structure Keeps (tree : Finset Nat) (spell slots : Nat → List Nat) (tree' : Finset Nat)
    (spell' slots' : Nat → List Nat) : Prop where
  mem : ∀ n ∈ tree, n ∈ tree'
  spell : ∀ n ∈ tree, spell' n = spell n
  slots : ∀ n ∈ tree, slots' n = slots n

theorem Keeps.rfl : Keeps tree spell slots tree spell slots :=
  ⟨fun _ hn => hn, fun _ _ => Eq.refl _, fun _ _ => Eq.refl _⟩

theorem Keeps.trans {tree₁ tree₂ : Finset Nat} {spell₁ slots₁ spell₂ slots₂ : Nat → List Nat}
    (h₁ : Keeps tree spell slots tree₁ spell₁ slots₁)
    (h₂ : Keeps tree₁ spell₁ slots₁ tree₂ spell₂ slots₂) :
    Keeps tree spell slots tree₂ spell₂ slots₂ where
  mem n hn := h₂.mem n (h₁.mem n hn)
  spell n hn := by rw [h₂.spell n (h₁.mem n hn), h₁.spell n hn]
  slots n hn := by rw [h₂.slots n (h₁.mem n hn), h₁.slots n hn]

theorem Shape.notMem_next (h : S.Shape tree spell slots) : S.nextNode ∉ tree := fun hm =>
  Nat.lt_irrefl _ (h.lt_next _ hm)

theorem Shape.ne_next (h : S.Shape tree spell slots) {n : Nat} (hn : n ∈ tree) :
    n ≠ S.nextNode :=
  fun e => h.notMem_next (e ▸ hn)

theorem keeps_insert (spell slots : Nat → List Nat) (ks vs : List Nat) {n : Nat}
    (hn : n ∉ tree) :
    Keeps tree spell slots (Insert.insert n tree) (Function.update spell n ks)
      (Function.update slots n vs) where
  mem _ hm := Finset.mem_insert_of_mem hm
  spell _ hm := Function.update_of_ne (ne_of_mem_of_not_mem hm hn) _ _
  slots _ hm := Function.update_of_ne (ne_of_mem_of_not_mem hm hn) _ _

section Split

variable (h : S.Shape tree spell slots) (hs : SplitAt S S' child k p)
  (hc : S.Hangs tree spell slots child p) (hct : child ∈ tree)

include h hs

theorem SplitAt.edge_same {n : Nat} (hn : n ∈ tree) (hne : n ≠ child) :
    (S'.nodes n).parent = (S.nodes n).parent ∧ (S'.nodes n).key = (S.nodes n).key ∧
      (S'.nodes n).value = (S.nodes n).value := by
  by_cases hnp : n = p
  · obtain ⟨first, _, ha⟩ := hs.above
    rw [hnp, ha]
    exact ⟨rfl, rfl, rfl⟩
  · rw [hs.others n (h.ne_next hn) hne hnp]
    exact ⟨rfl, rfl, rfl⟩

theorem SplitAt.children_same {n : Nat} (hn : n ∈ tree) (hne : n ≠ p) :
    (S'.nodes n).children = (S.nodes n).children := by
  by_cases hnc : n = child
  · rw [hnc, hs.lower]
  · rw [hs.others n (h.ne_next hn) hnc hne]

theorem SplitAt.lockRef_same {n : Nat} (hn : n ∈ tree) :
    (S'.nodes n).lockRef = (S.nodes n).lockRef := by
  by_cases hnc : n = child
  · rw [hnc, hs.lower]
  · by_cases hnp : n = p
    · obtain ⟨first, _, ha⟩ := hs.above
      rw [hnp, ha]
    · rw [hs.others n (h.ne_next hn) hnc hnp]

include hc

/-- The items of the parent: the new node stands in the child's place. -/
theorem SplitAt.mem_above {t c : Nat} (hmem : (t, c) ∈ (S'.nodes p).children) :
    ((S.nodes child).key.head? = some t ∧ c = S.nextNode) ∨
      (c ≠ child ∧ (t, c) ∈ (S.nodes p).children) := by
  obtain ⟨first, hfirst, ha⟩ := hs.above
  rw [ha] at hmem
  by_cases ht : t = first
  · subst ht
    exact .inl ⟨hfirst, (mem_setItem_self (h.keys p hc.mem)).mp hmem⟩
  · have hold := (mem_setItem_of_ne ht).mp hmem
    refine .inr ⟨?_, hold⟩
    rintro rfl
    have hhead := (h.children p hc.mem t c hold).2.2.2
    exact ht (Option.some.inj (hhead.symm.trans hfirst))

include hct

/-- A split keeps the shape; the new node ends at the split. -/
theorem Shape.split (hk0 : 0 < k) (hk : k < (S.nodes child).key.length) :
    S'.Shape (Insert.insert S.nextNode tree)
      (Function.update spell S.nextNode (spell p ++ (S.nodes child).key.take k))
      (Function.update slots S.nextNode (slots p ++ (S.nodes child).value.take k)) := by
  obtain ⟨tok, time, htok, hup⟩ := hs.upper
  obtain ⟨first, hfirst, ha⟩ := hs.above
  have hkeep := keeps_insert spell slots (spell p ++ (S.nodes child).key.take k)
    (slots p ++ (S.nodes child).value.take k) h.notMem_next
  have hnp : p ≠ S.nextNode := h.ne_next hc.mem
  have hnc : child ≠ S.nextNode := h.ne_next hct
  have hcp : child ≠ p := fun e => Nat.lt_irrefl _ (e ▸ hc.length_lt)
  have hc0 : child ≠ 0 := by
    rintro rfl
    have hlt := hc.length_lt
    rw [h.root_spell] at hlt
    simp at hlt
  have hhead : ∀ xs : List Nat, (xs.take k).head? = xs.head? := by
    intro xs
    cases xs with
    | nil => simp
    | cons x xs => obtain ⟨k', rfl⟩ := Nat.exists_eq_succ_of_ne_zero (by omega : k ≠ 0); rfl
  constructor
  · exact hkeep.mem 0 h.root_mem
  · rw [hkeep.spell 0 h.root_mem, h.root_spell]
  · rw [hkeep.slots 0 h.root_mem, h.root_slots]
  · rw [(hs.edge_same h h.root_mem hc0.symm).2.2, h.root_value]
  · intro n hn
    rw [hs.next]
    rcases Finset.mem_insert.mp hn with e | e
    · omega
    · have hlt := h.lt_next n e
      omega
  · intro n hn h0
    rcases Finset.mem_insert.mp hn with e | e
    · -- the new node
      subst e
      refine ⟨p, ?_, hkeep.mem p hc.mem, ?_, ?_, ?_, ?_, first, ?_, ?_⟩
      · rw [hup]
      · rw [hup]
        show (S.nodes child).key.take k ≠ []
        rw [← List.length_pos_iff, List.length_take]
        omega
      · rw [hup]
        simp [hc.value_length]
      · rw [hkeep.spell p hc.mem, hup, Function.update_self]
      · rw [hkeep.slots p hc.mem, hup, Function.update_self]
      · rw [hup]
        exact (hhead _).trans hfirst
      · rw [ha]
        exact (mem_setItem_self (h.keys p hc.mem)).mpr rfl
    · by_cases hnchild : n = child
      · -- the lower half of the child
        subst hnchild
        refine ⟨S.nextNode, ?_, Finset.mem_insert_self _ _, ?_, ?_, ?_, ?_, tok, ?_, ?_⟩
        · rw [hs.lower]
        · rw [hs.lower]
          show (S.nodes n).key.drop k ≠ []
          rw [← List.length_pos_iff, List.length_drop]
          omega
        · rw [hs.lower]
          simp [hc.value_length]
        · rw [hkeep.spell n hct, Function.update_self, hs.lower, hc.spell, List.append_assoc,
            List.take_append_drop]
        · rw [hkeep.slots n hct, Function.update_self, hs.lower, hc.slots, List.append_assoc,
            List.take_append_drop]
        · rw [hs.lower]
          show ((S.nodes n).key.drop k).head? = some tok
          rw [List.head?_drop, htok]
        · rw [hup]
          exact List.mem_singleton.mpr rfl
      · obtain ⟨q, hq⟩ := h.hangs n e h0
        obtain ⟨hpar, hkey, hval⟩ := hs.edge_same h e hnchild
        obtain ⟨t, ht, htc⟩ := hq.child
        refine ⟨q, ?_, hkeep.mem q hq.mem, ?_, ?_, ?_, ?_, t, ?_, ?_⟩
        · rw [hpar, hq.parent]
        · rw [hkey]
          exact hq.key_ne
        · rw [hkey, hval, hq.value_length]
        · rw [hkeep.spell n e, hkeep.spell q hq.mem, hkey, hq.spell]
        · rw [hkeep.slots n e, hkeep.slots q hq.mem, hval, hq.slots]
        · rw [hkey, ht]
        · by_cases hqp : q = p
          · subst hqp
            have htf : t ≠ first := by
              rintro rfl
              exact hnchild (h.sibling_eq hq hc (ht.trans hfirst.symm))
            rw [ha]
            exact (mem_setItem_of_ne htf).mpr htc
          · rw [hs.children_same h hq.mem hqp]
            exact htc
  · intro q hq t c htc
    rcases Finset.mem_insert.mp hq with e | e
    · subst e
      rw [hup] at htc
      obtain ⟨rfl, rfl⟩ := Prod.mk.inj (List.mem_singleton.mp htc)
      refine ⟨hkeep.mem _ hct, hc0, by rw [hs.lower], ?_⟩
      rw [hs.lower]
      show ((S.nodes c).key.drop k).head? = some t
      rw [List.head?_drop, htok]
    · have hold : ∀ {q}, q ∈ tree → c ≠ child → (t, c) ∈ (S.nodes q).children →
          c ∈ Insert.insert S.nextNode tree ∧ c ≠ 0 ∧ (S'.nodes c).parent = some q ∧
            (S'.nodes c).key.head? = some t := by
        intro q hq hne hmem
        obtain ⟨h1, h2, h3, h4⟩ := h.children q hq t c hmem
        obtain ⟨hpar, hkey, _⟩ := hs.edge_same h h1 hne
        exact ⟨hkeep.mem c h1, h2, by rw [hpar, h3], by rw [hkey, h4]⟩
      by_cases hqp : q = p
      · subst hqp
        rcases hs.mem_above h hc htc with ⟨ht, rfl⟩ | ⟨hne, hmem⟩
        · refine ⟨Finset.mem_insert_self _ _, ?_, by rw [hup], ?_⟩
          · have hlt := h.lt_next 0 h.root_mem
            omega
          · rw [hup]
            exact (hhead _).trans ht
        · exact hold e hne hmem
      · rw [hs.children_same h e hqp] at htc
        refine hold e ?_ htc
        rintro rfl
        have hpar := (h.children q e t c htc).2.2.1
        exact hqp (Option.some.inj (hpar.symm.trans hc.parent))
  · intro q hq
    rcases Finset.mem_insert.mp hq with e | e
    · subst e
      rw [hup]
      simp
    · by_cases hqp : q = p
      · subst hqp
        rw [ha]
        exact setItem_nodup (h.keys q e)
      · rw [hs.children_same h e hqp]
        exact h.keys q e

omit hs in
/-- A split leaves every sequence and its slot as they were. -/
theorem Shape.split_leads {seq : List Nat} {s : Nat} :
    Leads (Insert.insert S.nextNode tree)
      (Function.update spell S.nextNode (spell p ++ (S.nodes child).key.take k))
      (Function.update slots S.nextNode (slots p ++ (S.nodes child).value.take k)) seq s ↔
    Leads tree spell slots seq s := by
  have hkeep := keeps_insert spell slots (spell p ++ (S.nodes child).key.take k)
    (slots p ++ (S.nodes child).value.take k) h.notMem_next
  constructor
  · rintro ⟨n, hn, hnil, hpre, hslot⟩
    rcases Finset.mem_insert.mp hn with e | e
    · subst e
      rw [Function.update_self] at hpre hslot
      refine ⟨child, hct, hnil, ?_, ?_⟩
      · refine hpre.trans ?_
        rw [hc.spell, List.prefix_append_right_inj]
        exact List.take_prefix _ _
      · have hsl : slots p ++ (S.nodes child).value.take k <+: slots child := by
          rw [hc.slots, List.prefix_append_right_inj]
          exact List.take_prefix _ _
        obtain ⟨hlt, hv⟩ := List.getElem?_eq_some_iff.mp hslot
        rw [List.prefix_iff_getElem?.mp hsl _ hlt, hv]
    · rw [hkeep.spell n e] at hpre
      rw [hkeep.slots n e] at hslot
      exact ⟨n, e, hnil, hpre, hslot⟩
  · rintro ⟨n, hn, hnil, hpre, hslot⟩
    refine ⟨n, hkeep.mem n hn, hnil, ?_, ?_⟩
    · rwa [hkeep.spell n hn]
    · rwa [hkeep.slots n hn]

end Split

section Leaf

variable (h : S.Shape tree spell slots) (hl : LeafAt S S' p token key value) (hp : p ∈ tree)

include h hl

theorem LeafAt.edge_same {n : Nat} (hn : n ∈ tree) :
    (S'.nodes n).parent = (S.nodes n).parent ∧ (S'.nodes n).key = (S.nodes n).key ∧
      (S'.nodes n).value = (S.nodes n).value ∧ (S'.nodes n).lockRef = (S.nodes n).lockRef := by
  by_cases hnp : n = p
  · rw [hnp, hl.above]
    exact ⟨rfl, rfl, rfl, rfl⟩
  · rw [hl.others n (h.ne_next hn) hnp]
    exact ⟨rfl, rfl, rfl, rfl⟩

theorem LeafAt.children_same {n : Nat} (hn : n ∈ tree) (hne : n ≠ p) :
    (S'.nodes n).children = (S.nodes n).children := by
  rw [hl.others n (h.ne_next hn) hne]

include hp

theorem LeafAt.mem_above {t c : Nat} (hfree : ∀ c, (token, c) ∉ (S.nodes p).children) :
    (t, c) ∈ (S'.nodes p).children ↔
      (t = token ∧ c = S.nextNode) ∨ (t, c) ∈ (S.nodes p).children := by
  rw [hl.above]
  by_cases ht : t = token
  · subst ht
    simp only [mem_setItem_self (h.keys p hp), true_and]
    exact ⟨.inl, fun e => e.resolve_right (hfree c)⟩
  · simp only [mem_setItem_of_ne ht, ht, false_and, false_or]

/-- A new leaf keeps the shape. -/
theorem Shape.addLeaf (hfree : ∀ c, (token, c) ∉ (S.nodes p).children)
    (hhead : key.head? = some token) (hlen : value.length = key.length) :
    S'.Shape (Insert.insert S.nextNode tree) (Function.update spell S.nextNode (spell p ++ key))
      (Function.update slots S.nextNode (slots p ++ value)) := by
  obtain ⟨time, hleaf⟩ := hl.leaf
  have hkeep := keeps_insert spell slots (spell p ++ key) (slots p ++ value) h.notMem_next
  have hnext := h.lt_next 0 h.root_mem
  have hmem := fun t c => LeafAt.mem_above (t := t) (c := c) h hl hp hfree
  constructor
  · exact hkeep.mem 0 h.root_mem
  · rw [hkeep.spell 0 h.root_mem, h.root_spell]
  · rw [hkeep.slots 0 h.root_mem, h.root_slots]
  · rw [(hl.edge_same h h.root_mem).2.2.1, h.root_value]
  · intro n hn
    rw [hl.next]
    rcases Finset.mem_insert.mp hn with e | e
    · omega
    · have hlt := h.lt_next n e
      omega
  · intro n hn h0
    rcases Finset.mem_insert.mp hn with e | e
    · subst e
      refine ⟨p, by rw [hleaf], hkeep.mem p hp, ?_, ?_, ?_, ?_, token, ?_, ?_⟩
      · rw [hleaf]
        rintro rfl
        simp at hhead
      · rw [hleaf, hlen]
      · rw [hkeep.spell p hp, hleaf, Function.update_self]
      · rw [hkeep.slots p hp, hleaf, Function.update_self]
      · rw [hleaf, hhead]
      · exact (hmem _ _).mpr (.inl ⟨rfl, rfl⟩)
    · obtain ⟨q, hq⟩ := h.hangs n e h0
      obtain ⟨hpar, hkey, hval, _⟩ := hl.edge_same h e
      obtain ⟨t, ht, htc⟩ := hq.child
      refine ⟨q, ?_, hkeep.mem q hq.mem, ?_, ?_, ?_, ?_, t, ?_, ?_⟩
      · rw [hpar, hq.parent]
      · rw [hkey]
        exact hq.key_ne
      · rw [hkey, hval, hq.value_length]
      · rw [hkeep.spell n e, hkeep.spell q hq.mem, hkey, hq.spell]
      · rw [hkeep.slots n e, hkeep.slots q hq.mem, hval, hq.slots]
      · rw [hkey, ht]
      · by_cases hqp : q = p
        · subst hqp
          exact (hmem t n).mpr (.inr htc)
        · rw [hl.children_same h hq.mem hqp]
          exact htc
  · intro q hq t c htc
    rcases Finset.mem_insert.mp hq with e | e
    · subst e
      rw [hleaf] at htc
      simp at htc
    · have hold : (t, c) ∈ (S.nodes q).children → c ∈ Insert.insert S.nextNode tree ∧ c ≠ 0 ∧
          (S'.nodes c).parent = some q ∧ (S'.nodes c).key.head? = some t := by
        intro hin
        obtain ⟨h1, h2, h3, h4⟩ := h.children q e t c hin
        obtain ⟨hpar, hkey, _⟩ := hl.edge_same h h1
        exact ⟨hkeep.mem c h1, h2, by rw [hpar, h3], by rw [hkey, h4]⟩
      by_cases hqp : q = p
      · subst hqp
        rcases (hmem t c).mp htc with ⟨rfl, rfl⟩ | hin
        · exact ⟨Finset.mem_insert_self _ _, by omega, by rw [hleaf], by rw [hleaf, hhead]⟩
        · exact hold hin
      · rw [hl.children_same h e hqp] at htc
        exact hold htc
  · intro q hq
    rcases Finset.mem_insert.mp hq with e | e
    · subst e
      rw [hleaf]
      simp
    · by_cases hqp : q = p
      · subst hqp
        rw [hl.above]
        exact setItem_nodup (h.keys q e)
      · rw [hl.children_same h e hqp]
        exact h.keys q e

omit hl in
/-- A new leaf adds the sequences that end in its edge. -/
theorem Shape.addLeaf_leads {seq : List Nat} {s : Nat} :
    Leads (Insert.insert S.nextNode tree)
      (Function.update spell S.nextNode (spell p ++ key))
      (Function.update slots S.nextNode (slots p ++ value)) seq s ↔
    Leads tree spell slots seq s ∨ (seq <+: spell p ++ key ∧ (spell p).length < seq.length ∧
      value[seq.length - (spell p).length - 1]? = some s) := by
  have hkeep := keeps_insert spell slots (spell p ++ key) (slots p ++ value) h.notMem_next
  have hsl := h.slots_length hp
  constructor
  · rintro ⟨n, hn, hnil, hpre, hslot⟩
    rcases Finset.mem_insert.mp hn with e | e
    · subst e
      rw [Function.update_self] at hpre hslot
      by_cases hle : seq.length ≤ (spell p).length
      · left
        refine ⟨p, hp, hnil, ?_, ?_⟩
        · exact List.prefix_of_prefix_length_le hpre (List.prefix_append _ _) hle
        · have hpos := List.length_pos_iff.mpr hnil
          rwa [List.getElem?_append_left (by omega)] at hslot
      · right
        refine ⟨hpre, by omega, ?_⟩
        rw [List.getElem?_append_right (by omega), hsl] at hslot
        rw [← hslot]
        congr 1
        omega
    · rw [hkeep.spell n e] at hpre
      rw [hkeep.slots n e] at hslot
      exact .inl ⟨n, e, hnil, hpre, hslot⟩
  · rintro (⟨n, hn, hnil, hpre, hslot⟩ | ⟨hpre, hlt, hslot⟩)
    · refine ⟨n, hkeep.mem n hn, hnil, ?_, ?_⟩
      · rwa [hkeep.spell n hn]
      · rwa [hkeep.slots n hn]
    · refine ⟨S.nextNode, Finset.mem_insert_self _ _, ?_, ?_, ?_⟩
      · rintro rfl
        simp at hlt
      · rwa [Function.update_self]
      · rw [Function.update_self, List.getElem?_append_right (by omega), hsl, ← hslot]
        congr 1
        omega

end Leaf

end RadixCache

end FastPP
