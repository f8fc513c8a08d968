import FastPP.Radix.Insertion
import Mathlib.Data.List.Nodup

namespace FastPP

namespace RadixCache

variable {S S' : RadixCache} {tree : Finset Nat} {spell slots : Nat → List Nat}
  {locks leaves : List Nat} {n m p x : Nat}

section Delete

theorem deleteLeaf_other (hne : n ≠ p) : (S.deleteLeaf x p).nodes n = S.nodes n := by
  simp [deleteLeaf, setNode, Function.update_of_ne hne]

theorem deleteLeaf_children : ((S.deleteLeaf x p).nodes p).children =
    (S.nodes p).children.eraseP fun child => child.2 = x := by
  simp [deleteLeaf, setNode]

theorem deleteLeaf_edge (n : Nat) :
    ((S.deleteLeaf x p).nodes n).parent = (S.nodes n).parent ∧
      ((S.deleteLeaf x p).nodes n).key = (S.nodes n).key ∧
      ((S.deleteLeaf x p).nodes n).value = (S.nodes n).value ∧
      ((S.deleteLeaf x p).nodes n).lockRef = (S.nodes n).lockRef := by
  by_cases hne : n = p
  · subst hne
    simp [deleteLeaf, setNode]
  · rw [deleteLeaf_other hne]
    exact ⟨rfl, rfl, rfl, rfl⟩

theorem Shape.mem_deleteLeaf (h : S.Shape tree spell slots) (hx : S.Hangs tree spell slots x p)
    {t c : Nat} : (t, c) ∈ ((S.deleteLeaf x p).nodes p).children ↔
      c ≠ x ∧ (t, c) ∈ (S.nodes p).children := by
  rw [deleteLeaf_children]
  obtain ⟨u, hu, hux⟩ := hx.child
  constructor
  · intro hmem
    have hold := List.mem_of_mem_eraseP hmem
    refine ⟨?_, hold⟩
    rintro rfl
    -- the item of the node is the only one with its token
    have htu : t = u :=
      Option.some.inj ((h.children p hx.mem t c hold).2.2.2.symm.trans hu)
    subst htu
    obtain ⟨a, front, back, hfront, ha, heq, herase⟩ :=
      List.exists_of_eraseP (p := fun child : Nat × Nat => child.2 = c) hux (by simp)
    rw [herase] at hmem
    have hnd := h.keys p hx.mem
    have hat : a = (t, c) := by
      have hca : a.2 = c := by simpa using ha
      have hin : (a.1, c) ∈ (S.nodes p).children := by
        rw [heq, ← hca]
        simp
      have hat := (h.children p hx.mem a.1 c hin).2.2.2
      exact Prod.ext (Option.some.inj (hat.symm.trans hu)) hca
    rw [heq, hat, List.map_append, List.map_cons, List.nodup_middle] at hnd
    apply (List.nodup_cons.mp hnd).1
    rw [← List.map_append]
    exact List.mem_map.mpr ⟨_, hmem, rfl⟩
  · rintro ⟨hne, hmem⟩
    exact (List.mem_eraseP_of_neg (by simpa using hne)).mpr hmem

theorem Shape.deleteLeaf (h : S.Shape tree spell slots) (hx : S.Hangs tree spell slots x p)
    (hleaf : (S.nodes x).children = []) :
    (S.deleteLeaf x p).Shape (tree.erase x) spell slots := by
  have hx0 : x ≠ 0 := by
    rintro rfl
    have hlt := hx.length_lt
    rw [h.root_spell] at hlt
    simp at hlt
  have hchild : ∀ q ∈ tree, ∀ t c, (t, c) ∈ ((S.deleteLeaf x p).nodes q).children →
      c ≠ x ∧ (t, c) ∈ (S.nodes q).children := by
    intro q hq t c hc
    by_cases hqp : q = p
    · subst hqp
      exact (h.mem_deleteLeaf hx).mp hc
    · rw [deleteLeaf_other hqp] at hc
      refine ⟨?_, hc⟩
      rintro rfl
      have hpar := (h.children q hq t c hc).2.2.1
      exact hqp (Option.some.inj (hpar.symm.trans hx.parent))
  constructor
  · exact Finset.mem_erase.mpr ⟨hx0.symm, h.root_mem⟩
  · exact h.root_spell
  · exact h.root_slots
  · rw [(deleteLeaf_edge 0).2.2.1, h.root_value]
  · exact fun n hn => h.lt_next n (Finset.mem_of_mem_erase hn)
  · intro n hn h0
    obtain ⟨q, hq⟩ := h.hangs n (Finset.mem_of_mem_erase hn) h0
    obtain ⟨hpar, hkey, hval, _⟩ := deleteLeaf_edge (S := S) (x := x) (p := p) n
    obtain ⟨t, ht, htc⟩ := hq.child
    have hqx : q ≠ x := by
      rintro rfl
      rw [hleaf] at htc
      simp at htc
    refine ⟨q, ?_, Finset.mem_erase.mpr ⟨hqx, hq.mem⟩, ?_, ?_, ?_, ?_, t, ?_, ?_⟩
    · rw [hpar, hq.parent]
    · rw [hkey]
      exact hq.key_ne
    · rw [hkey, hval, hq.value_length]
    · rw [hkey, hq.spell]
    · rw [hval, hq.slots]
    · rw [hkey, ht]
    · by_cases hqp : q = p
      · subst hqp
        exact (h.mem_deleteLeaf hx).mpr ⟨Finset.ne_of_mem_erase hn, htc⟩
      · rwa [deleteLeaf_other hqp]
  · intro q hq t c hc
    obtain ⟨hcx, hold⟩ := hchild q (Finset.mem_of_mem_erase hq) t c hc
    obtain ⟨h1, h2, h3, h4⟩ := h.children q (Finset.mem_of_mem_erase hq) t c hold
    obtain ⟨hpar, hkey, _⟩ := deleteLeaf_edge (S := S) (x := x) (p := p) c
    exact ⟨Finset.mem_erase.mpr ⟨hcx, h1⟩, h2, by rw [hpar, h3], by rw [hkey, h4]⟩
  · intro q hq
    have hnd := h.keys q (Finset.mem_of_mem_erase hq)
    by_cases hqp : q = p
    · subst hqp
      rw [deleteLeaf_children]
      exact hnd.sublist (List.eraseP_sublist.map _)
    · rwa [deleteLeaf_other hqp]

theorem Locked.deleteLeaf (h : S.Locked tree spell slots locks)
    (hx : S.Hangs tree spell slots x p) (hxt : x ∈ tree) (hleaf : (S.nodes x).children = [])
    (hfree : (S.nodes x).lockRef = 0) :
    (S.deleteLeaf x p).Locked (tree.erase x) spell slots locks := by
  have hx0 : x ≠ 0 := by
    rintro rfl
    have hlt := hx.length_lt
    rw [h.shape.root_spell] at hlt
    simp at hlt
  refine ⟨h.shape.deleteLeaf hx hleaf, ?_, ?_, ?_⟩
  · intro l hl
    refine Finset.mem_erase.mpr ⟨?_, h.locks_mem l hl⟩
    rintro rfl
    have hcount := h.lockRef l hxt hx0
    have hpos : 0 < locksUnder spell locks l :=
      List.countP_pos_iff.mpr ⟨l, hl, by simp⟩
    omega
  · intro n hn h0
    rw [(deleteLeaf_edge n).2.2.2, h.lockRef n (Finset.mem_of_mem_erase hn) h0]
  · have hsum : ∑ n ∈ tree.erase x, (S.deleteLeaf x p).evictableAt n =
        ∑ n ∈ tree.erase x, S.evictableAt n := by
      apply Finset.sum_congr rfl
      intro n _
      obtain ⟨_, _, hval, hlock⟩ := deleteLeaf_edge (S := S) (x := x) (p := p) n
      unfold evictableAt
      rw [hval, hlock]
    have hadd := Finset.add_sum_erase tree S.evictableAt hxt
    have hat : S.evictableAt x = (S.nodes x).key.length := by
      unfold evictableAt
      rw [if_pos hfree, hx.value_length]
    have hsize : (S.deleteLeaf x p).evictableSize =
        S.evictableSize - (S.nodes x).key.length := rfl
    rw [hsum, hsize, h.size]
    omega

end Delete

section Collect

theorem Shape.sibling_prefix (h : S.Shape tree spell slots) {c d : Nat}
    (hc : S.Hangs tree spell slots c p) (hct : c ∈ tree) (hd : S.Hangs tree spell slots d p)
    (hdt : d ∈ tree) (hcm : spell c <+: spell m) (hdm : spell d <+: spell m) : c = d := by
  rcases List.prefix_or_prefix_of_prefix hcm hdm with e | e
  · rcases h.prefix_cases hct hd hdt e with e' | e'
    · exact e'
    · have hle := e'.length_le
      have hlt := hc.length_lt
      omega
  · rcases h.prefix_cases hdt hc hct e with e' | e'
    · exact e'.symm
    · have hle := e'.length_le
      have hlt := hd.length_lt
      omega

/-- The leaves of the tree below a node, each once. -/
theorem Shape.collectLeaves_spec (h : S.Shape tree spell slots) (fuel : Nat) (hn : n ∈ tree) :
    (S.collectLeaves fuel n).Nodup ∧ ∀ m ∈ S.collectLeaves fuel n,
      m ∈ tree ∧ (S.nodes m).children = [] ∧ spell n <+: spell m := by
  induction fuel generalizing n with
  | zero => simp [collectLeaves]
  | succ fuel ih =>
    unfold collectLeaves
    split
    next hleaf =>
      refine ⟨List.nodup_singleton n, ?_⟩
      intro m hm
      obtain rfl := List.mem_singleton.mp hm
      exact ⟨hn, hleaf, List.prefix_rfl⟩
    next =>
      have hin : ∀ child ∈ (S.nodes n).children.reverse, child.2 ∈ tree ∧
          S.Hangs tree spell slots child.2 n := by
        intro child hc
        rw [List.mem_reverse] at hc
        exact ⟨(h.children n hn child.1 child.2 hc).1, h.hangs_of_child hn hc⟩
      constructor
      · rw [List.nodup_flatMap]
        refine ⟨fun child hc => (ih (hin child hc).1).1, ?_⟩
        have hnd : (S.nodes n).children.reverse.Nodup :=
          List.nodup_reverse.mpr (List.Nodup.of_map _ (h.keys n hn))
        apply hnd.pairwise_of_forall_ne
        intro a ha b hb hab
        show List.Disjoint _ _
        intro m hma hmb
        have hsame := h.sibling_prefix (hin a ha).2 (hin a ha).1 (hin b hb).2 (hin b hb).1
          ((ih (hin a ha).1).2 m hma).2.2 ((ih (hin b hb).1).2 m hmb).2.2
        rw [List.mem_reverse] at ha hb
        have hheada := (h.children n hn a.1 a.2 ha).2.2.2
        have hheadb := (h.children n hn b.1 b.2 hb).2.2.2
        rw [hsame] at hheada
        exact hab (Prod.ext (Option.some.inj (hheada.symm.trans hheadb)) hsame)
      · intro m hm
        obtain ⟨child, hc, hmc⟩ := List.mem_flatMap.mp hm
        obtain ⟨hct, hh⟩ := hin child hc
        obtain ⟨h1, h2, h3⟩ := (ih hct).2 m hmc
        exact ⟨h1, h2, hh.spell_le.trans h3⟩

/-- The depth bound is enough for every leaf. -/
theorem Shape.mem_collectLeaves (h : S.Shape tree spell slots) (hm : m ∈ tree)
    (hleaf : (S.nodes m).children = []) : m ∈ S.collectLeaves S.nextNode 0 := by
  have hmain : ∀ fuel n, n ∈ tree → spell n <+: spell m →
      depth tree spell m < depth tree spell n + fuel → m ∈ S.collectLeaves fuel n := by
    intro fuel
    induction fuel with
    | zero =>
      intro n hn hpre hlt
      have hle : depth tree spell n ≤ depth tree spell m := by
        apply Finset.card_le_card
        intro l hl
        obtain ⟨h1, h2⟩ := Finset.mem_filter.mp hl
        exact Finset.mem_filter.mpr ⟨h1, h2.trans hpre⟩
      omega
    | succ fuel ih =>
      intro n hn hpre hlt
      unfold collectLeaves
      rcases h.child_toward hn hm hpre with e | ⟨t, c, hc, hpc⟩
      · rw [e, if_pos hleaf]
        exact List.mem_singleton.mpr rfl
      · rw [if_neg (List.ne_nil_of_mem hc)]
        have hh := h.hangs_of_child hn hc
        have hct := (h.children n hn t c hc).1
        have hdepth := Hangs.depth_lt hct hh
        exact List.mem_flatMap.mpr ⟨(t, c), List.mem_reverse.mpr hc, ih c hct hpc (by omega)⟩
  apply hmain S.nextNode 0 h.root_mem
  · rw [h.root_spell]
    exact List.nil_prefix
  · have hle := h.depth_le m
    have hpos : 0 < depth tree spell 0 :=
      Finset.card_pos.mpr ⟨0, Finset.mem_filter.mpr ⟨h.root_mem, List.prefix_rfl⟩⟩
    omega

end Collect

end RadixCache

end FastPP
