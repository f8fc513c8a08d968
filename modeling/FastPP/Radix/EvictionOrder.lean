import FastPP.Radix.Paths
import Mathlib.Algebra.Order.BigOperators.Group.Finset
import Mathlib.Data.Finset.Max

namespace FastPP

namespace RadixCache

/-- Node `x` is removed: an unlocked leaf, the one with the least time of them. -/
structure EvictStep (S : RadixCache) (x : Nat) (S' : RadixCache) : Prop where
  inTree : S.InTree x
  ne_root : x ≠ 0
  unlocked : (S.nodes x).lockRef = 0
  leaf : (S.nodes x).children = []
  least : ∀ m, S.InTree m → m ≠ 0 → (S.nodes m).children = [] → (S.nodes m).lockRef = 0 →
    (S.nodes x).lastAccessTime ≤ (S.nodes m).lastAccessTime
  gone : ∀ m, S'.InTree m ↔ S.InTree m ∧ m ≠ x
  kept : ∀ m, (S'.nodes m).key = (S.nodes m).key ∧ (S'.nodes m).value = (S.nodes m).value ∧
    (S'.nodes m).lockRef = (S.nodes m).lockRef ∧
    (S'.nodes m).lastAccessTime = (S.nodes m).lastAccessTime
  size : S'.evictableSize = S.evictableSize - (S.nodes x).value.length

/-- Nodes are removed one after the other. -/
inductive Evictions : RadixCache → List Nat → RadixCache → Prop
  | nil {S : RadixCache} : Evictions S [] S
  | cons {S S₁ S' : RadixCache} {x : Nat} {removed : List Nat} (step : S.EvictStep x S₁)
      (rest : Evictions S₁ removed S') : Evictions S (x :: removed) S'

/-- The tokens of the removed nodes. -/
def freed (S : RadixCache) (removed : List Nat) : Nat :=
  (removed.map fun x => (S.nodes x).value.length).sum

variable {S S' S₁ : RadixCache} {tree : Finset Nat} {spell slots : Nat → List Nat}
  {locks leaves removed : List Nat} {n m p x : Nat}

theorem freed_congr (h : ∀ m, (S'.nodes m).value = (S.nodes m).value) (removed : List Nat) :
    S'.freed removed = S.freed removed := by
  unfold freed
  simp only [h]

theorem Evictions.value_eq (h : Evictions S removed S') (m : Nat) :
    (S'.nodes m).value = (S.nodes m).value := by
  induction h with
  | nil => rfl
  | cons step _ ih => rw [ih, (step.kept m).2.1]

theorem Evictions.size (h : Evictions S removed S') :
    S'.evictableSize = S.evictableSize - S.freed removed := by
  induction h with
  | nil => simp [freed]
  | cons step _ ih =>
    rw [ih, freed_congr (fun m => (step.kept m).2.1), step.size]
    simp only [freed, List.map_cons, List.sum_cons]
    omega

/-- Removed nodes were unlocked all along. -/
theorem Evictions.unlocked (h : Evictions S removed S') {x : Nat} (hx : x ∈ removed) :
    (S.nodes x).lockRef = 0 := by
  induction h with
  | nil => cases hx
  | cons step _ ih =>
    rcases List.mem_cons.mp hx with rfl | hx
    · exact step.unlocked
    · rw [← (step.kept x).2.2.1]
      exact ih hx

/-- What is removed was there, is removed once, and is all that is gone. -/
theorem Evictions.gone (h : Evictions S removed S') :
    removed.Nodup ∧ (∀ x ∈ removed, S.InTree x) ∧
      ∀ m, S'.InTree m ↔ S.InTree m ∧ m ∉ removed := by
  induction h with
  | nil => simp
  | @cons S S₁ S' x removed step rest ih =>
    obtain ⟨hnd, hin, hgone⟩ := ih
    refine ⟨List.nodup_cons.mpr ⟨?_, hnd⟩, ?_, ?_⟩
    · intro hx
      exact ((step.gone x).mp (hin x hx)).2 rfl
    · intro m hm
      rcases List.mem_cons.mp hm with rfl | hm
      · exact step.inTree
      · exact ((step.gone m).mp (hin m hm)).1
    · intro m
      rw [hgone, step.gone, List.mem_cons, not_or]
      exact and_assoc

/-- Below an unlocked node everything is unlocked. -/
theorem Locked.unlocked_below (h : S.Locked tree spell slots locks) (hn : n ∈ tree) (h0 : n ≠ 0)
    (hm : m ∈ tree) (hfree : (S.nodes n).lockRef = 0) (hpre : spell n <+: spell m) :
    m ≠ 0 ∧ (S.nodes m).lockRef = 0 := by
  have hm0 : m ≠ 0 := by
    rintro rfl
    rw [h.shape.root_spell, List.prefix_nil] at hpre
    exact h0 (h.shape.spell_inj hn h.shape.root_mem (hpre.trans h.shape.root_spell.symm))
  refine ⟨hm0, ?_⟩
  have hcount : locksUnder spell locks m ≤ locksUnder spell locks n := by
    unfold locksUnder
    apply List.countP_mono_left
    intro l _ hl
    rw [decide_eq_true_eq] at hl ⊢
    exact hpre.trans hl
  have hnode := h.lockRef n hn h0
  rw [h.lockRef m hm hm0]
  omega

/-- Below an unlocked node there is an unlocked leaf. -/
theorem Locked.exists_leaf (h : S.Locked tree spell slots locks) (hn : n ∈ tree) (h0 : n ≠ 0)
    (hfree : (S.nodes n).lockRef = 0) : ∃ m ∈ tree, m ≠ 0 ∧ (S.nodes m).children = [] ∧
      (S.nodes m).lockRef = 0 := by
  -- the deepest node below is a leaf
  obtain ⟨m, hm, hdeep⟩ := (tree.filter fun m => spell n <+: spell m).exists_max_image
    (fun m => (spell m).length) ⟨n, Finset.mem_filter.mpr ⟨hn, List.prefix_rfl⟩⟩
  obtain ⟨hmt, hpre⟩ := Finset.mem_filter.mp hm
  obtain ⟨hm0, hunlocked⟩ := h.unlocked_below hn h0 hmt hfree hpre
  refine ⟨m, hmt, hm0, ?_, hunlocked⟩
  apply List.eq_nil_iff_forall_not_mem.mpr
  rintro ⟨t, c⟩ hc
  have hh := h.shape.hangs_of_child hmt hc
  have hct := (h.shape.children m hmt t c hc).1
  have hle := hdeep c (Finset.mem_filter.mpr ⟨hct, hpre.trans hh.spell_le⟩)
  have hlt := hh.length_lt
  omega

/-- Without unlocked leaves nothing is evictable. -/
theorem Locked.size_zero (h : S.Locked tree spell slots locks)
    (hnone : ∀ m ∈ tree, m ≠ 0 → (S.nodes m).children = [] → (S.nodes m).lockRef ≠ 0) :
    S.evictableSize = 0 := by
  rw [h.size]
  apply Finset.sum_eq_zero
  intro n hn
  by_cases h0 : n = 0
  · rw [h0, h.shape.evictableAt_root]
  · unfold evictableAt
    rw [if_neg]
    intro hfree
    obtain ⟨m, hm, hm0, hleaf, hunlocked⟩ := h.exists_leaf hn h0 hfree
    exact hnone m hm hm0 hleaf hunlocked

theorem Locked.size_nonneg (h : S.Locked tree spell slots locks) : 0 ≤ S.evictableSize := by
  rw [h.size]
  apply Finset.sum_nonneg
  intro n _
  unfold evictableAt
  split <;> omega

/-- The least unlocked leaf is removed. -/
theorem Locked.evictStep (h : S.Locked tree spell slots locks) (hx : x ∈ tree) (h0 : x ≠ 0)
    (hp : (S.nodes x).parent = some p) (hleaf : (S.nodes x).children = [])
    (hfree : (S.nodes x).lockRef = 0)
    (hleast : ∀ m ∈ tree, m ≠ 0 → (S.nodes m).children = [] → (S.nodes m).lockRef = 0 →
      (S.nodes x).lastAccessTime ≤ (S.nodes m).lastAccessTime) :
    S.EvictStep x (S.deleteLeaf x p) := by
  have hh := h.shape.hangs_of_parent hx h0 hp
  have h' := h.shape.deleteLeaf hh hleaf
  refine ⟨h.shape.inTree_iff.mpr hx, h0, hfree, hleaf, ?_, ?_, ?_, ?_⟩
  · intro m hm
    exact hleast m (h.shape.inTree_iff.mp hm)
  · intro m
    rw [h'.inTree_iff, h.shape.inTree_iff, Finset.mem_erase, and_comm]
  · intro m
    obtain ⟨_, hkey, hval, hlock⟩ := deleteLeaf_edge (S := S) (x := x) (p := p) m
    refine ⟨hkey, hval, hlock, ?_⟩
    by_cases hmp : m = p
    · subst hmp
      simp [RadixCache.deleteLeaf, setNode]
    · rw [deleteLeaf_other hmp]
  · rw [hh.value_length]
    rfl

/-- The heap of `evict`: leaves, each once, and all that are unlocked. -/
structure Heaped (S : RadixCache) (tree : Finset Nat) (leaves : List Nat) : Prop where
  nodup : leaves.Nodup
  leaf : ∀ m ∈ leaves, m ∈ tree ∧ (S.nodes m).children = []
  all : ∀ m ∈ tree, m ≠ 0 → (S.nodes m).children = [] → (S.nodes m).lockRef = 0 → m ∈ leaves

theorem Heaped.perm {leaves' : List Nat} (h : S.Heaped tree leaves) (hp : leaves'.Perm leaves) :
    S.Heaped tree leaves' where
  nodup := hp.nodup_iff.mpr h.nodup
  leaf m hm := h.leaf m (hp.subset hm)
  all m hm h0 hleaf hfree := hp.symm.subset (h.all m hm h0 hleaf hfree)

/-- A locked leaf is dropped. -/
theorem Heaped.drop (h : S.Heaped tree (x :: leaves)) (hlocked : (S.nodes x).lockRef ≠ 0) :
    S.Heaped tree leaves where
  nodup := (List.nodup_cons.mp h.nodup).2
  leaf m hm := h.leaf m (List.mem_cons_of_mem x hm)
  all := by
    intro m hm h0 hleaf hfree
    rcases List.mem_cons.mp (h.all m hm h0 hleaf hfree) with rfl | hmem
    · exact absurd hfree hlocked
    · exact hmem

/-- After a removal the parent comes in if it has become a leaf. -/
theorem Heaped.delete (h : S.Heaped tree (x :: leaves))
    (hx : S.Hangs tree spell slots x p) :
    (S.deleteLeaf x p).Heaped (tree.erase x)
      (if ((S.deleteLeaf x p).nodes p).children = [] then p :: leaves else leaves) := by
  obtain ⟨hnotin, hnd⟩ := List.nodup_cons.mp h.nodup
  obtain ⟨u, _, hux⟩ := hx.child
  have hpx : p ≠ x := by
    rintro rfl
    exact Nat.lt_irrefl _ hx.length_lt
  have hnp : p ∉ leaves := by
    intro hp
    have hnil := (h.leaf p (List.mem_cons_of_mem x hp)).2
    rw [hnil] at hux
    cases hux
  have hkeep : ∀ m ∈ leaves, m ∈ tree.erase x ∧ ((S.deleteLeaf x p).nodes m).children = [] := by
    intro m hm
    obtain ⟨hmt, hml⟩ := h.leaf m (List.mem_cons_of_mem x hm)
    refine ⟨Finset.mem_erase.mpr ⟨fun e => hnotin (e ▸ hm), hmt⟩, ?_⟩
    rw [deleteLeaf_other, hml]
    rintro rfl
    exact hnp hm
  have hin : ∀ m ∈ tree.erase x, m ≠ p → m ≠ 0 → ((S.deleteLeaf x p).nodes m).children = [] →
      ((S.deleteLeaf x p).nodes m).lockRef = 0 → m ∈ leaves := by
    intro m hm hmp h0 hleaf hfree
    rw [deleteLeaf_other hmp] at hleaf hfree
    obtain ⟨hmx, hmt⟩ := Finset.mem_erase.mp hm
    exact (List.mem_cons.mp (h.all m hmt h0 hleaf hfree)).resolve_left hmx
  split
  next hparent =>
    refine ⟨List.nodup_cons.mpr ⟨hnp, hnd⟩, ?_, ?_⟩
    · intro m hm
      rcases List.mem_cons.mp hm with rfl | hm
      · exact ⟨Finset.mem_erase.mpr ⟨hpx, hx.mem⟩, hparent⟩
      · exact hkeep m hm
    · intro m hm h0 hleaf hfree
      by_cases hmp : m = p
      · rw [hmp]
        exact List.mem_cons_self
      · exact List.mem_cons_of_mem p (hin m hm hmp h0 hleaf hfree)
  next hparent =>
    refine ⟨hnd, hkeep, ?_⟩
    intro m hm h0 hleaf hfree
    apply hin m hm ?_ h0 hleaf hfree
    rintro rfl
    exact hparent hleaf

/-- What a run of the loop does: it stops when enough is freed, and not before unless there
is nothing left. -/
structure Frees (S : RadixCache) (numTokens : Nat) (removed : List Nat) (S' : RadixCache)
    (evicted : List (List Nat)) : Prop where
  steps : Evictions S removed S'
  values : evicted = removed.map fun x => (S.nodes x).value
  needed : ∀ front x back, removed = front ++ x :: back → S.freed front < numTokens
  enough : numTokens ≤ S.freed removed ∨ S'.evictableSize = 0

theorem Frees.cons {numTokens : Nat} {evicted : List (List Nat)} (step : S.EvictStep x S₁)
    (hneed : 0 < numTokens)
    (h : Frees S₁ (numTokens - (S.nodes x).value.length) removed S' evicted) :
    Frees S numTokens (x :: removed) S' ((S.nodes x).value :: evicted) := by
  have hvalue : ∀ m, (S₁.nodes m).value = (S.nodes m).value := fun m => (step.kept m).2.1
  have hcons : ∀ rest, S.freed (x :: rest) = (S.nodes x).value.length + S₁.freed rest := by
    intro rest
    rw [freed_congr hvalue]
    simp [freed]
  refine ⟨.cons step h.steps, ?_, ?_, ?_⟩
  · rw [h.values]
    simp only [List.map_cons, hvalue]
  · intro front y back hsplit
    cases front with
    | nil => simpa [freed] using hneed
    | cons z front =>
      obtain ⟨rfl, hrest⟩ := List.cons.inj hsplit
      have hlt := h.needed front y back hrest
      rw [hcons]
      omega
  · rw [hcons]
    exact h.enough.imp_left fun hle => by omega

theorem evictLoop_frees (heapq : Heapq) (numTokens fuel : Nat)
    (h : S.Locked tree spell slots locks) (hheap : S.Heaped tree leaves)
    (hfuel : leaves.length + tree.card < fuel) (numEvicted : Nat) (before : List (List Nat)) :
    ∃ S' removed evicted tree', evictLoop heapq numTokens fuel S leaves numEvicted before =
        some (S', before ++ evicted) ∧ S'.Locked tree' spell slots locks ∧
      Frees S (numTokens - numEvicted) removed S' evicted := by
  induction fuel generalizing S tree leaves numEvicted before with
  | zero => omega
  | succ fuel ih =>
    unfold evictLoop
    split
    next hneed =>
      rcases leaves with _ | ⟨y, ys⟩
      · rw [heapq.pop_nil]
        refine ⟨S, [], [], tree, by rw [List.append_nil], h, .nil, rfl, by simp, .inr ?_⟩
        apply h.size_zero
        intro m hm h0 hleaf hfree
        cases hheap.all m hm h0 hleaf hfree
      · obtain ⟨x, rest, hpop, hperm, hleast⟩ :=
          heapq.pop_cons (fun n => (S.nodes n).lastAccessTime) y ys
        have hlen : rest.length + 1 = (y :: ys).length := by
          rw [← hperm.length_eq, List.length_cons]
        have hheap' := hheap.perm hperm
        obtain ⟨hxt, hxleaf⟩ := hheap'.leaf x List.mem_cons_self
        simp only [hpop]
        split
        next hx0 =>
          -- the root is a leaf, so it is alone
          refine ⟨S, [], [], tree, by rw [List.append_nil], h, .nil, rfl, by simp, .inr ?_⟩
          apply h.size_zero
          intro m hm h0 _ _
          rcases h.shape.child_toward h.shape.root_mem hm (by
            rw [h.shape.root_spell]
            exact List.nil_prefix) with e | ⟨t, c, hc, _⟩
          · exact h0 e.symm
          · rw [← hx0, hxleaf] at hc
            cases hc
        next hx0 =>
          have hcount := h.lockRef x hxt hx0
          split
          next hlocked => exact ih h (hheap'.drop (by omega)) (by omega) numEvicted before
          next hunlocked =>
            obtain ⟨p, hx⟩ := h.shape.hangs x hxt hx0
            have hfree : (S.nodes x).lockRef = 0 := by omega
            have hcard := Finset.card_erase_add_one hxt
            have hstep := h.evictStep hxt hx0 hx.parent hxleaf hfree (by
              intro m hm h0 hleaf hunlocked
              rcases List.mem_cons.mp (hheap'.all m hm h0 hleaf hunlocked) with rfl | hmem
              · exact le_rfl
              · exact hleast m hmem)
            simp only [hx.parent]
            obtain ⟨S', removed, evicted, tree', hrun, hlocked', hfrees⟩ :=
              ih (h.deleteLeaf hx hxt hxleaf hfree) (hheap'.delete hx)
                (by
                  split
                  · rw [List.length_cons]
                    omega
                  · omega)
                (numEvicted + (S.nodes x).value.length) (before ++ [(S.nodes x).value])
            refine ⟨S', x :: removed, (S.nodes x).value :: evicted, tree', ?_, hlocked', ?_⟩
            · rw [hrun, List.append_assoc]
              rfl
            · apply Frees.cons hstep (by omega)
              rwa [Nat.sub_sub]
    next hdone =>
      refine ⟨S, [], [], tree, by rw [List.append_nil], h, .nil, rfl, by simp, .inl ?_⟩
      omega

theorem evict_frees (heapq : Heapq) (h : S.Locked tree spell slots locks) (numTokens : Nat) :
    ∃ S' removed evicted tree', S.evict heapq numTokens = some (S', evicted) ∧
      S'.Locked tree' spell slots locks ∧ Frees S numTokens removed S' evicted := by
  obtain ⟨hnd, hleaves⟩ := h.shape.collectLeaves_spec S.nextNode h.shape.root_mem
  have hcard := h.shape.card_le
  have hlen : (S.collectLeaves S.nextNode 0).length ≤ tree.card := by
    rw [← List.toFinset_card_of_nodup hnd]
    apply Finset.card_le_card
    intro m hm
    exact (hleaves m (List.mem_toFinset.mp hm)).1
  obtain ⟨S', removed, evicted, tree', hrun, hlocked, hfrees⟩ := evictLoop_frees heapq numTokens
    (2 * S.nextNode + 1) h ⟨hnd, fun m hm => ⟨(hleaves m hm).1, (hleaves m hm).2.1⟩,
      fun m hm _ hleaf _ => h.shape.mem_collectLeaves hm hleaf⟩ (by omega) 0 []
  exact ⟨S', removed, evicted, tree', hrun, hlocked, hfrees⟩

theorem evict_spec (heapq : Heapq) (h : S.Locked tree spell slots locks) (numTokens : Nat) :
    ∃ S' evicted tree', S.evict heapq numTokens = some (S', evicted) ∧
      S'.Locked tree' spell slots locks := by
  obtain ⟨S', _, evicted, tree', hrun, hlocked, _⟩ := evict_frees heapq h numTokens
  exact ⟨S', evicted, tree', hrun, hlocked⟩

/-- `evict` returns; it calls back with the value of each removed node, once; it removes
unlocked leaves, the least recently used first, until enough is freed, and frees what it
can; and the evictable size falls by what is freed. -/
theorem evict_order (heapq : Heapq) (h : S.Locked tree spell slots locks) (numTokens : Nat) :
    ∃ S' removed evicted, S.evict heapq numTokens = some (S', evicted) ∧
      Evictions S removed S' ∧ (evicted = removed.map fun x => (S.nodes x).value) ∧
      removed.Nodup ∧ (∀ m, m ∈ removed ↔ S.InTree m ∧ ¬ S'.InTree m) ∧
      (∀ front x back, removed = front ++ x :: back → S.freed front < numTokens) ∧
      min (numTokens : Int) S.evictableSize ≤ S.freed removed ∧
      S'.evictableSize = S.evictableSize - S.freed removed := by
  obtain ⟨S', removed, evicted, tree', hrun, _, hfrees⟩ := evict_frees heapq h numTokens
  obtain ⟨hnd, hin, hgone⟩ := hfrees.steps.gone
  have hsize := hfrees.steps.size
  refine ⟨S', removed, evicted, hrun, hfrees.steps, hfrees.values, hnd, ?_, hfrees.needed, ?_,
    hsize⟩
  · intro m
    rw [hgone]
    constructor
    · exact fun hm => ⟨hin m hm, fun h' => h'.2 hm⟩
    · rintro ⟨hm, hnot⟩
      by_contra hmem
      exact hnot ⟨hm, hmem⟩
  · rcases hfrees.enough with henough | hzero
    · exact (min_le_left _ _).trans (by exact_mod_cast henough)
    · exact (min_le_right _ _).trans (by omega)

end RadixCache

end FastPP
