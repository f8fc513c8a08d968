import FastPP.Lib.PostOrder
import FastPP.Priority.InBatch

namespace FastPP

open RankedTree

namespace RadixCache

variable {S : RadixCache} {tree : Finset Nat} {spell slots : Nat → List Nat} {last : Nat → Nat}
  {queue out : List Nat} {n m p : Nat}

theorem mem_kids {c : Nat} : c ∈ (S.nodes p).children.map Prod.snd ↔
    ∃ t, (t, c) ∈ (S.nodes p).children := by
  simp

/-- The nodes of a cache; the rank is the number of nodes of the subtree. -/
def Shape.rankedTree (h : S.Shape tree spell slots) : RankedTree Nat where
  kids n := (S.nodes n).children.map Prod.snd
  mem n := n ∈ tree
  rank n := (tree.filter fun m => spell n <+: spell m).card
  closed p c hp hc := by
    obtain ⟨t, hmem⟩ := mem_kids.mp hc
    exact (h.children p hp t c hmem).1
  rank_lt p c hp hc := by
    obtain ⟨t, hmem⟩ := mem_kids.mp hc
    have hh := h.hangs_of_child hp hmem
    apply Finset.card_lt_card
    rw [Finset.ssubset_iff_of_subset]
    · refine ⟨p, Finset.mem_filter.mpr ⟨hp, List.prefix_rfl⟩, ?_⟩
      intro hpc
      have hle := (Finset.mem_filter.mp hpc).2.length_le
      have hlt := hh.length_lt
      omega
    · intro m hm
      obtain ⟨hm, hpre⟩ := Finset.mem_filter.mp hm
      exact Finset.mem_filter.mpr ⟨hm, hh.spell_le.trans hpre⟩
  nodup p hp := by
    apply List.Nodup.of_map fun c => (S.nodes c).key.head?
    rw [List.map_map]
    have hkeys : (S.nodes p).children.map ((fun c => (S.nodes c).key.head?) ∘ Prod.snd) =
        ((S.nodes p).children.map Prod.fst).map some := by
      rw [List.map_map]
      apply List.map_congr_left
      intro ⟨t, c⟩ hmem
      exact (h.children p hp t c hmem).2.2.2
    rw [hkeys]
    exact (h.keys p hp).map (Option.some_injective Nat)
  parent p q c hp hq hpc hqc := by
    obtain ⟨t, hpc⟩ := mem_kids.mp hpc
    obtain ⟨u, hqc⟩ := mem_kids.mp hqc
    have hparent := (h.children p hp t c hpc).2.2.1
    exact Option.some.inj (hparent.symm.trans (h.children q hq u c hqc).2.2.1)

theorem Shape.below_iff (h : S.Shape tree spell slots) :
    h.rankedTree.Below n m ↔ S.Descends n m := by
  constructor
  · intro hb
    induction hb with
    | refl => exact .refl
    | child _ hc ih =>
      obtain ⟨t, hmem⟩ := mem_kids.mp hc
      exact .child ih hmem
  · intro hd
    induction hd with
    | refl => exact .refl
    | child _ hc ih => exact .child ih (mem_kids.mpr ⟨_, hc⟩)

theorem Shape.rank_lt_fuel (h : S.Shape tree spell slots) (n : Nat) :
    h.rankedTree.rank n < S.nextNode + 1 := by
  have hle := Finset.card_filter_le tree fun m => spell n <+: spell m
  have hcard := h.card_le
  show (tree.filter fun m => spell n <+: spell m).card < S.nextNode + 1
  omega

/-- `calc_weight` gives each node the number of requests at it and below it. -/
theorem calcWeight_spec (h : S.Shape tree spell slots) {fuel : Nat} {w : Nat → Nat}
    (hn : n ∈ tree) (hfuel : h.rankedTree.rank n < fuel)
    (hw : ∀ m, h.rankedTree.Below n m → w m = (itemsAt last queue m).length) :
    ∃ w', S.calcWeight fuel n w = some w' ∧
      (∀ m, h.rankedTree.Below n m →
        w' m = (h.rankedTree.itemsBelow last queue m).length) ∧
      ∀ m, ¬ h.rankedTree.Below n m → w' m = w m := by
  induction fuel generalizing n w with
  | zero => omega
  | succ fuel ih =>
    obtain ⟨w', hrun, hself, hbelow, hother⟩ := foldlM_weigh (T := h.rankedTree) (w := w)
      (fun c w => S.calcWeight fuel c w) last queue hn (fun _ hc => hc) (h.rankedTree.nodup n hn)
      (by
        intro c hc w hw
        have hlt := h.rankedTree.rank_lt n c hn hc
        exact ih (h.rankedTree.closed n c hn hc) (by omega) hw)
      (fun c hc m hcm => hw m (Below.trans (.child .refl hc) hcm))
    refine ⟨w', hrun, ?_, ?_⟩
    · intro m hm
      rcases RankedTree.below_iff.mp hm with rfl | ⟨c, hc, hcm⟩
      · have hlen := (itemsBelow_perm (T := h.rankedTree) hn last queue).length_eq
        rw [List.length_append] at hlen
        have hown := hw m .refl
        rw [hself, hown]
        omega
      · exact hbelow c hc m hcm
    · intro m hm
      have hm' := fun heq => hm (RankedTree.below_iff.mpr (.inl heq))
      exact hother m hm' fun c hc hcm => hm (RankedTree.below_iff.mpr (.inr ⟨c, hc, hcm⟩))

/-- The tree in the order in which `get_dfs_priority` goes through it. -/
def Shape.dfsTree (h : S.Shape tree spell slots) (prio : Nat → Nat) : RankedTree Nat :=
  h.rankedTree.reorder
    (fun n => sortByKey (fun child => -(prio child : Int)) (h.rankedTree.kids n))
    fun _ => sortByKey_perm _ _

theorem getDfsPriority_spec (h : S.Shape tree spell slots) {fuel : Nat} {prio : Nat → Nat}
    {own : Nat → List Nat} (hn : n ∈ tree) (hfuel : h.rankedTree.rank n < fuel) (q : List Nat) :
    S.getDfsPriority prio own fuel n q = some (q ++ (h.dfsTree prio).block own n) := by
  induction fuel generalizing n q with
  | zero => omega
  | succ fuel ih =>
    have hloop : ∀ (ks q : List Nat), (∀ c ∈ ks, c ∈ (h.dfsTree prio).kids n) →
        ks.foldlM (fun q c => S.getDfsPriority prio own fuel c q) q =
          some (q ++ ks.flatMap ((h.dfsTree prio).block own)) := by
      intro ks
      induction ks with
      | nil => exact fun q _ => by rw [List.flatMap_nil, List.append_nil]; rfl
      | cons c ks ihks =>
        intro q hks
        have hc := hks c List.mem_cons_self
        have hlt : h.rankedTree.rank c < h.rankedTree.rank n := (h.dfsTree prio).rank_lt n c hn hc
        have hmem : c ∈ tree := (h.dfsTree prio).closed n c hn hc
        rw [List.foldlM_cons, ih hmem (by omega)]
        show ks.foldlM _ _ = _
        rw [ihks _ fun d hd => hks d (List.mem_cons_of_mem c hd), List.flatMap_cons,
          List.append_assoc]
    show (do
      let q ← ((h.dfsTree prio).kids n).foldlM (fun q c => S.getDfsPriority prio own fuel c q) q
      pure (q ++ own n)) = _
    rw [hloop _ q fun _ hc => hc, block_eq (T := h.dfsTree prio) hn, ← List.append_assoc]
    rfl

end RadixCache

variable {env : PolicyEnv} {S : RadixCache} {heap : Nat → TreeReq} {locks queue out : List Nat}
  {tree : Finset Nat} {spell slots : Nat → List Nat} {last : Nat → Nat} {m : Matching}

open Classical in
/-- The requests whose last node is the node or below it. -/
noncomputable def RadixCache.waitingBelow (S : RadixCache) (last : Nat → Nat) (queue : List Nat)
    (n : Nat) : List Nat :=
  queue.filter fun q => decide (S.Descends n (last q))

open Classical in
/-- The order of `dfs-weight`: of two siblings the one with more requests below it comes first,
each as a block, and the requests at a node come after those below it. -/
structure HeavyFirst (S : RadixCache) (last : Nat → Nat) (queue out : List Nat) : Prop where
  siblings : ∀ p t c u d, S.InTree p → (t, c) ∈ (S.nodes p).children →
    (u, d) ∈ (S.nodes p).children →
    (S.waitingBelow last queue d).length < (S.waitingBelow last queue c).length →
    ∃ x heavy y light z, out = x ++ heavy ++ y ++ light ++ z ∧
      heavy.Perm (S.waitingBelow last queue c) ∧ light.Perm (S.waitingBelow last queue d)
  below_first : ∀ n, S.InTree n → ∃ x below z,
    out = x ++ below ++ queue.filter (fun q => decide (last q = n)) ++ z ∧
      below.Perm (queue.filter fun q => decide (S.Descends n (last q) ∧ last q ≠ n))

namespace RadixCache

open Classical in
theorem Shape.itemsBelow_eq (h : S.Shape tree spell slots) (n : Nat) :
    h.rankedTree.itemsBelow last queue n = S.waitingBelow last queue n := by
  apply List.filter_congr
  intro q _
  exact decide_eq_decide.mpr h.below_iff

open Classical in
theorem Shape.dfs_itemsBelow_eq (h : S.Shape tree spell slots) (prio : Nat → Nat) (n : Nat) :
    (h.dfsTree prio).itemsBelow last queue n = S.waitingBelow last queue n := by
  rw [← h.itemsBelow_eq]
  apply List.filter_congr
  intro q _
  exact decide_eq_decide.mpr below_reorder

theorem Shape.descends_root (h : S.Shape tree spell slots) {n : Nat} (hn : n ∈ tree) :
    S.Descends 0 n := by
  apply (h.descends_iff h.root_mem hn).mpr
  rw [h.root_spell]
  exact List.nil_prefix

open Classical in
theorem Shape.waitingBelow_root (h : S.Shape tree spell slots)
    (hlast : ∀ q ∈ queue, last q ∈ tree) : S.waitingBelow last queue 0 = queue := by
  apply List.filter_eq_self.mpr
  intro q hq
  exact decide_eq_true (h.descends_root (hlast q hq))

/-- The walk over the tree with the weights of the requests. -/
theorem Shape.heavyFirst (h : S.Shape tree spell slots) {prio : Nat → Nat}
    (hprio : ∀ n ∈ tree, prio n = (S.waitingBelow last queue n).length) :
    HeavyFirst S last queue ((h.dfsTree prio).block (itemsAt last queue) 0) := by
  have hroot : ∀ n ∈ tree, (h.dfsTree prio).Below 0 n :=
    fun n hn => below_reorder.mpr (h.below_iff.mpr (h.descends_root hn))
  constructor
  · intro p t c u d hp hc hd hlt
    have hpt := h.inTree_iff.mp hp
    have hct := (h.children p hpt t c hc).1
    have hdt := (h.children p hpt u d hd).1
    have hkeys : -(prio c : Int) < -(prio d : Int) := by
      rw [hprio c hct, hprio d hdt]
      omega
    obtain ⟨before, between, after, hkids⟩ := sortByKey_before (fun n => -(prio n : Int))
      (mem_kids.mpr ⟨t, hc⟩) (mem_kids.mpr ⟨u, hd⟩) hkeys
    obtain ⟨x, z, hpart⟩ := (hroot p hpt).block h.root_mem (itemsAt last queue)
    obtain ⟨x', y, z', hblock⟩ := block_siblings (T := h.dfsTree prio) (itemsAt last queue) hpt
      hkids
    refine ⟨x ++ x', (h.dfsTree prio).block (itemsAt last queue) c, y,
      (h.dfsTree prio).block (itemsAt last queue) d, z' ++ z, ?_, ?_, ?_⟩
    · rw [hpart, hblock]
      simp only [List.append_assoc]
    · rw [← h.dfs_itemsBelow_eq prio]
      exact block_perm hct
    · rw [← h.dfs_itemsBelow_eq prio]
      exact block_perm hdt
  · intro n hn
    have hnt := h.inTree_iff.mp hn
    obtain ⟨x, z, hpart⟩ := (hroot n hnt).block h.root_mem (itemsAt last queue)
    refine ⟨x, ((h.dfsTree prio).kids n).flatMap ((h.dfsTree prio).block (itemsAt last queue)), z,
      ?_, ?_⟩
    · rw [hpart, block_eq (T := h.dfsTree prio) hnt, ← List.append_assoc]
      rfl
    · refine (kids_block_perm (T := h.dfsTree prio) hnt).trans (.of_eq ?_)
      apply List.filter_congr
      intro q _
      exact decide_eq_decide.mpr (and_congr_left' (below_reorder.trans h.below_iff))

end RadixCache

namespace Matching

theorem lastNodeToReqs_eq (m : Matching) (queue : List Nat) :
    m.lastNodeToReqs queue = itemsAt (fun q => (m.heap q).lastNode) queue := by
  have hfold : ∀ (queue : List Nat) (reqs : Nat → List Nat),
      queue.foldl (fun reqs q => Function.update reqs (m.heap q).lastNode
          (reqs (m.heap q).lastNode ++ [q])) reqs =
        fun n => reqs n ++ itemsAt (fun q => (m.heap q).lastNode) queue n := by
    intro queue
    induction queue with
    | nil => exact fun reqs => funext fun n => (List.append_nil _).symm
    | cons q queue ih =>
      intro reqs
      rw [List.foldl_cons, ih]
      funext n
      unfold itemsAt
      by_cases hn : (m.heap q).lastNode = n
      · rw [← hn, Function.update_self, List.filter_cons_of_pos (by simp), List.append_assoc]
        rfl
      · rw [Function.update_of_ne fun heq => hn heq.symm, List.filter_cons_of_neg (by simpa using hn)]
  unfold lastNodeToReqs
  rw [hfold]
  rfl

/-- No request is lost in the walk, as each last node is in the tree. -/
theorem Progress.dfsQueue (h : Progress env S heap locks queue m) :
    ∃ out, m.dfsQueue queue = some out ∧ out.Perm queue ∧
      HeavyFirst m.treeCache (fun q => (m.heap q).lastNode) queue out := by
  obtain ⟨tree, spell, slots, hl, _, hnodes⟩ := h.toCacheProgress.cache
  obtain ⟨prio, hrun, hbelow, _⟩ := RadixCache.calcWeight_spec hl.shape
    (w := fun n => (itemsAt (fun q => (m.heap q).lastNode) queue n).length) hl.shape.root_mem
    (hl.shape.rank_lt_fuel 0) fun _ _ => rfl
  have hprio : ∀ n ∈ tree, prio n =
      (m.treeCache.waitingBelow (fun q => (m.heap q).lastNode) queue n).length := by
    intro n hn
    rw [hbelow n (hl.shape.below_iff.mpr (hl.shape.descends_root hn)), hl.shape.itemsBelow_eq]
  refine ⟨(hl.shape.dfsTree prio).block (itemsAt (fun q => (m.heap q).lastNode) queue) 0, ?_, ?_,
    hl.shape.heavyFirst hprio⟩
  · unfold Matching.dfsQueue
    rw [lastNodeToReqs_eq]
    simp only [hrun, Option.bind_eq_bind, Option.bind_some]
    rw [RadixCache.getDfsPriority_spec hl.shape hl.shape.root_mem (hl.shape.rank_lt_fuel 0),
      List.nil_append]
  · refine (block_perm (T := hl.shape.dfsTree prio) hl.shape.root_mem).trans (.of_eq ?_)
    rw [hl.shape.dfs_itemsBelow_eq]
    exact hl.shape.waitingBelow_root fun q hq => (hnodes q hq).mem

end Matching

end FastPP
