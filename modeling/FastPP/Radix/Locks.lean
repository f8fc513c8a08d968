import FastPP.Radix.Growth
import Mathlib.Algebra.BigOperators.Group.Finset.Basic
import Mathlib.Algebra.BigOperators.Group.Finset.Piecewise
import Mathlib.Algebra.Order.Ring.Int
import Mathlib.Data.Int.Basic

namespace FastPP

namespace RadixCache

/-- The tokens of node `n` that count as evictable. -/
def evictableAt (S : RadixCache) (n : Nat) : Int :=
  if (S.nodes n).lockRef = 0 then (S.nodes n).value.length else 0

/-- The tokens of the whole tree. -/
def tokens (S : RadixCache) (tree : Finset Nat) : Int :=
  ∑ n ∈ tree, ((S.nodes n).value.length : Int)

/-- The locks on node `n` or below it. -/
def locksUnder (spell : Nat → List Nat) (locks : List Nat) (n : Nat) : Nat :=
  locks.countP fun l => decide (spell n <+: spell l)

/-- The nodes above node `n`, itself among them. -/
def depth (tree : Finset Nat) (spell : Nat → List Nat) (n : Nat) : Nat :=
  (tree.filter fun m => spell m <+: spell n).card

/-- `Shape`, and the two counts are right for the locks that are out. -/
structure Locked (S : RadixCache) (tree : Finset Nat) (spell slots : Nat → List Nat)
    (locks : List Nat) : Prop where
  shape : S.Shape tree spell slots
  locks_mem : ∀ l ∈ locks, l ∈ tree
  lockRef : ∀ n ∈ tree, n ≠ 0 → (S.nodes n).lockRef = locksUnder spell locks n
  size : S.evictableSize = ∑ n ∈ tree, S.evictableAt n

variable {S S' : RadixCache} {tree : Finset Nat} {spell slots spell' slots' : Nat → List Nat}
  {locks : List Nat} {n m child k p token : Nat} {key value : List Nat}

theorem sum_change {f g : Nat → Int} (hn : n ∈ tree) (hsame : ∀ m ∈ tree, m ≠ n → g m = f m) :
    ∑ m ∈ tree, g m = ∑ m ∈ tree, f m + (g n - f n) := by
  have hrest : ∑ m ∈ tree.erase n, g m = ∑ m ∈ tree.erase n, f m := by
    apply Finset.sum_congr rfl
    intro m hm
    exact hsame m (Finset.mem_of_mem_erase hm) (Finset.ne_of_mem_erase hm)
  have hg := Finset.add_sum_erase tree g hn
  have hf := Finset.add_sum_erase tree f hn
  omega

theorem Shape.evictableAt_root (h : S.Shape tree spell slots) : S.evictableAt 0 = 0 := by
  unfold evictableAt
  rw [h.root_value]
  split <;> rfl

theorem locksUnder_congr (hlocks : ∀ l ∈ locks, spell' l = spell l) (hn : spell' n = spell n) :
    locksUnder spell' locks n = locksUnder spell locks n := by
  unfold locksUnder
  apply List.countP_congr
  intro l hl
  rw [hn, hlocks l hl]

/-- No lock is at a new node, so none is below it but for what is below its children. -/
theorem Locked.split (h : S.Locked tree spell slots locks) (hs : SplitAt S S' child k p)
    (hc : S.Hangs tree spell slots child p) (hct : child ∈ tree) (hk0 : 0 < k)
    (hk : k < (S.nodes child).key.length) :
    S'.Locked (Insert.insert S.nextNode tree)
      (Function.update spell S.nextNode (spell p ++ (S.nodes child).key.take k))
      (Function.update slots S.nextNode (slots p ++ (S.nodes child).value.take k)) locks := by
  have hshape := h.shape.split hs hc hct hk0 hk
  have hkeep := keeps_insert spell slots (spell p ++ (S.nodes child).key.take k)
    (slots p ++ (S.nodes child).value.take k) h.shape.notMem_next
  obtain ⟨tok, time, htok, hup⟩ := hs.upper
  have hcn := h.shape.ne_next hct
  have hc0 : child ≠ 0 := by
    rintro rfl
    have hlt := hc.length_lt
    rw [h.shape.root_spell] at hlt
    simp at hlt
  refine ⟨hshape, fun l hl => hkeep.mem l (h.locks_mem l hl), ?_, ?_⟩
  · intro n hn h0
    have hold : ∀ n ∈ tree, n ≠ 0 → (S'.nodes n).lockRef = locksUnder
        (Function.update spell S.nextNode (spell p ++ (S.nodes child).key.take k)) locks n := by
      intro n e h0
      rw [hs.lockRef_same h.shape e, h.lockRef n e h0,
        locksUnder_congr (fun l hl => hkeep.spell l (h.locks_mem l hl)) (hkeep.spell n e)]
    rcases Finset.mem_insert.mp hn with e | e
    · -- what is below the new node is below the child
      subst e
      have hchild := hold child hct hc0
      rw [hup]
      rw [hs.lockRef_same h.shape hct] at hchild
      show (S.nodes child).lockRef = _
      rw [hchild]
      unfold locksUnder
      congr 1
      apply List.countP_congr
      intro l hl
      have hlt := h.locks_mem l hl
      simp only [decide_eq_true_eq]
      constructor
      · intro e
        refine List.IsPrefix.trans ?_ e
        have hh := hshape.hangs_of_child (p := S.nextNode) (t := tok) (c := child)
          (Finset.mem_insert_self _ _) (by rw [hup]; exact List.mem_singleton.mpr rfl)
        exact hh.spell_le
      · intro e
        rcases hshape.child_toward (Finset.mem_insert_self _ _) (hkeep.mem l hlt) e with
          e' | ⟨t, c, hmem, hpre⟩
        · exact absurd e'.symm (h.shape.ne_next hlt)
        · rw [hup] at hmem
          obtain ⟨rfl, rfl⟩ := Prod.mk.inj (List.mem_singleton.mp hmem)
          exact hpre
    · exact hold n e h0
  · rw [hs.size, h.size, Finset.sum_insert h.shape.notMem_next]
    have hsum := sum_change (f := S.evictableAt) (g := S'.evictableAt) hct (by
      intro m hm hne
      unfold evictableAt
      rw [hs.lockRef_same h.shape hm, (hs.edge_same h.shape hm hne).2.2])
    rw [hsum]
    have hlen := hc.value_length
    have hnew : S'.evictableAt S.nextNode + S'.evictableAt child = S.evictableAt child := by
      unfold evictableAt
      rw [hs.lockRef_same h.shape hct, hup, hs.lower]
      by_cases hz : (S.nodes child).lockRef = 0
      · simp only [hz, if_true, List.length_take, List.length_drop]
        omega
      · simp only [hz, if_false]
        omega
    omega

/-- The two halves of an edge have its tokens. -/
theorem SplitAt.tokens_eq (hs : SplitAt S S' child k p) (h : S.Shape tree spell slots)
    (hc : S.Hangs tree spell slots child p) (hct : child ∈ tree)
    (hk : k < (S.nodes child).key.length) :
    S'.tokens (Insert.insert S.nextNode tree) = S.tokens tree := by
  obtain ⟨tok, time, _, hup⟩ := hs.upper
  unfold tokens
  rw [Finset.sum_insert h.notMem_next, sum_change (f := fun n => ((S.nodes n).value.length : Int))
    hct (fun m hm hne => by rw [(hs.edge_same h hm hne).2.2])]
  have hlen := hc.value_length
  rw [hup, hs.lower]
  simp only [List.length_take, List.length_drop]
  omega

theorem Locked.addLeaf (h : S.Locked tree spell slots locks)
    (hl : LeafAt S S' p token key value) (hp : p ∈ tree)
    (hfree : ∀ c, (token, c) ∉ (S.nodes p).children) (hhead : key.head? = some token)
    (hlen : value.length = key.length) :
    S'.Locked (Insert.insert S.nextNode tree) (Function.update spell S.nextNode (spell p ++ key))
      (Function.update slots S.nextNode (slots p ++ value)) locks := by
  have hshape := h.shape.addLeaf hl hp hfree hhead hlen
  have hkeep := keeps_insert spell slots (spell p ++ key) (slots p ++ value)
    h.shape.notMem_next
  obtain ⟨time, hleaf⟩ := hl.leaf
  refine ⟨hshape, fun l hl => hkeep.mem l (h.locks_mem l hl), ?_, ?_⟩
  · intro n hn h0
    rcases Finset.mem_insert.mp hn with e | e
    · subst e
      rw [hleaf]
      have hzero : locksUnder (Function.update spell S.nextNode (spell p ++ key)) locks
          S.nextNode = 0 := by
        unfold locksUnder
        rw [List.countP_eq_zero]
        intro l hl
        have hlt := h.locks_mem l hl
        simp only [decide_eq_true_eq]
        intro e
        rcases hshape.child_toward (Finset.mem_insert_self _ _) (hkeep.mem l hlt) e with
          e' | ⟨t, c, hmem, hpre⟩
        · exact h.shape.ne_next hlt e'.symm
        · rw [hleaf] at hmem
          simp at hmem
      rw [hzero]
      rfl
    · rw [(hl.edge_same h.shape e).2.2.2, h.lockRef n e h0,
        locksUnder_congr (fun l hl => hkeep.spell l (h.locks_mem l hl)) (hkeep.spell n e)]
  · rw [hl.size, h.size, Finset.sum_insert h.shape.notMem_next]
    have hsum : ∑ m ∈ tree, S'.evictableAt m = ∑ m ∈ tree, S.evictableAt m := by
      apply Finset.sum_congr rfl
      intro m hm
      obtain ⟨_, _, hval, hlock⟩ := hl.edge_same h.shape hm
      unfold evictableAt
      rw [hval, hlock]
    have hnew : S'.evictableAt S.nextNode = value.length := by
      unfold evictableAt
      rw [hleaf, if_pos rfl]
    omega

theorem Locked.congr (h : S.Locked tree spell slots locks) (hnext : S.nextNode ≤ S'.nextNode)
    (hsame : ∀ n, SameNode (S.nodes n) (S'.nodes n))
    (hlock : ∀ n, (S'.nodes n).lockRef = (S.nodes n).lockRef)
    (hsize : S'.evictableSize = S.evictableSize) : S'.Locked tree spell slots locks where
  shape := h.shape.congr hnext hsame
  locks_mem := h.locks_mem
  lockRef n hn h0 := by rw [hlock n, h.lockRef n hn h0]
  size := by
    rw [hsize, h.size]
    apply Finset.sum_congr rfl
    intro n _
    unfold evictableAt
    rw [hlock n, (hsame n).value]

theorem Locked.touch (h : S.Locked tree spell slots locks) (clock : Nat → Rat) (n : Nat) :
    (S.touch clock n).Locked tree spell slots locks :=
  h.congr (Nat.le_refl _) (touch_same clock n) (touch_lockRef clock n) rfl

section Walk

theorem Hangs.depth_lt (hn : n ∈ tree)
    (hp : S.Hangs tree spell slots n p) : depth tree spell p < depth tree spell n := by
  apply Finset.card_lt_card
  rw [Finset.ssubset_iff_of_subset]
  · refine ⟨n, Finset.mem_filter.mpr ⟨hn, List.prefix_rfl⟩, ?_⟩
    intro hm
    have hle := (Finset.mem_filter.mp hm).2.length_le
    have hlt := hp.length_lt
    omega
  · intro m hm
    obtain ⟨h1, h2⟩ := Finset.mem_filter.mp hm
    exact Finset.mem_filter.mpr ⟨h1, h2.trans hp.spell_le⟩

theorem Shape.card_le (h : S.Shape tree spell slots) : tree.card ≤ S.nextNode := by
  have hsub : tree ⊆ Finset.range S.nextNode := fun n hn => Finset.mem_range.mpr (h.lt_next n hn)
  have hle := Finset.card_le_card hsub
  rwa [Finset.card_range] at hle

theorem Shape.depth_le (h : S.Shape tree spell slots) (n : Nat) :
    depth tree spell n ≤ S.nextNode :=
  Nat.le_trans (Finset.card_le_card (Finset.filter_subset _ _)) h.card_le

/-- The walk up from a node changes the count of each node on its path, and the evictable
size by what becomes or no longer is evictable. -/
structure Walked (S S' : RadixCache) (tree : Finset Nat) (spell : Nat → List Nat) (node : Nat)
    (change : Int) : Prop where
  next : S'.nextNode = S.nextNode
  same : ∀ n, SameNode (S.nodes n) (S'.nodes n)
  lockRef : ∀ n ∈ tree, n ≠ 0 → (S'.nodes n).lockRef =
    (S.nodes n).lockRef + if spell n <+: spell node then change else 0
  size : S'.evictableSize - ∑ n ∈ tree, S'.evictableAt n =
    S.evictableSize - ∑ n ∈ tree, S.evictableAt n

theorem changeLockRef_spec (before change low : Int)
    (hmoved : ∀ r : Int, low ≤ r → ∀ len : Nat,
      (if r + change = 0 then (len : Int) else 0) - (if r = 0 then (len : Int) else 0) =
        if r = before then -change * len else 0)
    (fuel : Nat) (h : S.Shape tree spell slots) {node : Nat} (delta : Int) (hn : node ∈ tree)
    (hfuel : depth tree spell node ≤ fuel)
    (hlow : ∀ n ∈ tree, n ≠ 0 → spell n <+: spell node → low ≤ (S.nodes n).lockRef) :
    ∃ S' delta', changeLockRef before change fuel S node delta = some (S', delta') ∧
      Walked S S' tree spell node change := by
  induction fuel generalizing S node delta with
  | zero =>
    have hpos : 0 < depth tree spell node :=
      Finset.card_pos.mpr ⟨node, Finset.mem_filter.mpr ⟨hn, List.prefix_rfl⟩⟩
    omega
  | succ fuel ih =>
    by_cases h0 : node = 0
    · refine ⟨S, delta, by simp [changeLockRef, h0], rfl, fun _ => .rfl, ?_, rfl⟩
      intro n hm hm0
      rw [if_neg, add_zero]
      rw [h0, h.root_spell, List.prefix_nil]
      intro e
      exact hm0 (h.spell_inj hm h.root_mem (e.trans h.root_spell.symm))
    · obtain ⟨p, hp⟩ := h.hangs node hn h0
      have hdepth := Hangs.depth_lt hn hp
      let moved : Int := if (S.nodes node).lockRef = before then
        -change * (S.nodes node).value.length else 0
      let S₁ : RadixCache :=
        { S.setNode node { S.nodes node with lockRef := (S.nodes node).lockRef + change } with
          evictableSize := S.evictableSize + moved }
      have hself : S₁.nodes node =
          { S.nodes node with lockRef := (S.nodes node).lockRef + change } := by
        simp [S₁, setNode]
      have hother : ∀ n, n ≠ node → S₁.nodes n = S.nodes n := by
        intro n hne
        simp [S₁, setNode, Function.update_of_ne hne]
      have hsame : ∀ n, SameNode (S.nodes n) (S₁.nodes n) := by
        intro n
        by_cases hne : n = node
        · rw [hne, hself]
          exact ⟨rfl, rfl, rfl, rfl⟩
        · rw [hother n hne]
          exact .rfl
      have hup : ∀ n ∈ tree, n ≠ node → (spell n <+: spell node ↔ spell n <+: spell p) := by
        intro n hm hne
        rw [h.prefix_iff hm hp hn]
        simp [hne]
      have hnp : ¬ spell node <+: spell p := by
        intro e
        have hle := e.length_le
        have hlt := hp.length_lt
        omega
      obtain ⟨S', delta', hrun, hw⟩ := ih (S := S₁) (h.congr (Nat.le_refl _) hsame)
        (delta + moved) hp.mem (by omega) (by
          intro n hm hm0 hpre
          have hne : n ≠ node := fun e => hnp (e ▸ hpre)
          rw [hother n hne]
          exact hlow n hm hm0 ((hup n hm hne).mpr hpre))
      refine ⟨S', delta', ?_, hw.next, ?_, ?_, ?_⟩
      · rw [changeLockRef, if_neg h0]
        simp only [hp.parent]
        rw [← hp.parent]
        exact hrun
      · intro n
        exact (hsame n).trans (hw.same n)
      · intro n hm hm0
        rw [hw.lockRef n hm hm0]
        by_cases hne : n = node
        · rw [hne, hself, if_neg hnp, if_pos List.prefix_rfl, add_zero]
        · rw [hother n hne]
          simp only [hup n hm hne]
      · rw [hw.size]
        have hsum := sum_change (f := S.evictableAt) (g := S₁.evictableAt) hn (by
          intro m _ hne
          unfold evictableAt
          rw [hother m hne])
        have hnode : S₁.evictableAt node - S.evictableAt node = moved := by
          unfold evictableAt
          rw [hself]
          exact hmoved _ (hlow node hn h0 List.prefix_rfl) _
        have hsize : S₁.evictableSize = S.evictableSize + moved := rfl
        omega

/-- The nodes are those of before but for their locks, and the change of the evictable size
is what the walk returns. -/
structure LockChange (S S' : RadixCache) (delta : Int) : Prop where
  same : ∀ n, SameNode (S.nodes n) (S'.nodes n)
  next : S'.nextNode = S.nextNode
  root : (S'.nodes 0).lockRef = (S.nodes 0).lockRef
  delta : delta = S'.evictableSize - S.evictableSize

theorem changeLockRef_change {before change : Int} {fuel node : Nat} {start delta : Int}
    (h : changeLockRef before change fuel S node start = some (S', delta)) :
    LockChange S S' (delta - start) := by
  induction fuel generalizing S node start with
  | zero => cases h
  | succ fuel ih =>
    unfold changeLockRef at h
    split at h
    next =>
      obtain ⟨rfl, rfl⟩ := Prod.mk.inj (Option.some.inj h)
      exact ⟨fun _ => .rfl, rfl, rfl, by omega⟩
    next h0 =>
      dsimp only at h
      split at h
      next => cases h
      next parent hparent =>
        have hw := ih h
        refine ⟨?_, hw.next, ?_, ?_⟩
        · intro n
          have hn := hw.same n
          by_cases hne : n = node
          · subst hne
            constructor
            · rw [hn.children]; simp [setNode]
            · rw [hn.parent]; simp [setNode]
            · rw [hn.key]; simp [setNode]
            · rw [hn.value]; simp [setNode]
          · simpa [setNode, Function.update_of_ne hne] using hn
        · rw [hw.root]
          simp [setNode, Function.update_of_ne (Ne.symm h0)]
        · have hdelta := hw.delta
          dsimp only at hdelta
          omega

theorem incLockRef_change {delta : Int} (h : S.incLockRef n = some (S', delta)) :
    LockChange S S' delta := by
  have hw := changeLockRef_change h
  rwa [sub_zero] at hw

theorem decLockRef_change {delta : Int} (h : S.decLockRef n = some (S', delta)) :
    LockChange S S' delta := by
  have hw := changeLockRef_change h
  rwa [sub_zero] at hw

theorem LockChange.tokens_eq {delta : Int} (h : LockChange S S' delta) (tree : Finset Nat) :
    S'.tokens tree = S.tokens tree := by
  unfold tokens
  apply Finset.sum_congr rfl
  intro n _
  rw [(h.same n).value]

theorem incLockRef_locked (h : S.Locked tree spell slots locks) (hn : n ∈ tree) :
    ∃ S' delta, S.incLockRef n = some (S', delta) ∧
      S'.Locked tree spell slots (n :: locks) := by
  have hdepth := h.shape.depth_le n
  obtain ⟨S', delta, hrun, hw⟩ := changeLockRef_spec 0 1 0
    (by intro r hr len; split <;> split <;> omega) (S.nextNode + 1) h.shape 0 hn (by omega)
    (by intro m hm hm0 _; rw [h.lockRef m hm hm0]; omega)
  have hsize := hw.size
  rw [h.size, sub_self, sub_eq_zero] at hsize
  refine ⟨S', delta, hrun, h.shape.congr (by rw [hw.next]) hw.same, ?_, ?_, hsize⟩
  · intro l hl
    rcases List.mem_cons.mp hl with e | e
    · exact e ▸ hn
    · exact h.locks_mem l e
  · intro m hm hm0
    rw [hw.lockRef m hm hm0, h.lockRef m hm hm0]
    unfold locksUnder
    rw [List.countP_cons]
    by_cases hpre : spell m <+: spell n
    · simp [hpre]
    · simp [hpre]

theorem decLockRef_locked (h : S.Locked tree spell slots locks) (hn : n ∈ locks) :
    ∃ S' delta, S.decLockRef n = some (S', delta) ∧
      S'.Locked tree spell slots (locks.erase n) := by
  have hdepth := h.shape.depth_le n
  have hcount : ∀ m, locksUnder spell locks m =
      locksUnder spell (locks.erase n) m + if spell m <+: spell n then 1 else 0 := by
    intro m
    unfold locksUnder
    rw [(List.perm_cons_erase hn).countP_eq, List.countP_cons]
    simp
  obtain ⟨S', delta, hrun, hw⟩ := changeLockRef_spec 1 (-1) 1
    (by intro r hr len; split <;> split <;> split <;> omega) (S.nextNode + 1) h.shape 0
    (h.locks_mem n hn) (by omega)
    (by intro m hm hm0 hpre; rw [h.lockRef m hm hm0, hcount m, if_pos hpre]; omega)
  have hsize := hw.size
  rw [h.size, sub_self, sub_eq_zero] at hsize
  refine ⟨S', delta, hrun, h.shape.congr (by rw [hw.next]) hw.same, ?_, ?_, hsize⟩
  · exact fun l hl => h.locks_mem l (List.mem_of_mem_erase hl)
  · intro m hm hm0
    rw [hw.lockRef m hm hm0, h.lockRef m hm hm0, hcount m]
    split <;> omega

end Walk

end RadixCache

end FastPP
