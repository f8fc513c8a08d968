import FastPP.Radix.EvictionOrder
import Mathlib.Algebra.Order.BigOperators.Group.Finset

namespace FastPP

/-- A heap kept as a list. -/
def popLeast (time : Nat → Rat) : List Nat → Option (Nat × List Nat)
  | [] => none
  | x :: xs =>
    match popLeast time xs with
    | none => some (x, [])
    | some (y, rest) => if time x ≤ time y then some (x, y :: rest) else some (y, x :: rest)

theorem popLeast_cons (time : Nat → Rat) (x : Nat) (xs : List Nat) :
    ∃ y rest, popLeast time (x :: xs) = some (y, rest) ∧ (y :: rest).Perm (x :: xs) ∧
      ∀ z ∈ rest, time y ≤ time z := by
  induction xs generalizing x with
  | nil => exact ⟨x, [], rfl, .refl _, by simp⟩
  | cons x' xs ih =>
    obtain ⟨y, rest, hpop, hperm, hleast⟩ := ih x'
    by_cases hle : time x ≤ time y
    · refine ⟨x, y :: rest, ?_, hperm.cons x, ?_⟩
      · rw [popLeast, hpop]
        simp only [hle, if_true]
      · intro z hz
        rcases List.mem_cons.mp hz with e | e
        · exact e ▸ hle
        · exact le_trans hle (hleast z e)
    · refine ⟨y, x :: rest, ?_, (List.Perm.swap x y rest).trans (hperm.cons x), ?_⟩
      · rw [popLeast, hpop]
        simp only [hle, if_false]
      · intro z hz
        rcases List.mem_cons.mp hz with e | e
        · exact e ▸ (lt_of_not_ge hle).le
        · exact hleast z e

def Heapq.list : Heapq := ⟨popLeast, fun _ => rfl, popLeast_cons⟩

namespace RadixCache

/-- The states of a cache with the nodes returned by `match_prefix` so far and the locks that
are out. In a `disciplined` run keys and values are of one length and a node that is locked
is still in the tree. -/
inductive Reached (clock : Nat → Rat) (heapq : Heapq) (disciplined : Prop) :
    RadixCache → List Nat → List Nat → Prop
  | reset : Reached clock heapq disciplined (reset clock) [] []
  | insert {S S' : RadixCache} {returned locks key value : List Nat} {len : Nat}
      (h : Reached clock heapq disciplined S returned locks)
      (hlen : disciplined → value.length = key.length)
      (hrun : S.insert clock key value = some (S', len)) :
      Reached clock heapq disciplined S' returned locks
  | matchPrefix {S S' : RadixCache} {returned locks key value : List Nat} {node : Nat}
      (h : Reached clock heapq disciplined S returned locks)
      (hrun : S.matchPrefix clock key = some (S', value, node)) :
      Reached clock heapq disciplined S' (node :: returned) locks
  | incLockRef {S S' : RadixCache} {returned locks : List Nat} {node : Nat} {delta : Int}
      (h : Reached clock heapq disciplined S returned locks) (hnode : node ∈ returned)
      (hin : disciplined → S.InTree node) (hrun : S.incLockRef node = some (S', delta)) :
      Reached clock heapq disciplined S' returned (node :: locks)
  | decLockRef {S S' : RadixCache} {returned locks : List Nat} {node : Nat} {delta : Int}
      (h : Reached clock heapq disciplined S returned locks) (hnode : node ∈ locks)
      (hrun : S.decLockRef node = some (S', delta)) :
      Reached clock heapq disciplined S' returned (locks.erase node)
  | evict {S S' : RadixCache} {returned locks : List Nat} {numTokens : Nat}
      {evicted : List (List Nat)} (h : Reached clock heapq disciplined S returned locks)
      (hrun : S.evict heapq numTokens = some (S', evicted)) :
      Reached clock heapq disciplined S' returned locks

open Classical in
/-- The representation invariant of a cache with the locks that are out. -/
structure Represented (S : RadixCache) (locks : List Nat) : Prop where
  edge : ∀ n, S.InTree n → n ≠ 0 →
    (S.nodes n).value.length = (S.nodes n).key.length ∧ 0 < (S.nodes n).key.length
  parent : ∀ n, S.InTree n → n ≠ 0 → ∃ p t, (S.nodes n).parent = some p ∧ S.InTree p ∧
    (S.nodes n).key.head? = some t ∧ (S.nodes p).children.lookup t = some n
  children : ∀ p, S.InTree p → ∀ t c, (t, c) ∈ (S.nodes p).children →
    (S.nodes c).parent = some p ∧ (S.nodes c).key.head? = some t
  siblings : ∀ p, S.InTree p → (S.nodes p).children.Pairwise fun c d =>
    (S.nodes c.2).key.head? ≠ (S.nodes d.2).key.head?
  lockRef : ∀ n, S.InTree n → n ≠ 0 →
    (S.nodes n).lockRef = locks.countP fun l => decide (S.Descends n l)
  size : S.evictableSize = ∑ n ∈ (Finset.range S.nextNode).filter fun n => S.InTree n ∧ n ≠ 0 ∧
    (S.nodes n).lockRef = 0, ((S.nodes n).value.length : Int)

/-- No operation fails: neither by an exception nor for want of fuel. -/
structure Returns (clock : Nat → Rat) (heapq : Heapq) (S : RadixCache) (locks : List Nat) :
    Prop where
  insert : ∀ key value, value.length = key.length → (S.insert clock key value).isSome
  matchPrefix : ∀ key, (S.matchPrefix clock key).isSome
  incLockRef : ∀ node, S.InTree node → (S.incLockRef node).isSome
  decLockRef : ∀ node ∈ locks, (S.decLockRef node).isSome
  evict : ∀ numTokens, (S.evict heapq numTokens).isSome

variable {S S' : RadixCache} {tree : Finset Nat} {spell slots : Nat → List Nat}
  {locks returned : List Nat} {clock : Nat → Rat} {heapq : Heapq}

theorem reset_locked (clock : Nat → Rat) :
    (reset clock).Locked {0} (fun _ => []) (fun _ => []) [] := by
  have hnode : (reset clock).nodes 0 = { TreeNode.new (clock 0) with lockRef := 1 } := by
    simp [reset]
  have hzero : ∀ n ∈ ({0} : Finset Nat), n = 0 := fun n hn => Finset.mem_singleton.mp hn
  refine ⟨⟨by simp, rfl, rfl, by rw [hnode]; rfl, ?_, ?_, ?_, ?_⟩, by simp, ?_, ?_⟩
  · intro n hn
    rw [hzero n hn]
    exact Nat.zero_lt_one
  · exact fun n hn h0 => absurd (hzero n hn) h0
  · intro p hp t c hc
    rw [hzero p hp, hnode] at hc
    simp [TreeNode.new] at hc
  · intro p hp
    rw [hzero p hp, hnode]
    simp [TreeNode.new]
  · exact fun n hn h0 => absurd (hzero n hn) h0
  · rw [Finset.sum_singleton]
    unfold evictableAt
    rw [hnode]
    rfl

theorem insert_spec (clock : Nat → Rat) (h : S.Locked tree spell slots locks) {key value : List Nat}
    (hlen : value.length = key.length) :
    ∃ S' len tree' spell' slots', S.insert clock key value = some (S', len) ∧
      S'.Locked tree' spell' slots' locks ∧
      Inserted tree spell slots 0 key value tree' spell' slots' len :=
  insertHelper_spec clock _ key value h h.shape.root_mem (Nat.lt_succ_self _) hlen

theorem matchPrefix_spec (clock : Nat → Rat) (h : S.Locked tree spell slots locks) (key : List Nat) :
    ∃ S' found last tree' spell' slots', S.matchPrefix clock key = some (S', found, last) ∧
      S'.Locked tree' spell' slots' locks ∧ SameMap tree spell slots tree' spell' slots' ∧
      last ∈ tree' ∧ Found tree spell slots 0 key spell' slots' last found ∧
      S'.tokens tree' = S.tokens tree := by
  obtain ⟨S', found, last, tree', spell', slots', hrun, h'⟩ :=
    matchPrefixHelper_spec clock (key.length + 1) key [] h h.shape.root_mem
      (Nat.lt_succ_self _)
  exact ⟨S', found, last, tree', spell', slots', hrun, h'⟩

/-- Every operation of a disciplined run keeps the tree and its counts. -/
theorem Reached.locked (h : Reached clock heapq True S returned locks) :
    ∃ tree spell slots, S.Locked tree spell slots locks := by
  induction h with
  | reset => exact ⟨_, _, _, reset_locked clock⟩
  | insert _ hlen hrun ih =>
    obtain ⟨tree, spell, slots, hl⟩ := ih
    obtain ⟨S', len, tree', spell', slots', hrun', hl', _⟩ := insert_spec clock hl (hlen trivial)
    cases Option.some.inj (hrun.symm.trans hrun')
    exact ⟨_, _, _, hl'⟩
  | matchPrefix _ hrun ih =>
    obtain ⟨tree, spell, slots, hl⟩ := ih
    obtain ⟨S', found, last, tree', spell', slots', hrun', hl', _⟩ := matchPrefix_spec clock hl _
    cases Option.some.inj (hrun.symm.trans hrun')
    exact ⟨_, _, _, hl'⟩
  | incLockRef _ _ hin hrun ih =>
    obtain ⟨tree, spell, slots, hl⟩ := ih
    obtain ⟨S', delta, hrun', hl'⟩ :=
      incLockRef_locked hl ((hl.shape.inTree_iff).mp (hin trivial))
    cases Option.some.inj (hrun.symm.trans hrun')
    exact ⟨_, _, _, hl'⟩
  | decLockRef _ hnode hrun ih =>
    obtain ⟨tree, spell, slots, hl⟩ := ih
    obtain ⟨S', delta, hrun', hl'⟩ := decLockRef_locked hl hnode
    cases Option.some.inj (hrun.symm.trans hrun')
    exact ⟨_, _, _, hl'⟩
  | evict _ hrun ih =>
    obtain ⟨tree, spell, slots, hl⟩ := ih
    obtain ⟨S', evicted, tree', hrun', hl'⟩ := evict_spec heapq hl _
    cases Option.some.inj (hrun.symm.trans hrun')
    exact ⟨_, _, _, hl'⟩

theorem Locked.represented (h : S.Locked tree spell slots locks) : S.Represented locks where
  edge n hn h0 := by
    obtain ⟨p, hp⟩ := h.shape.hangs n (h.shape.inTree_iff.mp hn) h0
    exact ⟨hp.value_length, List.length_pos_iff.mpr hp.key_ne⟩
  parent n hn h0 := by
    obtain ⟨p, hp⟩ := h.shape.hangs n (h.shape.inTree_iff.mp hn) h0
    obtain ⟨t, ht, hc⟩ := hp.child
    exact ⟨p, t, hp.parent, h.shape.inTree_iff.mpr hp.mem, ht,
      (lookup_eq_some (h.shape.keys p hp.mem)).mpr hc⟩
  children p hp t c hc := (h.shape.children p (h.shape.inTree_iff.mp hp) t c hc).2.2
  siblings p hp := by
    have hpt := h.shape.inTree_iff.mp hp
    have hnd := List.pairwise_map.mp (h.shape.keys p hpt)
    apply hnd.imp_of_mem
    intro c d hc hd hne
    rw [(h.shape.children p hpt c.1 c.2 hc).2.2.2, (h.shape.children p hpt d.1 d.2 hd).2.2.2]
    exact fun e => hne (Option.some.inj e)
  lockRef n hn h0 := by
    classical
    have hnt := h.shape.inTree_iff.mp hn
    rw [h.lockRef n hnt h0]
    congr 1
    apply List.countP_congr
    intro l hl
    rw [decide_eq_true_eq, decide_eq_true_eq]
    exact (h.shape.descends_iff hnt (h.locks_mem l hl)).symm
  size := by
    classical
    have hset : ((Finset.range S.nextNode).filter fun n => S.InTree n ∧ n ≠ 0 ∧
        (S.nodes n).lockRef = 0) = (tree.erase 0).filter fun n => (S.nodes n).lockRef = 0 := by
      ext n
      simp only [Finset.mem_filter, Finset.mem_range, Finset.mem_erase, h.shape.inTree_iff]
      constructor
      · rintro ⟨_, ht, h0, hl⟩
        exact ⟨⟨h0, ht⟩, hl⟩
      · rintro ⟨⟨h0, ht⟩, hl⟩
        exact ⟨h.shape.lt_next n ht, ht, h0, hl⟩
    have hroot := Finset.add_sum_erase tree S.evictableAt h.shape.root_mem
    rw [h.shape.evictableAt_root, zero_add] at hroot
    rw [h.size, ← hroot, hset, Finset.sum_filter]
    rfl

theorem Locked.returns (h : S.Locked tree spell slots locks) : Returns clock heapq S locks where
  insert key value hlen := by
    obtain ⟨_, _, _, _, _, hrun, _⟩ := insert_spec clock h hlen
    rw [hrun]
    rfl
  matchPrefix key := by
    obtain ⟨_, _, _, _, _, _, hrun, _⟩ := matchPrefix_spec clock h key
    rw [hrun]
    rfl
  incLockRef node hn := by
    obtain ⟨_, _, hrun, _⟩ := incLockRef_locked h (h.shape.inTree_iff.mp hn)
    rw [hrun]
    rfl
  decLockRef node hn := by
    obtain ⟨_, _, hrun, _⟩ := decLockRef_locked h hn
    rw [hrun]
    rfl
  evict numTokens := by
    obtain ⟨_, _, _, hrun, _⟩ := evict_spec heapq h numTokens
    rw [hrun]
    rfl

/-- Along disciplined runs the representation is right and every operation returns. -/
theorem reached_represented (h : Reached clock heapq True S returned locks) :
    S.Represented locks ∧ Returns clock heapq S locks := by
  obtain ⟨tree, spell, slots, hl⟩ := h.locked
  exact ⟨hl.represented, hl.returns⟩

/-- Two keys with a common token, and a lock on the node where they part. -/
theorem reached_represented_parted : ∃ S, Reached (fun _ => 0) .list True S [3] [3] ∧
    S.Represented [3] ∧ Returns (fun _ => 0) .list S [3] := by
  have h₀ : Reached (fun _ => 0) .list True (reset fun _ => 0) [] [] := .reset
  have h₁ := h₀.insert (fun _ => by rfl)
    (show (reset fun _ => 0).insert (fun _ => 0) [5, 6] [9, 8] = some (_, _) from rfl)
  have h₂ := h₁.insert (fun _ => by rfl)
    (show insert (fun _ => 0) _ [5, 7] [9, 4] = some (_, 1) from rfl)
  have h₃ := h₂.matchPrefix (show matchPrefix (fun _ => 0) _ [5, 7, 1] = some (_, _, 3) from rfl)
  have h₄ := h₃.incLockRef List.mem_cons_self (fun _ => ⟨_, _, .child (p := 2) (t := 7)
    (.child .root (t := 5) (by decide)) (by decide)⟩) (show incLockRef _ 3 = some (_, _) from rfl)
  exact ⟨_, h₄, reached_represented h₄⟩

theorem Represented.size_nonneg (h : S.Represented locks) : 0 ≤ S.evictableSize := by
  rw [h.size]
  exact Finset.sum_nonneg fun n _ => Int.natCast_nonneg _

/-- Without discipline the representation breaks: by a key longer than its slots, and by a
lock on a node that was evicted after its match. -/
theorem undisciplined_not_represented :
    (∃ S, Reached (fun _ => 0) .list False S [] [] ∧ ¬ S.Represented []) ∧
    ∃ S, Reached (fun _ => 0) .list False S [1] [1] ∧ ¬ S.Represented [1] := by
  have h₀ : Reached (fun _ => 0) .list False (reset fun _ => 0) [] [] := .reset
  constructor
  · have h₁ := h₀.insert False.elim
      (show (reset fun _ => 0).insert (fun _ => 0) [5] [] = some (_, _) from rfl)
    refine ⟨_, h₁, ?_⟩
    intro hr
    have he := (hr.edge 1 ⟨_, _, .child .root (t := 5) (by decide)⟩ (by decide)).1
    exact absurd he (by decide)
  · have h₁ := h₀.insert False.elim
      (show (reset fun _ => 0).insert (fun _ => 0) [5] [9] = some (_, _) from rfl)
    have h₂ := h₁.matchPrefix (show matchPrefix (fun _ => 0) _ [5] = some (_, _, 1) from rfl)
    have h₃ := h₂.evict (show evict .list _ 1 = some (_, _) from rfl)
    have h₄ := h₃.incLockRef List.mem_cons_self False.elim
      (show incLockRef _ 1 = some (_, _) from rfl)
    refine ⟨_, h₄, ?_⟩
    intro hr
    exact absurd hr.size_nonneg (by decide)

end RadixCache

end FastPP
