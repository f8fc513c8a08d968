import FastPP.Radix.Runs

namespace FastPP

namespace RadixCache

open Classical in
/-- The tokens of the nodes that are locked. -/
noncomputable def lockedTokens (S : RadixCache) : Int :=
  ∑ n ∈ (Finset.range S.nextNode).filter fun n => S.InTree n ∧ 0 < (S.nodes n).lockRef,
    ((S.nodes n).value.length : Int)

variable {S S' : RadixCache} {tree : Finset Nat} {spell slots : Nat → List Nat}
  {locks locks' : List Nat} {n : Nat} {delta : Int}

/-- Each token of the tree is locked or evictable. -/
theorem Locked.locked_add_evictable (h : S.Locked tree spell slots locks) :
    S.lockedTokens + S.evictableSize = S.tokens tree := by
  classical
  have hset : ((Finset.range S.nextNode).filter fun n => S.InTree n ∧ 0 < (S.nodes n).lockRef) =
      tree.filter fun n => 0 < (S.nodes n).lockRef := by
    ext n
    simp only [Finset.mem_filter, Finset.mem_range, h.shape.inTree_iff]
    constructor
    · rintro ⟨_, ht, hl⟩
      exact ⟨ht, hl⟩
    · rintro ⟨ht, hl⟩
      exact ⟨h.shape.lt_next n ht, ht, hl⟩
  have hlocked : S.lockedTokens =
      ∑ n ∈ tree, if 0 < (S.nodes n).lockRef then ((S.nodes n).value.length : Int) else 0 := by
    unfold lockedTokens
    rw [hset, Finset.sum_filter]
  rw [hlocked, h.size, ← Finset.sum_add_distrib]
  apply Finset.sum_congr rfl
  intro n hn
  by_cases h0 : n = 0
  · rw [h0, h.shape.evictableAt_root, h.shape.root_value]
    simp
  · have hcount := h.lockRef n hn h0
    unfold evictableAt
    by_cases hz : (S.nodes n).lockRef = 0
    · simp [hz]
    · have hpos : 0 < (S.nodes n).lockRef := by omega
      simp [hz, hpos]

/-- The evictable size is that of any cache with the same nodes where the same ones are
locked. -/
theorem Locked.size_congr (h : S.Locked tree spell slots locks)
    (h' : S'.Locked tree spell slots locks') (hsame : ∀ n, SameNode (S.nodes n) (S'.nodes n))
    (hlocks : ∀ n, locksUnder spell locks' n = 0 ↔ locksUnder spell locks n = 0) :
    S'.evictableSize = S.evictableSize := by
  rw [h.size, h'.size]
  apply Finset.sum_congr rfl
  intro n hn
  by_cases h0 : n = 0
  · rw [h0, h.shape.evictableAt_root, h'.shape.evictableAt_root]
  · unfold evictableAt
    rw [h.lockRef n hn h0, h'.lockRef n hn h0, (hsame n).value]
    have hiff := hlocks n
    split
    next hz => rw [if_pos (by omega)]
    next hz => rw [if_neg (by omega)]

theorem locksUnder_twice (spell : Nat → List Nat) (locks : List Nat) (node n : Nat) :
    locksUnder spell (node :: node :: locks) n = 0 ↔ locksUnder spell (node :: locks) n = 0 := by
  unfold locksUnder
  rw [List.countP_cons, List.countP_cons]
  omega

theorem splitNode_size {clock : Nat → Rat} {child k new : Nat}
    (h : S.splitNode clock child k = some (S', new)) : S'.evictableSize = S.evictableSize := by
  unfold splitNode at h
  obtain ⟨splitToken, _, h⟩ := Option.bind_eq_some_iff.mp h
  obtain ⟨firstToken, _, h⟩ := Option.bind_eq_some_iff.mp h
  obtain ⟨parent, _, h⟩ := Option.bind_eq_some_iff.mp h
  cases Option.some.inj h
  rfl

theorem matchPrefixHelper_size {clock : Nat → Rat} {fuel node last last' : Nat}
    {key value value' : List Nat}
    (h : matchPrefixHelper clock fuel S node key value last = some (S', value', last')) :
    S'.evictableSize = S.evictableSize := by
  induction fuel generalizing S node key value last with
  | zero => cases h
  | succ fuel ih =>
    have htouch : (S.touch clock node).evictableSize = S.evictableSize := rfl
    unfold matchPrefixHelper at h
    dsimp only at h
    split at h
    next =>
      cases Option.some.inj h
      exact htouch
    next =>
      split at h
      next =>
        cases Option.some.inj h
        exact htouch
      next =>
        split at h
        next =>
          obtain ⟨⟨S₁, new⟩, hsplit, h⟩ := Option.bind_eq_some_iff.mp h
          cases Option.some.inj h
          exact (splitNode_size hsplit).trans htouch
        next => exact (ih h).trans htouch

/-- What an admission leaves of the cache: the same nodes, with `locks'` instead of `locks`. -/
structure Relocked (S S' : RadixCache) (tree : Finset Nat) (spell slots : Nat → List Nat)
    (locks' : List Nat) : Prop where
  locked : S'.Locked tree spell slots locks'
  same : ∀ n, SameNode (S.nodes n) (S'.nodes n)
  root : (S'.nodes 0).lockRef = (S.nodes 0).lockRef

theorem Relocked.tokens_eq (h : Relocked S S' tree spell slots locks') :
    S'.tokens tree = S.tokens tree := by
  unfold tokens
  apply Finset.sum_congr rfl
  intro n _
  rw [(h.same n).value]

theorem Relocked.incLockRef {S₁ : RadixCache} (h : Relocked S S₁ tree spell slots locks)
    (hn : n ∈ tree) :
    ∃ S' delta, S₁.incLockRef n = some (S', delta) ∧
      Relocked S S' tree spell slots (n :: locks) ∧
      delta = S'.evictableSize - S₁.evictableSize := by
  obtain ⟨S', delta, hrun, hl⟩ := incLockRef_locked h.locked hn
  have hchange := incLockRef_change hrun
  refine ⟨S', delta, hrun, ⟨hl, ?_, hchange.root.trans h.root⟩, hchange.delta⟩
  intro m
  exact (h.same m).trans (hchange.same m)

theorem Relocked.decLockRef {S₁ : RadixCache} (h : Relocked S S₁ tree spell slots locks)
    (hn : n ∈ locks) :
    ∃ S' delta, S₁.decLockRef n = some (S', delta) ∧
      Relocked S S' tree spell slots (locks.erase n) ∧
      delta = S'.evictableSize - S₁.evictableSize := by
  obtain ⟨S', delta, hrun, hl⟩ := decLockRef_locked h.locked hn
  have hchange := decLockRef_change hrun
  refine ⟨S', delta, hrun, ⟨hl, ?_, hchange.root.trans h.root⟩, hchange.delta⟩
  intro m
  exact (h.same m).trans (hchange.same m)

theorem Relocked.refl (h : S.Locked tree spell slots locks) :
    Relocked S S tree spell slots locks where
  locked := h
  same _ := .rfl
  root := rfl

theorem Relocked.evictableSize_eq (h : S.Locked tree spell slots locks)
    (h' : Relocked S S' tree spell slots locks) : S'.evictableSize = S.evictableSize := by
  apply h.size_congr h'.locked h'.same
  intro n
  exact Iff.rfl

theorem Relocked.lockRef_eq (h : S.Locked tree spell slots locks)
    (h' : Relocked S S' tree spell slots locks) (hn : n ∈ tree) :
    (S'.nodes n).lockRef = (S.nodes n).lockRef := by
  by_cases h0 : n = 0
  · rw [h0]
    exact h'.root
  · rw [h.lockRef n hn h0, h'.locked.lockRef n hn h0]

end RadixCache

namespace RadixCache

variable {U S U' S' : RadixCache} {locks : List Nat} {n : Nat}

/-- `S` is `U` after evictions: the nodes that are gone are locked by none. -/
def Trimmed (U S : RadixCache) (locks : List Nat) : Prop :=
  ∃ (whole tree : Finset Nat) (spell slots : Nat → List Nat),
    U.Locked whole spell slots locks ∧ S.Locked tree spell slots locks ∧ tree ⊆ whole ∧
      (∀ x ∈ tree, (S.nodes x).value.length = (U.nodes x).value.length) ∧
      ∀ x ∈ whole, x ∉ tree → locksUnder spell locks x = 0

/-- The tokens of the nodes that are gone are what the evictable sizes differ by. -/
theorem trimmed_gap {whole tree : Finset Nat} {spell slots : Nat → List Nat}
    (hU : U.Locked whole spell slots locks) (hS : S.Locked tree spell slots locks)
    (hsub : tree ⊆ whole)
    (hvalue : ∀ x ∈ tree, (S.nodes x).value.length = (U.nodes x).value.length)
    (hgone : ∀ x ∈ whole, x ∉ tree → locksUnder spell locks x = 0) :
    U.evictableSize = S.evictableSize +
      ∑ x ∈ whole \ tree, ((U.nodes x).value.length : Int) := by
  rw [hU.size, hS.size, ← Finset.sum_sdiff hsub, add_comm]
  congr 1
  · apply Finset.sum_congr rfl
    intro x hx
    by_cases h0 : x = 0
    · rw [h0, hU.shape.evictableAt_root, hS.shape.evictableAt_root]
    · unfold evictableAt
      rw [hU.lockRef x (hsub hx) h0, hS.lockRef x hx h0, hvalue x hx]
  · apply Finset.sum_congr rfl
    intro x hx
    obtain ⟨hw, ht⟩ := Finset.mem_sdiff.mp hx
    have h0 : x ≠ 0 := by
      rintro rfl
      exact ht hS.shape.root_mem
    unfold evictableAt
    rw [hU.lockRef x hw h0, hgone x hw ht]
    rfl

theorem locksUnder_erase (spell : Nat → List Nat) (locks : List Nat) (node n : Nat) :
    locksUnder spell (locks.erase node) n ≤ locksUnder spell locks n :=
  List.erase_sublist.countP_le

/-- A lock that is released frees the same tokens in both. -/
theorem Trimmed.decLockRef (h : Trimmed U S locks) (hn : n ∈ locks) :
    ∃ U' S' delta, U.decLockRef n = some (U', delta) ∧ S.decLockRef n = some (S', delta) ∧
      Trimmed U' S' (locks.erase n) ∧ U'.evictableSize = U.evictableSize + delta ∧
      S'.evictableSize = S.evictableSize + delta := by
  obtain ⟨whole, tree, spell, slots, hU, hS, hsub, hvalue, hgone⟩ := h
  obtain ⟨U', deltaU, hrunU, hU'⟩ := decLockRef_locked hU hn
  obtain ⟨S', deltaS, hrunS, hS'⟩ := decLockRef_locked hS hn
  have hchangeU := decLockRef_change hrunU
  have hchangeS := decLockRef_change hrunS
  have hvalue' : ∀ x ∈ tree, (S'.nodes x).value.length = (U'.nodes x).value.length := by
    intro x hx
    rw [(hchangeS.same x).value, (hchangeU.same x).value]
    exact hvalue x hx
  have hgone' : ∀ x ∈ whole, x ∉ tree → locksUnder spell (locks.erase n) x = 0 := by
    intro x hw ht
    have hle := locksUnder_erase spell locks n x
    have hzero := hgone x hw ht
    omega
  have hgap := trimmed_gap hU hS hsub hvalue hgone
  have hgap' := trimmed_gap hU' hS' hsub hvalue' hgone'
  have hsame : ∑ x ∈ whole \ tree, ((U'.nodes x).value.length : Int) =
      ∑ x ∈ whole \ tree, ((U.nodes x).value.length : Int) := by
    apply Finset.sum_congr rfl
    intro x _
    rw [(hchangeU.same x).value]
  have hdeltaU := hchangeU.delta
  have hdeltaS := hchangeS.delta
  have hdelta : deltaU = deltaS := by omega
  subst hdelta
  exact ⟨U', S', deltaU, hrunU, hrunS,
    ⟨whole, tree, spell, slots, hU', hS', hsub, hvalue', hgone'⟩, by omega, by omega⟩

/-- An eviction only trims. -/
theorem Trimmed.evict (h : Trimmed U S locks) (heapq : Heapq) (numTokens : Nat) :
    ∃ S' removed evicted, S.evict heapq numTokens = some (S', evicted) ∧
      Frees S numTokens removed S' evicted ∧ Trimmed U S' locks := by
  obtain ⟨whole, tree, spell, slots, hU, hS, hsub, hvalue, hgone⟩ := h
  obtain ⟨S', removed, evicted, tree', hrun, hS', hfrees⟩ := evict_frees heapq hS numTokens
  have hmem : ∀ x, x ∈ tree' ↔ x ∈ tree ∧ x ∉ removed := by
    intro x
    rw [← hS'.shape.inTree_iff, hfrees.steps.gone.2.2, hS.shape.inTree_iff]
  refine ⟨S', removed, evicted, hrun, hfrees, whole, tree', spell, slots, hU, hS', ?_, ?_, ?_⟩
  · intro x hx
    exact hsub ((hmem x).mp hx).1
  · intro x hx
    rw [hfrees.steps.value_eq]
    exact hvalue x ((hmem x).mp hx).1
  · intro x hw ht
    by_cases hx : x ∈ tree
    · have hremoved : x ∈ removed := by
        by_contra hnot
        exact ht ((hmem x).mpr ⟨hx, hnot⟩)
      have hfree := hfrees.steps.unlocked hremoved
      have h0 : x ≠ 0 := by
        rintro rfl
        exact ht hS'.shape.root_mem
      have hcount := hS.lockRef x hx h0
      omega
    · exact hgone x hw hx

theorem Trimmed.refl {tree : Finset Nat} {spell slots : Nat → List Nat}
    (h : S.Locked tree spell slots locks) : Trimmed S S locks :=
  ⟨tree, tree, spell, slots, h, h, fun _ hx => hx, fun _ _ => rfl, fun _ hx hnot => absurd hx hnot⟩

end RadixCache

end FastPP
