import FastPP.RetractExact

namespace FastPP

namespace DecodeMemory

variable {heapq : Heapq} {clock : Nat → Rat} {steps bs k : Nat} {order reqs : List DecodeReq}
  {m m' : DecodeMemory} {disable : Bool} {tree : RadixCache} {M : Nat → DecodeMemory}

theorem Held.over (h : Held clock heapq m reqs) (hcache : m.treeCache = .radix disable tree) :
    ∃ locks, Over m disable tree tree locks ∧ (disable = false →
      ∃ others, locks.Perm (reqs.map DecodeReq.lastNode ++ others)) := by
  cases disable with
  | true => exact ⟨[], ⟨h.flag, hcache, Bool.noConfusion⟩, Bool.noConfusion⟩
  | false =>
    obtain ⟨returned, locks, others, hreached, hperm⟩ := h.radix tree hcache
    obtain ⟨nodes, spell, slots, hl⟩ := hreached.locked
    exact ⟨locks, ⟨h.flag, hcache, fun _ => .refl hl⟩, fun _ => ⟨others, hperm⟩⟩

/-- What can be had is what is free or evictable. -/
theorem Over.obtainable_iff {locks : List Nat} (h : Over m disable tree tree locks)
    (heapq : Heapq) (bs : Nat) :
    m.Obtainable heapq bs ↔ (bs : Int) ≤ m.availableSize + m.evictableSize := by
  constructor
  · rintro ⟨numTokens, m', hrun, hle⟩
    obtain ⟨m₁, S', hrun₁, hover, hsum, _⟩ := h.evict heapq numTokens
    cases Option.some.inj (hrun.symm.trans hrun₁)
    have hnonneg := hover.evictable_nonneg
    omega
  · intro hle
    obtain ⟨m₁, S', hrun, hover, hsum, _, henough⟩ := h.evict heapq bs
    have hnonneg := hover.evictable_nonneg
    exact ⟨bs, m₁, hrun, by omega⟩

/-- After the eviction the check compares the count from before it. -/
theorem Over.checksRight_iff {locks : List Nat} (h : Over m disable tree tree locks)
    (heapq : Heapq) (bs : Nat) :
    ChecksRight heapq m bs ↔
      bs ≤ m.availableSize ∨ (m.availableSize : Int) + m.evictableSize < bs := by
  have hiff := h.obtainable_iff heapq bs
  have hnonneg := h.evictable_nonneg
  obtain ⟨m₁, _, hrun, _⟩ := h.evict heapq bs
  unfold ChecksRight checkDecodeMem
  by_cases hle : bs ≤ m.availableSize
  · rw [if_pos (by omega), hiff]
    constructor
    · intro _
      exact .inl hle
    · intro _
      refine ⟨true, m, rfl, fun _ => by omega, fun _ => rfl⟩
  · rw [if_neg (by omega), hrun, hiff]
    have hfalse : decide ((bs : Int) ≤ (m.availableSize : Int)) = false := by
      rw [decide_eq_false_iff_not]
      omega
    constructor
    · rintro ⟨result, m', hresult, hright⟩
      cases Option.some.inj hresult
      right
      by_contra hlt
      have htrue := hright.mpr (by omega)
      rw [hfalse] at htrue
      cases htrue
    · intro hcase
      refine ⟨_, m₁, rfl, ?_, ?_⟩
      · intro htrue
        rw [hfalse] at htrue
        cases htrue
      · intro hroom
        omega

/-- Enough slots are free at a point just when enough could be reclaimed. -/
theorem RadixTrace.short_iff (h : RadixTrace heapq steps m disable tree order M) {j : Nat}
    (hpos : 1 ≤ j) (hj : j ≤ order.length) :
    (M j).availableSize < (order.length - j) * steps ↔
      ∃ size, m.reclaimable disable tree (order.take j) = some size ∧
        size < ((order.length - j) * steps : Nat) := by
  have hnonneg := h.nonneg j hj
  have henough := h.enough j hpos hj
  rw [h.reclaim j hj]
  constructor
  · intro hlt
    exact ⟨_, rfl, by omega⟩
  · rintro ⟨size, hsize, hlt⟩
    cases Option.some.inj hsize
    omega

theorem RadixTrace.available_le (h : RadixTrace heapq steps m disable tree order M) {i j : Nat}
    (hij : i ≤ j) (hj : j ≤ order.length) : (M i).availableSize ≤ (M j).availableSize := by
  induction j with
  | zero =>
    rw [Nat.le_zero.mp hij]
  | succ j ih =>
    rcases Nat.le_succ_iff.mp hij with e | e
    · exact (ih e (by omega)).trans (h.mono j hj)
    · rw [e]

/-- The loop over a radix cache keeps the rule just when what it gives back comes too late. -/
theorem RadixTrace.retractsRight_iff
    (h : RadixTrace heapq steps m disable tree (popOrder reqs) M) (hne : reqs ≠ []) :
    RetractsRight heapq steps m reqs ↔ ReclaimsLate steps m disable tree (popOrder reqs) := by
  have hlen := popOrder_length reqs
  have hpos := List.length_pos_iff.mpr hne
  have hstart : M 0 = m := by
    have hzero := h.run 0 (Nat.zero_le _)
    exact (Option.some.inj hzero).symm
  obtain ⟨k, m', hpops, hloop, hstop⟩ := @retractFrom_pops (popOrder reqs) m heapq steps true
    (fun _ => m.availableSize) (by intro hnil; rw [hnil, List.length_nil] at hlen; omega) (by
      intro j m₁ req hj hm₁ hreq
      cases Option.some.inj (hm₁.symm.trans (h.run j (by omega)))
      exact ⟨M (j + 1), h.req j req (by omega) hreq _⟩)
  have hk := hpops.lt
  have hm' : m' = M k := by
    have hrun := hpops.run
    rw [h.run k hk.le] at hrun
    exact (Option.some.inj hrun).symm
  have hgrow := h.available_le (Nat.zero_le k) hk.le
  rw [hstart] at hgrow
  have hright : RetractsRight heapq steps m reqs ↔ StopsRight heapq steps m reqs
      (endAfter steps (popOrder reqs) true m.availableSize k m') := by
    constructor
    · rintro ⟨e, he, hstops⟩
      cases Option.some.inj (he.symm.trans hloop)
      exact hstops
    · intro hstops
      exact ⟨_, hloop, hstops⟩
  rw [hright]
  unfold endAfter
  split
  next hnone =>
    have hzero : m.availableSize = 0 := by
      have hle := hnone.2
      omega
    have hkn : k + 1 = (popOrder reqs).length := hstop.resolve_right fun e => e hnone.1
    constructor
    · rintro ⟨_, hempty⟩
      rw [hm'] at hempty
      refine ⟨?_, ?_⟩
      · intro j hj hjn hlt
        have hle := h.available_le (show j ≤ k by omega) hk.le
        exact (h.short_iff hj (by omega)).mp (by omega)
      · intro htwo _ hsteps
        have henough := h.enough k (by omega) hk.le
        have hone : (popOrder reqs).length - k = 1 := by omega
        rw [hone, Nat.one_mul] at henough
        rw [show (popOrder reqs).length - 1 = k by omega]
        exact ⟨_, h.reclaim k hk.le, by omega⟩
    · intro hlate
      refine ⟨⟨k, hpops.run⟩, ?_⟩
      by_cases hk0 : k = 0
      · rw [hm', hk0, hstart]
        exact hzero
      · have hone : (popOrder reqs).length - k = 1 := by omega
        have hsteps : 0 < steps := by
          rcases hnone.1 with e | e
          · rw [hone, Nat.one_mul] at e
            omega
          · exact absurd e.2 hk0
        obtain ⟨size, hsize, hle⟩ := hlate.last (by omega) hzero hsteps
        rw [show (popOrder reqs).length - 1 = k by omega, h.reclaim k hk.le] at hsize
        cases Option.some.inj hsize
        have hnonneg := h.nonneg k hk.le
        rw [hm']
        omega
  next hkept =>
    rw [stopsRight_kept hpops hstop, ← hlen]
    constructor
    · rintro ⟨_, hfirst⟩
      refine ⟨?_, ?_⟩
      · intro j hj hjn hlt
        by_cases hjk : j < k
        · obtain ⟨m₁, hm₁, hshort⟩ := hfirst j hj hjk
          cases Option.some.inj (hm₁.symm.trans (h.run j (by omega)))
          exact (h.short_iff hj (by omega)).mp hshort
        · -- the loop stopped before, on a larger need
          have hneed := Nat.mul_le_mul_right steps
            (show (popOrder reqs).length - j ≤ (popOrder reqs).length - k by omega)
          rcases hstop with e | e
          · omega
          · exact absurd (.inl (by omega)) e
      · intro _ hzero hsteps
        have hneed : 0 < ((popOrder reqs).length - k) * steps := Nat.mul_pos (by omega) hsteps
        exact absurd ⟨.inl (by omega), by omega⟩ hkept
    · intro hlate
      refine ⟨?_, ?_⟩
      · rcases hstop with e | e
        · exact .inl e
        · right
          rw [hm']
          by_contra hlt
          exact e (.inl (by omega))
      · intro j hj hjk
        refine ⟨M j, h.run j (by omega), ?_⟩
        apply (h.short_iff hj (by omega)).mpr
        apply hlate.stop j hj (by omega)
        rcases hpops.short j hjk with e | e
        · omega
        · omega

/-- Over a `ChunkCache` the check and the loop are right; over a `RadixCache` the check is
right unless an eviction is what it needs, and the loop when what it gives back comes too late
to matter. -/
theorem retraction_exact (hheld : Held clock heapq m reqs) (hne : reqs ≠ []) (steps : Nat) :
    (∀ entries, m.treeCache = .chunk entries →
      ChecksRight heapq m reqs.length ∧ RetractsRight heapq steps m reqs) ∧
    ∀ disable tree, m.treeCache = .radix disable tree →
      (ChecksRight heapq m reqs.length ↔ reqs.length ≤ m.availableSize ∨
        (m.availableSize : Int) + m.evictableSize < reqs.length) ∧
      (RetractsRight heapq steps m reqs ↔ ReclaimsLate steps m disable tree (popOrder reqs)) := by
  constructor
  · intro entries hcache
    refine ⟨?_, chunk_retractsRight hheld hcache hne steps⟩
    have hevict : ∀ n, m.evict heapq n = some m := by
      intro n
      unfold evict
      rw [hcache]
    have hiff : m.Obtainable heapq reqs.length ↔ reqs.length ≤ m.availableSize := by
      constructor
      · rintro ⟨n, m', hrun, hle⟩
        rw [hevict] at hrun
        cases Option.some.inj hrun
        exact hle
      · intro hle
        exact ⟨0, m, hevict 0, hle⟩
    unfold ChecksRight checkDecodeMem
    rw [hiff]
    split
    next hle => exact ⟨true, m, rfl, fun _ => by omega, fun _ => rfl⟩
    next hgt =>
      rw [hevict]
      refine ⟨_, m, rfl, ?_⟩
      rw [decide_eq_true_eq]
      omega
  · intro disable tree hcache
    obtain ⟨locks, hover, hlocks⟩ := hheld.over hcache
    refine ⟨hover.checksRight_iff heapq _, ?_⟩
    obtain ⟨M, htrace⟩ := @Over.trace heapq steps (popOrder reqs) m disable tree locks hover (by
      intro hd
      obtain ⟨others, hperm⟩ := hlocks hd
      refine ⟨others, hperm.trans (List.Perm.append_right _ ?_)⟩
      exact ((popOrder_perm reqs).map _).symm)
    exact htrace.retractsRight_iff hne

/-- A tree with two tokens that no request of the batch uses. -/
def staleTree : RadixCache :=
  ((RadixCache.reset fun _ => 0).insert (fun _ => 0) [5, 6] [9, 8]).elim (.reset fun _ => 0)
    fun inserted => inserted.1.touch (fun _ => 0) 0

/-- Two requests of three tokens without a prefix in the tree. -/
def rootReqs : List DecodeReq := [⟨0, 0, 3, 0, 0, 1, 3⟩, ⟨1, 1, 3, 0, 0, 1, 3⟩]

/-- The memory of these requests, with some free slots. -/
def rootMemory (freeSlots : List Nat) (treeCache : TreeCache) : DecodeMemory where
  reqToTokenPool := ⟨2, [], fun row col => 10 * row + col + 11⟩
  tokenToKVPool := ⟨8, freeSlots, true, []⟩
  treeCache

theorem rootMemory_held (freeSlots : List Nat) :
    Held (fun _ => 0) .list (rootMemory freeSlots (.radix false staleTree)) rootReqs := by
  refine ⟨rfl, (fun _ h => nomatch h), ?_⟩
  intro tree h
  cases h
  have h₀ : RadixCache.Reached (fun _ => 0) .list True (.reset fun _ => 0) [] [] := .reset
  have h₁ := h₀.insert (fun _ => by rfl)
    (show (RadixCache.reset fun _ => 0).insert (fun _ => 0) [5, 6] [9, 8] = some (_, _) from rfl)
  have h₂ := h₁.matchPrefix
    (show RadixCache.matchPrefix (fun _ => 0) _ [] = some (staleTree, [], 0) from rfl)
  have h₃ := h₂.incLockRef List.mem_cons_self (fun _ => ⟨_, _, .root⟩)
    (show _ = some (staleTree, 0) from rfl)
  have h₄ := h₃.incLockRef List.mem_cons_self (fun _ => ⟨_, _, .root⟩)
    (show _ = some (staleTree, 0) from rfl)
  exact ⟨_, _, [], h₄, .refl _⟩

theorem rootMemory_held_chunk :
    Held (fun _ => 0) .list (rootMemory [] (.chunk fun _ => some [])) rootReqs := by
  refine ⟨rfl, ?_, fun _ h => nomatch h⟩
  intro entries h
  cases h
  exact ⟨by decide, fun _ _ => rfl⟩

/-- Over a `ChunkCache` with no slot free, and over a `RadixCache` with one. -/
theorem retraction_exact_root :
    (ChecksRight .list (rootMemory [] (.chunk fun _ => some [])) 2 ∧
      RetractsRight .list 20 (rootMemory [] (.chunk fun _ => some [])) rootReqs) ∧
    RetractsRight .list 20 (rootMemory [1] (.radix false staleTree)) rootReqs := by
  refine ⟨(retraction_exact rootMemory_held_chunk (List.cons_ne_nil _ _) 20).1 _ rfl, ?_⟩
  apply ((retraction_exact (rootMemory_held [1]) (List.cons_ne_nil _ _) 20).2 false _ rfl).2.mpr
  have hlen := popOrder_length rootReqs
  refine ⟨?_, ?_⟩
  · intro j hj hlt
    have htwo : rootReqs.length = 2 := rfl
    omega
  · intro _ hzero
    cases hzero

/-- The check misses what it has just evicted, and the assertion what was just freed. -/
theorem retraction_stale : ∃ m reqs, Held (fun _ => 0) .list m reqs ∧
    ¬ ChecksRight .list m reqs.length ∧ ¬ RetractsRight .list 20 m reqs := by
  refine ⟨_, _, rootMemory_held [], ?_, ?_⟩
  · obtain ⟨locks, hover, _⟩ := (rootMemory_held []).over rfl
    rw [hover.checksRight_iff]
    decide +kernel
  · rintro ⟨e, he, hright⟩
    have hleft : (retractDecodeLoop .list 20 (rootMemory [] (.radix false staleTree)) rootReqs 0).map
        RetractEnd.slotsLeft = some (some 5) := by
      have horder : popOrder rootReqs = rootReqs.reverse := by
        unfold popOrder
        rw [List.mergeSort_of_pairwise (by decide)]
      unfold retractDecodeLoop
      rw [horder]
      decide +kernel
    have hloop : retractDecodeLoop .list 20 (rootMemory [] (.radix false staleTree)) rootReqs 0 =
      some e := he
    rw [hloop] at hleft
    cases e with
    | kept m' retracted kept => cases hleft
    | noSpace m' =>
      have hfive : some m'.availableSize = some 5 := Option.some.inj hleft
      rw [hright.2] at hfive
      cases hfive

end DecodeMemory

end FastPP
