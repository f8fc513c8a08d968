import FastPP.KvCache.Invariant

namespace FastPP

namespace KvSystem

variable {κ : Type} {env : KvEnv κ} {σ : KvSystem κ} {S' : RadixCache} {n : Nat}

theorem incLockRef_eq {delta : Int} (h : σ.treeCache.incLockRef n = some (S', delta)) :
    σ.incLockRef n = some { σ with treeCache := S' } := by
  unfold incLockRef
  rw [h]
  rfl

theorem decLockRef_eq {delta : Int} (h : σ.treeCache.decLockRef n = some (S', delta)) :
    σ.decLockRef n = some { σ with treeCache := S' } := by
  unfold decLockRef
  rw [h]
  rfl

theorem evict_eq {evicted : List (List Nat)}
    (h : σ.treeCache.evict env.heapq n = some (S', evicted)) :
    σ.evict env n = some { σ with
      treeCache := S'
      tokenToKVPool := evicted.foldl TokenToKVPool.free σ.tokenToKVPool } := by
  unfold evict
  rw [h]
  rfl

end KvSystem

namespace KvInv

open RadixCache (Leads Inserted Found SameMap)

variable {κ : Type} {env : KvEnv κ} {reqSlots tokenSlots q p n : Nat} {σ σ' : KvSystem κ}
  {tree tree' : Finset Nat} {spell slots spell' slots' : Nat → List Nat} {hand k : Hand}
  {L R H : Multiset Nat} {r : KvReq} {key value freed loc : List Nat}

/-- Only the cache changes; the nodes of the requests stay where they are. -/
theorem setTree (h : KvInv env reqSlots tokenSlots σ tree spell slots hand) {S' : RadixCache}
    (hlocked : S'.LockedBy tree' spell' slots' (σ.locks + k.locks))
    (hslots : S'.slotsOf tree' + k.slots = σ.treeCache.slotsOf tree + hand.slots)
    (hrows : k.rows = hand.rows)
    (hcached : ∀ q s, Leads tree' spell' slots' q s →
      (Causal.states env.attend q).getLast? = some (σ.kvBuffer s))
    (hnode : ∀ q, (σ.reqs q).hasNode = true → (σ.reqs q).lastNode ∈ tree →
      (σ.reqs q).lastNode ∈ tree' ∧ spell' (σ.reqs q).lastNode = spell (σ.reqs q).lastNode ∧
        slots' (σ.reqs q).lastNode = slots (σ.reqs q).lastNode) :
    KvInv env reqSlots tokenSlots { σ with treeCache := S' } tree' spell' slots' k where
  locked := hlocked
  slots_eq := by
    rw [← h.slots_eq]
    show (σ.tokenToKVPool.contents : Multiset Nat) + S'.slotsOf tree' + σ.privates +
      k.slots = _
    rw [add_assoc, add_assoc, add_left_comm (S'.slotsOf tree'), hslots]
    abel
  rows_eq := by
    rw [hrows]
    exact h.rows_eq
  cached := hcached
  beyond := h.beyond
  own q := (h.own q).regrow (hnode q)

/-- The cache takes slots over: those of the tokens that it had not cached. -/
theorem insert (h : KvInv env reqSlots tokenSlots σ tree spell slots ⟨L, R, H⟩)
    (hvalue : value.map σ.kvBuffer = Causal.states env.attend key) :
    ∃ S' len tree' spell' slots', σ.treeCache.insert env.clock key value = some (S', len) ∧
      Inserted tree spell slots 0 key value tree' spell' slots' len ∧
      ∀ H', H = (value.drop len : List Nat) + H' →
        KvInv env reqSlots tokenSlots { σ with treeCache := S' } tree' spell' slots' ⟨L, R, H'⟩ := by
  have hlen : value.length = key.length := by
    have hboth := congrArg List.length hvalue
    rwa [List.length_map, Causal.states_length] at hboth
  obtain ⟨S', len, tree', spell', slots', hrun, hlocked, hi, hslots⟩ :=
    RadixCache.insert_takes env.clock h.locked hlen
  refine ⟨S', len, tree', spell', slots', hrun, hi, ?_⟩
  intro H' hH
  refine h.setTree hlocked ?_ rfl ?_ ?_
  · show S'.slotsOf tree' + H' = _ + H
    rw [hslots, hH, add_assoc]
  · intro q s hl
    rcases (hi.leads q s).mp hl with hold | ⟨hpre, hlong, hs⟩
    · exact h.cached q s hold
    · have hroot := h.locked.shape.root_spell
      rw [hroot, List.nil_append] at hpre
      rw [hroot, List.length_nil, Nat.sub_zero] at hs
      rw [hroot, List.length_nil, Nat.zero_add] at hlong
      have hle := hpre.length_le
      have hq : q = key.take (q.length - 1 + 1) := by
        rw [Nat.sub_add_cancel (by omega)]
        exact List.prefix_iff_eq_take.mp hpre
      rw [hq, ← Causal.states_getElem? env.attend key (by omega), ← hvalue, List.getElem?_map, hs]
      rfl
  · intro q _ hmem
    exact ⟨hi.keeps.mem _ hmem, hi.keeps.spell _ hmem, hi.keeps.slots _ hmem⟩

/-- A match gives the slots of a prefix of the key, with their node. -/
theorem matchPrefix (h : KvInv env reqSlots tokenSlots σ tree spell slots hand)
    (key : List Nat) :
    ∃ S' found last tree' spell' slots',
      σ.treeCache.matchPrefix env.clock key = some (S', found, last) ∧
      KvInv env reqSlots tokenSlots { σ with treeCache := S' } tree' spell' slots' hand ∧
      SameMap tree spell slots tree' spell' slots' ∧ last ∈ tree' ∧ slots' last = found ∧
      spell' last = key.take found.length ∧
      (∀ t s, key[found.length]? = some t →
        ¬ Leads tree spell slots (key.take found.length ++ [t]) s) := by
  obtain ⟨S', found, last, tree', spell', slots', hrun, hlocked, hmap, hlast, hfound, hslots⟩ :=
    RadixCache.matchPrefix_keeps env.clock h.locked key
  have hroot := h.locked.shape.root_spell
  refine ⟨S', found, last, tree', spell', slots', hrun, ?_, hmap, hlast, ?_, ?_, ?_⟩
  · refine h.setTree hlocked (by rw [hslots]) rfl ?_ ?_
    · exact fun q s hl => h.cached q s ((hmap.leads q s).mp hl)
    · intro q _ hmem
      exact ⟨hmap.keeps.mem _ hmem, hmap.keeps.spell _ hmem, hmap.keeps.slots _ hmem⟩
  · rw [hfound.slots, h.locked.shape.root_slots, List.nil_append]
  · rw [hfound.spell, hroot, List.nil_append]
  · intro t s ht
    have hno := hfound.longest t s ht
    rwa [hroot, List.nil_append] at hno

theorem incLockRef (h : KvInv env reqSlots tokenSlots σ tree spell slots ⟨L, R, H⟩)
    (hn : n ∈ tree) :
    ∃ S' delta, σ.treeCache.incLockRef n = some (S', delta) ∧
      KvInv env reqSlots tokenSlots { σ with treeCache := S' } tree spell slots
        ⟨L + {n}, R, H⟩ := by
  obtain ⟨S', delta, hrun, hlocked, hslots⟩ := h.locked.incLockRef hn
  refine ⟨S', delta, hrun, ?_⟩
  refine h.setTree ?_ (by rw [hslots]) rfl h.cached fun _ _ hmem => ⟨hmem, rfl, rfl⟩
  rw [← add_assoc]
  exact hlocked

theorem decLockRef (h : KvInv env reqSlots tokenSlots σ tree spell slots ⟨L + {n}, R, H⟩) :
    ∃ S' delta, σ.treeCache.decLockRef n = some (S', delta) ∧
      KvInv env reqSlots tokenSlots { σ with treeCache := S' } tree spell slots ⟨L, R, H⟩ := by
  have hlocked := h.locked
  rw [← add_assoc] at hlocked
  obtain ⟨S', delta, hrun, hlocked', hslots⟩ := hlocked.decLockRef
  refine ⟨S', delta, hrun, ?_⟩
  exact h.setTree hlocked' (by rw [hslots]) rfl h.cached fun _ _ hmem => ⟨hmem, rfl, rfl⟩

/-- Slots in hand are freed. -/
theorem freeSlots (h : KvInv env reqSlots tokenSlots σ tree spell slots
    ⟨L, R, (freed : Multiset Nat) + H⟩) :
    KvInv env reqSlots tokenSlots { σ with tokenToKVPool := σ.tokenToKVPool.free freed } tree
      spell slots ⟨L, R, H⟩ where
  locked := h.locked
  slots_eq := by
    rw [← h.slots_eq]
    show ((σ.tokenToKVPool.free freed).contents : Multiset Nat) + σ.treeCache.slotsOf tree +
      σ.privates + H = σ.tokenToKVPool.contents + σ.treeCache.slotsOf tree + σ.privates +
        (freed + H)
    rw [TokenToKVPool.free_contents, ← Multiset.coe_add]
    abel
  rows_eq := h.rows_eq
  cached := h.cached
  beyond := h.beyond
  own := h.own

/-- Slots are taken from the pool. -/
theorem takeSlots {numTokens : Nat} (h : KvInv env reqSlots tokenSlots σ tree spell slots
    ⟨L, R, H⟩) (hrun : σ.takeSlots numTokens = some (loc, σ')) :
    ∃ pool, σ' = { σ with tokenToKVPool := pool } ∧ loc.length = numTokens ∧
      pool.isNotInFreeGroup = σ.tokenToKVPool.isNotInFreeGroup ∧
      KvInv env reqSlots tokenSlots σ' tree spell slots ⟨L, R, loc + H⟩ := by
  obtain ⟨⟨loc', pool⟩, halloc, hrun⟩ := Option.bind_eq_some_iff.mp hrun
  obtain ⟨rfl, rfl⟩ := Prod.mk.inj (Option.some.inj hrun)
  obtain ⟨hcontents, hlen, hflag⟩ := TokenToKVPool.alloc_contents halloc
  refine ⟨pool, rfl, hlen, hflag, h.locked, ?_, h.rows_eq, h.cached, h.beyond, h.own⟩
  rw [← h.slots_eq, hcontents, ← Multiset.coe_add]
  show (pool.contents : Multiset Nat) + σ.treeCache.slotsOf tree + σ.privates + (loc' + H) = _
  abel

/-- An eviction frees slots of the cache; the nodes of the requests are locked. -/
theorem evict (h : KvInv env reqSlots tokenSlots σ tree spell slots hand)
    (hnone : σ.NoneMatched) (numTokens : Nat) :
    ∃ S' evicted tree', σ.treeCache.evict env.heapq numTokens = some (S', evicted) ∧
      KvInv env reqSlots tokenSlots { σ with
        treeCache := S'
        tokenToKVPool := evicted.foldl TokenToKVPool.free σ.tokenToKVPool } tree' spell slots
        hand := by
  obtain ⟨S', evicted, tree', hrun, hlocked, hsub, hslots⟩ :=
    RadixCache.evict_gives env.heapq h.locked numTokens
  obtain ⟨hcontents, hflag⟩ :=
    TokenToKVPool.freeAll_contents σ.tokenToKVPool evicted
  refine ⟨S', evicted, tree', hrun, hlocked, ?_, h.rows_eq, ?_, h.beyond, ?_⟩
  · rw [← h.slots_eq, hslots]
    show ((evicted.foldl TokenToKVPool.free σ.tokenToKVPool).contents : Multiset Nat) +
      S'.slotsOf tree' + σ.privates + hand.slots = _
    rw [hcontents, ← Multiset.coe_add]
    abel
  · rintro q s ⟨n, hn, hl⟩
    exact h.cached q s ⟨n, hsub n hn, hl⟩
  · intro q
    apply (h.own q).regrow
    intro hnode hmem
    refine ⟨?_, rfl, rfl⟩
    have hphase : (σ.reqs q).phase ≠ .finished := by
      intro hphase
      unfold KvReq.hasNode at hnode
      rw [hphase] at hnode
      exact absurd hnode (by decide)
    have hq := h.lt_numReqs hphase
    have hlock : (σ.reqs q).holdsLock = true := by
      have hmatched := hnone q hq
      unfold KvReq.hasNode at hnode
      unfold KvReq.holdsLock
      cases hcase : (σ.reqs q).phase <;> rw [hcase] at hnode <;>
        first | rfl | exact absurd hnode (by decide) | exact absurd hcase hmatched
    apply hlocked.locks_mem
    apply Multiset.mem_toList.mpr
    apply Multiset.mem_add.mpr
    left
    apply Multiset.mem_of_le (KvSystem.le_sum KvReq.lockOf hq)
    unfold KvReq.lockOf
    rw [if_pos hlock]
    exact Multiset.mem_singleton_self _

/-- `alloc_token_slots`, with an eviction when slots are short. -/
theorem allocTokenSlots {numTokens : Nat}
    (h : KvInv env reqSlots tokenSlots σ tree spell slots ⟨L, R, H⟩) (hnone : σ.NoneMatched)
    (hrun : σ.allocTokenSlots env numTokens = some (loc, σ')) :
    ∃ S' pool tree', σ' = { σ with treeCache := S', tokenToKVPool := pool } ∧
      loc.length = numTokens ∧
      pool.isNotInFreeGroup = σ.tokenToKVPool.isNotInFreeGroup ∧
      KvInv env reqSlots tokenSlots σ' tree' spell slots ⟨L, R, loc + H⟩ := by
  unfold KvSystem.allocTokenSlots at hrun
  split at hrun
  next taken htake =>
    cases Option.some.inj hrun
    obtain ⟨pool, rfl, hlen, hflag, h'⟩ := h.takeSlots htake
    exact ⟨σ.treeCache, pool, tree, rfl, hlen, hflag, h'⟩
  next =>
    obtain ⟨S', evicted, tree', hevict, h₁⟩ := h.evict hnone numTokens
    obtain ⟨σ₁, hσ₁, hrun⟩ := Option.bind_eq_some_iff.mp hrun
    cases (KvSystem.evict_eq hevict).symm.trans hσ₁
    obtain ⟨pool', rfl, hlen, hflag, h'⟩ := h₁.takeSlots hrun
    exact ⟨S', pool', tree', rfl, hlen,
      hflag.trans (TokenToKVPool.freeAll_contents _ evicted).2, h'⟩

theorem allocReqSlots {numReqs : Nat} {rows : List Nat}
    (h : KvInv env reqSlots tokenSlots σ tree spell slots ⟨L, R, H⟩)
    (hrun : σ.allocReqSlots numReqs = some (rows, σ')) :
    ∃ pool, σ' = { σ with reqToTokenPool := pool } ∧ rows.length = numReqs ∧
      pool.reqToToken = σ.reqToTokenPool.reqToToken ∧
      KvInv env reqSlots tokenSlots σ' tree spell slots ⟨L, rows + R, H⟩ := by
  obtain ⟨⟨rows', pool⟩, halloc, hrun⟩ := Option.bind_eq_some_iff.mp hrun
  obtain ⟨rfl, rfl⟩ := Prod.mk.inj (Option.some.inj hrun)
  obtain ⟨hfree, hlen⟩ := ReqToTokenPool.alloc_eq halloc
  have hcells : pool.reqToToken = σ.reqToTokenPool.reqToToken := by
    obtain ⟨_, _, hpool⟩ := Option.bind_eq_some_iff.mp halloc
    obtain ⟨_, rfl⟩ := Prod.mk.inj (Option.some.inj hpool)
    rfl
  refine ⟨pool, rfl, hlen, hcells, ?_⟩
  have hpriv : KvSystem.privates { σ with reqToTokenPool := pool } = σ.privates := by
    apply Finset.sum_congr rfl
    intro p _
    unfold KvSystem.privateSlots KvSystem.kvIndices ReqToTokenPool.read
    rw [hcells]
  refine ⟨h.locked, ?_, ?_, h.cached, h.beyond, ?_⟩
  · rw [hpriv]
    exact h.slots_eq
  · rw [← h.rows_eq, hfree, ← Multiset.coe_add]
    show (pool.freeSlots : Multiset Nat) + σ.rows + (rows' + R) = _
    abel
  · intro p
    exact (h.own p).frame (fun _ i _ => by rw [hcells]) fun _ _ _ => rfl

/-- A row in hand is freed. -/
theorem freeRow (h : KvInv env reqSlots tokenSlots σ tree spell slots
    ⟨L, {r.reqPoolIdx} + R, H⟩) :
    KvInv env reqSlots tokenSlots (σ.freeRow r) tree spell slots ⟨L, R, H⟩ where
  locked := h.locked
  slots_eq := h.slots_eq
  rows_eq := by
    rw [← h.rows_eq]
    show ((σ.reqToTokenPool.freeSlots ++ [r.reqPoolIdx] : List Nat) : Multiset Nat) + σ.rows + R
      = σ.reqToTokenPool.freeSlots + σ.rows + ({r.reqPoolIdx} + R)
    rw [← Multiset.coe_add, Multiset.coe_singleton]
    abel
  cached := h.cached
  beyond := h.beyond
  own q := (h.own q).frame (fun _ _ _ => rfl) fun _ _ _ => rfl

/-- A row that a request has is not in hand, and no other request has it. -/
theorem rows_nodup (h : KvInv env reqSlots tokenSlots σ tree spell slots hand) :
    (σ.rows + hand.rows).Nodup := by
  have hall : (List.range reqSlots : Multiset Nat).Nodup := Multiset.coe_nodup.mpr List.nodup_range
  rw [← h.rows_eq, add_assoc] at hall
  exact Multiset.nodup_of_le (Multiset.le_add_left _ _) hall

theorem row_not_held (h : KvInv env reqSlots tokenSlots σ tree spell slots hand)
    (hq : (σ.reqs q).holdsRow = true) : (σ.reqs q).reqPoolIdx ∉ hand.rows := by
  intro hmem
  have hlt := h.lt_of_holdsRow hq
  have hin : (σ.reqs q).reqPoolIdx ∈ σ.rows := by
    apply Multiset.mem_of_le (KvSystem.le_sum KvReq.rowOf hlt)
    unfold KvReq.rowOf
    rw [if_pos hq]
    exact Multiset.mem_singleton_self _
  exact Multiset.disjoint_left.mp (Multiset.nodup_add.mp h.rows_nodup).2.2 hin hmem

theorem row_ne (h : KvInv env reqSlots tokenSlots σ tree spell slots hand)
    (hq : (σ.reqs q).holdsRow = true) (hp : (σ.reqs p).holdsRow = true) (hne : p ≠ q) :
    (σ.reqs p).reqPoolIdx ≠ (σ.reqs q).reqPoolIdx := by
  intro heq
  have hle := KvSystem.add_le_sum KvReq.rowOf (h.lt_of_holdsRow hq) (h.lt_of_holdsRow hp) hne
  have hnodup := Multiset.nodup_of_le hle (Multiset.nodup_add.mp h.rows_nodup).1
  unfold KvReq.rowOf at hnodup
  rw [if_pos hq, if_pos hp, heq] at hnodup
  exact absurd (Multiset.nodup_add.mp hnodup).2.2 (by simp)

/-- The pool is written outside of the entries that the requests have. -/
theorem writeRows (h : KvInv env reqSlots tokenSlots σ tree spell slots hand)
    (pool : ReqToTokenPool) (hfree : pool.freeSlots = σ.reqToTokenPool.freeSlots)
    (hcells : ∀ q, (σ.reqs q).holdsRow = true → ∀ i < (σ.reqs q).seqLen,
      pool.reqToToken (σ.reqs q).reqPoolIdx i =
        σ.reqToTokenPool.reqToToken (σ.reqs q).reqPoolIdx i) :
    KvInv env reqSlots tokenSlots { σ with reqToTokenPool := pool } tree spell slots hand := by
  have hpriv : KvSystem.privates { σ with reqToTokenPool := pool } = σ.privates := by
    apply Finset.sum_congr rfl
    intro p _
    unfold KvSystem.privateSlots
    split
    next hrow =>
      unfold KvSystem.kvIndices
      rw [ReqToTokenPool.read_congr (hcells p hrow)]
    next => rfl
  refine ⟨h.locked, ?_, ?_, h.cached, h.beyond, ?_⟩
  · rw [hpriv]
    exact h.slots_eq
  · show (pool.freeSlots : Multiset Nat) + σ.rows + hand.rows = _
    rw [hfree]
    exact h.rows_eq
  · intro p
    exact (h.own p).frame (hcells p) fun _ _ _ => rfl

end KvInv

end FastPP
