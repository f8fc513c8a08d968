import FastPP.Radix.CachedSlots
import FastPP.Lib.CausalStates
import FastPP.KvCache.Resources

namespace FastPP

namespace RadixCache

variable {S S' : RadixCache} {tree tree' : Finset Nat} {spell slots spell' slots' : Nat → List Nat}
  {locks locks' : List Nat} {n : Nat} {key value : List Nat} {clock : Nat → Rat} {heapq : Heapq}

/-- The order of the locks does not matter. -/
theorem Locked.perm (h : S.Locked tree spell slots locks) (hp : locks.Perm locks') :
    S.Locked tree spell slots locks' where
  shape := h.shape
  locks_mem l hl := h.locks_mem l (hp.mem_iff.mpr hl)
  lockRef n hn h0 := by
    rw [h.lockRef n hn h0]
    unfold locksUnder
    rw [hp.countP_eq]
  size := h.size

/-- `Locked` for the locks as a multiset. -/
def LockedBy (S : RadixCache) (tree : Finset Nat) (spell slots : Nat → List Nat)
    (locks : Multiset Nat) : Prop :=
  S.Locked tree spell slots locks.toList

theorem lockedBy_coe : S.LockedBy tree spell slots (locks : Multiset Nat) ↔
    S.Locked tree spell slots locks := by
  have hp : (locks : Multiset Nat).toList.Perm locks :=
    Multiset.coe_eq_coe.mp (Multiset.coe_toList _)
  exact ⟨fun h => Locked.perm h hp, fun h => Locked.perm h hp.symm⟩

theorem slots_mem (h : S.Shape tree spell slots) (hn : n ∈ tree) :
    ∀ s ∈ slots n, s ∈ S.slotsOf tree := by
  induction hk : (spell n).length using Nat.strong_induction_on generalizing n with
  | _ k ih =>
    subst hk
    intro s hs
    by_cases h0 : n = 0
    · rw [h0, h.root_slots] at hs
      exact absurd hs List.not_mem_nil
    · obtain ⟨p, hp⟩ := h.hangs n hn h0
      rw [hp.slots, List.mem_append] at hs
      rcases hs with hs | hs
      · exact ih _ hp.length_lt hp.mem rfl s hs
      · apply Multiset.mem_of_le (Finset.single_le_sum (fun _ _ => zero_le) hn)
        exact Multiset.mem_coe.mpr hs

theorem Leads.mem_slotsOf {q : List Nat} {s : Nat} (h : S.Shape tree spell slots)
    (hl : Leads tree spell slots q s) : s ∈ S.slotsOf tree := by
  obtain ⟨n, hn, _, _, hs⟩ := hl
  exact slots_mem h hn s (List.mem_of_getElem? hs)

/-- Each prefix of a path has its slot on it. -/
theorem Shape.leads_on (h : S.Shape tree spell slots) (hn : n ∈ tree) {i : Nat}
    (hi : i < (slots n).length) : Leads tree spell slots ((spell n).take (i + 1)) (slots n)[i] := by
  have hlen := h.slots_length hn
  have htake : ((spell n).take (i + 1)).length = i + 1 := by
    rw [List.length_take]
    omega
  refine ⟨n, hn, ?_, List.take_prefix _ _, ?_⟩
  · intro hnil
    rw [hnil] at htake
    simp at htake
  · rw [htake, Nat.add_sub_cancel]
    exact List.getElem?_eq_getElem hi

/-- A path through all of a key has the slots of the key's prefixes. -/
theorem Shape.getElem?_of_leads (h : S.Shape tree spell slots) (hn : n ∈ tree) {i s : Nat}
    (hi : i < (spell n).length) (hl : Leads tree spell slots ((spell n).take (i + 1)) s) :
    (slots n)[i]? = some s := by
  have hlen := h.slots_length hn
  have hi' : i < (slots n).length := by omega
  rw [List.getElem?_eq_getElem hi', h.leads_unique (h.leads_on hn hi') hl]

/-- An insertion leaves a slot for each prefix of the key. -/
theorem Inserted.leads_all {len : Nat} (h : S.Shape tree spell slots)
    (hi : Inserted tree spell slots 0 key value tree' spell' slots' len)
    (hvalue : value.length = key.length) {i : Nat} (hlt : i < key.length) :
    ∃ s, Leads tree' spell' slots' (key.take (i + 1)) s ∧
      (len ≤ i → value[i]? = some s) ∧
      (i < len → Leads tree spell slots (key.take (i + 1)) s) := by
  have htake : (key.take (i + 1)).length = i + 1 := by
    rw [List.length_take]
    omega
  by_cases hlen : i < len
  · obtain ⟨s, n, hn, _, hpre, _⟩ := hi.present (by omega)
    rw [h.root_spell, List.nil_append] at hpre
    have hnil : key.take (i + 1) ≠ [] := by
      intro hnil
      rw [hnil] at htake
      simp at htake
    obtain ⟨s, hs⟩ := h.leads_of_prefix hn hnil
      ((List.take_prefix_take_left (by omega)).trans hpre)
    exact ⟨s, (hi.leads _ _).mpr (.inl hs), fun hle => absurd hle (by omega), fun _ => hs⟩
  · have hi' : i < value.length := by omega
    refine ⟨value[i], (hi.leads _ _).mpr (.inr ⟨?_, ?_, ?_⟩), ?_, fun hlt => absurd hlt hlen⟩
    · rw [h.root_spell, List.nil_append]
      exact List.take_prefix _ _
    · rw [h.root_spell, htake, List.length_nil]
      omega
    · rw [h.root_spell, htake, List.length_nil, Nat.sub_zero, Nat.add_sub_cancel]
      exact List.getElem?_eq_getElem hi'
    · exact fun _ => List.getElem?_eq_getElem hi'

theorem insert_takes (clock : Nat → Rat) (h : S.Locked tree spell slots locks)
    (hlen : value.length = key.length) :
    ∃ S' len tree' spell' slots', S.insert clock key value = some (S', len) ∧
      S'.Locked tree' spell' slots' locks ∧
      Inserted tree spell slots 0 key value tree' spell' slots' len ∧
      S'.slotsOf tree' = S.slotsOf tree + (value.drop len : List Nat) := by
  obtain ⟨S', len, tree', spell', slots', hrun, h', hi⟩ := insert_spec clock h hlen
  exact ⟨S', len, tree', spell', slots', hrun, h', hi,
    insertHelper_slots clock h h.shape.root_mem hlen hrun h'⟩

theorem matchPrefix_keeps (clock : Nat → Rat) (h : S.Locked tree spell slots locks)
    (key : List Nat) :
    ∃ S' found last tree' spell' slots', S.matchPrefix clock key = some (S', found, last) ∧
      S'.Locked tree' spell' slots' locks ∧ SameMap tree spell slots tree' spell' slots' ∧
      last ∈ tree' ∧ Found tree spell slots 0 key spell' slots' last found ∧
      S'.slotsOf tree' = S.slotsOf tree := by
  obtain ⟨S', found, last, tree', spell', slots', hrun, h', hmap, hlast, hfound, _⟩ :=
    matchPrefix_spec clock h key
  exact ⟨S', found, last, tree', spell', slots', hrun, h', hmap, hlast, hfound,
    matchPrefixHelper_slots clock h h.shape.root_mem hrun h'⟩

/-- An eviction gives back slots of the tree and keeps the locked nodes. -/
theorem evict_gives (heapq : Heapq) (h : S.Locked tree spell slots locks) (numTokens : Nat) :
    ∃ S' evicted tree', S.evict heapq numTokens = some (S', evicted) ∧
      S'.Locked tree' spell slots locks ∧ (∀ m ∈ tree', m ∈ tree) ∧
      S.slotsOf tree = S'.slotsOf tree' + (evicted.flatten : List Nat) := by
  obtain ⟨S', removed, evicted, tree', hrun, h', hfrees⟩ := evict_frees heapq h numTokens
  refine ⟨S', evicted, tree', hrun, h', ?_, ?_⟩
  · intro m hm
    exact h.shape.inTree_iff.mp ((hfrees.steps.gone.2.2 m).mp (h'.shape.inTree_iff.mpr hm)).1
  · rw [hfrees.values]
    exact hfrees.steps.slotsOf_eq h.shape h'.shape

theorem LockChange.slotsOf_eq {delta : Int} (h : LockChange S S' delta) (tree : Finset Nat) :
    S'.slotsOf tree = S.slotsOf tree :=
  slotsOf_congr fun n _ => (h.same n).value

theorem LockedBy.incLockRef {locks : Multiset Nat} (h : S.LockedBy tree spell slots locks)
    (hn : n ∈ tree) :
    ∃ S' delta, S.incLockRef n = some (S', delta) ∧
      S'.LockedBy tree spell slots (locks + {n}) ∧ ∀ t, S'.slotsOf t = S.slotsOf t := by
  obtain ⟨S', delta, hrun, h'⟩ := incLockRef_locked h hn
  refine ⟨S', delta, hrun, ?_, (incLockRef_change hrun).slotsOf_eq⟩
  apply h'.perm
  rw [← Multiset.coe_eq_coe, Multiset.coe_toList, ← Multiset.cons_coe, Multiset.coe_toList,
    ← Multiset.singleton_add, add_comm]

theorem LockedBy.decLockRef {locks : Multiset Nat} (h : S.LockedBy tree spell slots (locks + {n})) :
    ∃ S' delta, S.decLockRef n = some (S', delta) ∧
      S'.LockedBy tree spell slots locks ∧ ∀ t, S'.slotsOf t = S.slotsOf t := by
  have hmem : n ∈ (locks + {n}).toList := Multiset.mem_toList.mpr (by simp)
  obtain ⟨S', delta, hrun, h'⟩ := decLockRef_locked h hmem
  refine ⟨S', delta, hrun, ?_, (decLockRef_change hrun).slotsOf_eq⟩
  apply h'.perm
  rw [← Multiset.coe_eq_coe, Multiset.coe_toList, ← Multiset.coe_erase, Multiset.coe_toList,
    add_comm, Multiset.singleton_add, Multiset.erase_cons_head]

end RadixCache

namespace KvReq

/-- The request has a match in the cache. -/
def hasNode (r : KvReq) : Bool :=
  match r.phase with
  | .waiting | .finished => false
  | _ => true

/-- The prefix of the request is what its node stands for. -/
structure Aligned (r : KvReq) (tree : Finset Nat) (spell slots : Nat → List Nat) : Prop where
  mem : r.lastNode ∈ tree
  slots_eq : slots r.lastNode = r.prefixIndices
  spell_le : spell r.lastNode <+: r.tokens
  prefixLen : r.req.prefixLen = r.prefixIndices.length

/-- The row of the request starts with its prefix, and where its KV data is computed it is that
of its tokens. -/
structure InRow {κ : Type} (r : KvReq) (env : KvEnv κ) (pool : ReqToTokenPool)
    (kvBuffer : Nat → κ) : Prop where
  seq_le : r.seqLen ≤ r.tokens.length
  cached : (pool.read r.reqPoolIdx r.seqLen).take r.prefixIndices.length =
    r.prefixIndices.take r.seqLen
  covered : min r.prefixIndices.length r.seqLen ≤ r.kvLen
  kvLen_le : r.kvLen ≤ r.seqLen
  out : (pool.read r.reqPoolIdx r.seqLen).drop r.kvLen = r.outCacheLoc
  computed : (pool.read r.reqPoolIdx r.kvLen).map kvBuffer =
    Causal.states env.attend (r.tokens.take r.kvLen)

/-- `fill_ids` are the tokens of the request, up to the end of the chunk. -/
structure Cut (r : KvReq) (truncated : Bool) : Prop where
  le : r.req.fillIds <+: r.tokens
  whole : truncated = false → r.req.fillIds = r.tokens

/-- What a request has at its point of the way. -/
structure Own {κ : Type} (r : KvReq) (env : KvEnv κ) (pool : ReqToTokenPool)
    (kvBuffer : Nat → κ) (tree : Finset Nat) (spell slots : Nat → List Nat) : Prop where
  aligned : r.hasNode = true → r.Aligned tree spell slots
  inRow : r.holdsRow = true → r.InRow env pool kvBuffer
  canRun : ∀ truncated, r.phase = .canRun truncated → r.Cut truncated
  extend : ∀ truncated, r.phase = .extend truncated →
    r.Cut truncated ∧ r.seqLen = r.req.fillIds.length
  running : r.phase = .running → r.kvLen = r.seqLen ∧ r.prefixIndices.length ≤ r.seqLen ∧
    r.seqLen + 1 = r.tokens.length
  decode : r.phase = .decode → r.prefixIndices.length ≤ r.seqLen ∧ r.seqLen ≤ r.kvLen + 1 ∧
    r.seqLen = r.tokens.length

end KvReq

/-- What an operation has taken and not yet given to a request, or taken back from one. -/
structure Hand where
  locks : Multiset Nat
  rows : Multiset Nat
  slots : Multiset Nat

/-- The invariant of the memory system: the locks are those of the requests, each slot and each
row is in one place, and what is cached or computed is right. -/
structure KvInv {κ : Type} (env : KvEnv κ) (reqSlots tokenSlots : Nat) (σ : KvSystem κ)
    (tree : Finset Nat) (spell slots : Nat → List Nat) (hand : Hand) : Prop where
  locked : σ.treeCache.LockedBy tree spell slots (σ.locks + hand.locks)
  slots_eq : (σ.tokenToKVPool.contents : Multiset Nat) + σ.treeCache.slotsOf tree + σ.privates +
    hand.slots = (List.range' 1 tokenSlots : List Nat)
  rows_eq : (σ.reqToTokenPool.freeSlots : Multiset Nat) + σ.rows + hand.rows =
    (List.range reqSlots : List Nat)
  cached : ∀ q s, RadixCache.Leads tree spell slots q s →
    (Causal.states env.attend q).getLast? = some (σ.kvBuffer s)
  beyond : ∀ q, σ.numReqs ≤ q → (σ.reqs q).phase = .finished
  own : ∀ q, (σ.reqs q).Own env σ.reqToTokenPool σ.kvBuffer tree spell slots

variable {κ : Type} {env : KvEnv κ} {reqSlots tokenSlots q p : Nat} {σ σ' : KvSystem κ}
  {tree tree' : Finset Nat} {spell slots spell' slots' : Nat → List Nat} {hand k : Hand}
  {r r' : KvReq} {pool pool' : ReqToTokenPool} {kvBuffer kvBuffer' : Nat → κ}

namespace ReqToTokenPool

@[simp] theorem read_length (pool : ReqToTokenPool) (row len : Nat) :
    (pool.read row len).length = len := by
  unfold read
  rw [List.length_map, List.length_range]

theorem read_getElem? (pool : ReqToTokenPool) (row : Nat) {i len : Nat} (hi : i < len) :
    (pool.read row len)[i]? = some (pool.reqToToken row i) := by
  unfold read
  rw [List.getElem?_map, List.getElem?_range hi]
  rfl

theorem read_take (pool : ReqToTokenPool) (row : Nat) {n len : Nat} (h : n ≤ len) :
    (pool.read row len).take n = pool.read row n := by
  unfold read
  rw [← List.map_take, List.take_range, Nat.min_eq_left h]

theorem read_congr {row row' len : Nat}
    (h : ∀ i < len, pool'.reqToToken row' i = pool.reqToToken row i) :
    pool'.read row' len = pool.read row len := by
  unfold read
  apply List.map_congr_left
  intro i hi
  exact h i (List.mem_range.mp hi)

end ReqToTokenPool

namespace KvReq

theorem hasNode_of_holdsLock (h : r.holdsLock = true) : r.hasNode = true := by
  unfold holdsLock at h
  unfold hasNode
  cases hphase : r.phase <;> rw [hphase] at h <;> first | rfl | exact absurd h (by decide)

/-- The nodes may move as long as the request's own stays where it is. -/
theorem Own.regrow (h : r.Own env pool kvBuffer tree spell slots)
    (hnode : r.hasNode = true → r.lastNode ∈ tree → r.lastNode ∈ tree' ∧
      spell' r.lastNode = spell r.lastNode ∧ slots' r.lastNode = slots r.lastNode) :
    r.Own env pool kvBuffer tree' spell' slots' where
  aligned hn := by
    have ha := h.aligned hn
    obtain ⟨hmem, hspell, hslots⟩ := hnode hn ha.mem
    exact ⟨hmem, hslots.trans ha.slots_eq, hspell ▸ ha.spell_le, ha.prefixLen⟩
  inRow := h.inRow
  canRun := h.canRun
  extend := h.extend
  running := h.running
  decode := h.decode

/-- The rows of others may be written, and slots that the request does not have. -/
theorem Own.frame (h : r.Own env pool kvBuffer tree spell slots)
    (hrow : r.holdsRow = true → ∀ i < r.seqLen,
      pool'.reqToToken r.reqPoolIdx i = pool.reqToToken r.reqPoolIdx i)
    (hkv : r.holdsRow = true → ∀ i < r.kvLen,
      kvBuffer' (pool.reqToToken r.reqPoolIdx i) = kvBuffer (pool.reqToToken r.reqPoolIdx i)) :
    r.Own env pool' kvBuffer' tree spell slots where
  aligned := h.aligned
  inRow hr := by
    have hin := h.inRow hr
    have hread : pool'.read r.reqPoolIdx r.seqLen = pool.read r.reqPoolIdx r.seqLen :=
      ReqToTokenPool.read_congr (hrow hr)
    have hle := hin.kvLen_le
    refine ⟨hin.seq_le, by rw [hread]; exact hin.cached, hin.covered, hle,
      by rw [hread]; exact hin.out, ?_⟩
    rw [← hin.computed, ReqToTokenPool.read_congr fun i hi => hrow hr i (by omega)]
    unfold ReqToTokenPool.read
    rw [List.map_map, List.map_map]
    apply List.map_congr_left
    intro i hi
    exact hkv hr i (List.mem_range.mp hi)
  canRun := h.canRun
  extend := h.extend
  running := h.running
  decode := h.decode

end KvReq

namespace KvInv

theorem lt_numReqs (h : KvInv env reqSlots tokenSlots σ tree spell slots hand)
    (hphase : (σ.reqs q).phase ≠ .finished) : q < σ.numReqs := by
  by_contra hlt
  exact hphase (h.beyond q (by omega))

theorem lt_of_holdsRow (h : KvInv env reqSlots tokenSlots σ tree spell slots hand)
    (hrow : (σ.reqs q).holdsRow = true) : q < σ.numReqs := by
  apply h.lt_numReqs
  intro hphase
  unfold KvReq.holdsRow at hrow
  rw [hphase] at hrow
  exact absurd hrow (by decide)

/-- A request changes its record, and what it has goes to the hand or comes from there. -/
theorem setReq (h : KvInv env reqSlots tokenSlots σ tree spell slots hand)
    (hq : q < σ.numReqs) (hlock : (σ.reqs q).lockOf + hand.locks = r.lockOf + k.locks)
    (hrow : (σ.reqs q).rowOf + hand.rows = r.rowOf + k.rows)
    (hslots : (σ.privateSlots (σ.reqs q) : Multiset Nat) + hand.slots =
      (σ.privateSlots r : Multiset Nat) + k.slots)
    (hown : r.Own env σ.reqToTokenPool σ.kvBuffer tree spell slots) :
    KvInv env reqSlots tokenSlots (σ.setReq q r) tree spell slots k where
  locked := by
    have hsum : (σ.setReq q r).locks + k.locks = σ.locks + hand.locks :=
      KvSystem.sum_transfer KvReq.lockOf hq hlock
    rw [hsum]
    exact h.locked
  slots_eq := by
    have hsum : (σ.setReq q r).privates + k.slots = σ.privates + hand.slots :=
      KvSystem.sum_transfer (fun r => (σ.privateSlots r : Multiset Nat)) hq hslots
    rw [add_assoc, hsum, ← add_assoc]
    exact h.slots_eq
  rows_eq := by
    have hsum : (σ.setReq q r).rows + k.rows = σ.rows + hand.rows :=
      KvSystem.sum_transfer KvReq.rowOf hq hrow
    rw [add_assoc, hsum, ← add_assoc]
    exact h.rows_eq
  cached := h.cached
  beyond p hp := by
    have hne : p ≠ q := fun e => by
      subst e
      exact absurd hq (Nat.not_lt.mpr hp)
    rw [KvSystem.setReq_other σ r hne]
    exact h.beyond p hp
  own p := by
    by_cases hpq : p = q
    · rw [hpq, KvSystem.setReq_self]
      exact hown
    · rw [KvSystem.setReq_other σ r hpq]
      exact h.own p

end KvInv

end FastPP
