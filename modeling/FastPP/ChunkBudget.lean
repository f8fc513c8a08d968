import FastPP.Packing
import FastPP.TreeAdmission
import FastPP.PackingLaw
import FastPP.RebalanceLaw

namespace FastPP

/-- `ChunkCache` can always be used. -/
theorem chunkPrefixCache_usable : chunkPrefixCache.Usable (fun _ => True) fun _ _ => True where
  matchPrefix entries rid key _ :=
    ⟨entries, min (entries rid) key.length, (), rfl, trivial, Nat.min_le_right _ _, trivial,
      fun _ _ => trivial⟩
  lock entries _ _ _ := ⟨entries, 0, rfl, ⟨entries, 0, rfl, trivial, fun _ _ => trivial⟩,
    entries, 0, entries, 0, rfl, rfl, trivial, fun _ _ => trivial⟩

/-- The nodes of a radix cache that can be locked; a disabled one has only the root. -/
def RadixCache.Lockable (disable : Bool) (S : RadixCache) (n : Nat) : Prop :=
  S.InTree n ∧ (disable = true → n = 0)

/-- `RadixCache` can be used while its tree and its counts are right. -/
theorem radixPrefixCache_usable (disable : Bool) (clock : Nat → Rat) :
    (radixPrefixCache disable clock).Usable
      (fun S => ∃ tree spell slots locks, S.Locked tree spell slots locks)
      (RadixCache.Lockable disable) where
  matchPrefix S rid key := by
    rintro ⟨tree, spell, slots, locks, h⟩
    cases disable with
    | true =>
      refine ⟨S, 0, 0, rfl, ⟨tree, spell, slots, locks, h⟩, Nat.zero_le _, ?_, fun _ hn => hn⟩
      exact ⟨h.shape.inTree_iff.mpr h.shape.root_mem, fun _ => rfl⟩
    | false =>
      obtain ⟨S', found, last, tree', spell', slots', hrun, h', hmap, hlast, hfound, _⟩ :=
        RadixCache.matchPrefix_spec clock h key
      refine ⟨S', found.length, last, ?_, ⟨tree', spell', slots', locks, h'⟩, hfound.le, ?_, ?_⟩
      · show (S.matchPrefix clock key).map _ = _
        rw [hrun]
        rfl
      · exact ⟨h'.shape.inTree_iff.mpr hlast, Bool.noConfusion⟩
      · intro n hn
        have hmem := hmap.keeps.mem n (h.shape.inTree_iff.mp hn.1)
        exact ⟨h'.shape.inTree_iff.mpr hmem, Bool.noConfusion⟩
  lock S node := by
    rintro ⟨tree, spell, slots, locks, h⟩ hn
    obtain ⟨S₁, delta₁, hlock, ⟨Sr, deltar, hunlock, hr, _⟩, S₂, delta₂, Sa, deltaa, hlock₂,
      hunlock₂, ha, _⟩ := PrefillAdder.lock_unlock h (h.shape.inTree_iff.mp hn.1) hn.2 clock
    have hkeep : ∀ {S' locks'}, RadixCache.Relocked S S' tree spell slots locks' → ∀ n,
        RadixCache.Lockable disable S n → RadixCache.Lockable disable S' n := by
      intro S' locks' h' n hn
      exact ⟨h'.locked.shape.inTree_iff.mpr (h.shape.inTree_iff.mp hn.1), hn.2⟩
    exact ⟨S₁, delta₁, hlock, ⟨Sr, deltar, hunlock, ⟨tree, spell, slots, _, hr.locked⟩, hkeep hr⟩,
      S₂, delta₂, Sa, deltaa, hlock₂, hunlock₂, ⟨tree, spell, slots, _, ha.locked⟩, hkeep ha⟩

namespace Selecting

variable {T Node : Type} {cache : PrefixCache T Node} {good : T → Prop}
  {valid : T → Node → Prop} {s s' : Selecting T Node} {chunkSize mixedWithDecodeTokens : Nat}

/-- Recording the new chunked request only sets it. -/
theorem recordChunked_packed {disable : Bool} {carried : Option Nat}
    (h : s.Packing disable ((chunkSize : Int) - mixedWithDecodeTokens) carried) :
    ∃ s', s.recordChunked = some s' ∧ s'.adder = s.adder ∧ s'.heap = s.heap ∧
      ((∀ q ∈ s.adder.canRunList, (s.heap q).HasIds) →
        s'.Packed disable chunkSize mixedWithDecodeTokens carried) := by
  have hbudget := h.budget
  have hpack : ∀ s' : Selecting T Node, s'.adder = s.adder → s'.heap = s.heap →
      (∀ q ∈ s.adder.canRunList, ¬ (s.heap q).Filled → s'.beingChunkedReq = some q ∧
        (s.adder.canRunList.getLast? = some q ∨ carried = some q)) →
      (∀ q ∈ s.adder.canRunList, (s.heap q).HasIds) →
      s'.Packed disable chunkSize mixedWithDecodeTokens carried := by
    intro s' hadder hheap hcut hids
    refine ⟨?_, ?_, ?_⟩
    · rw [hadder, hheap]
      intro q hq
      exact ⟨(h.laid q hq).1, (h.laid q hq).2 (hids q hq)⟩
    · unfold chunkTokens at hbudget ⊢
      rw [hadder, hheap]
      omega
    · rw [hadder, hheap]
      exact hcut
  unfold recordChunked
  split
  next hnew =>
    refine ⟨s, rfl, rfl, rfl, hpack s rfl rfl ?_⟩
    intro q hq hcut
    rcases h.cut q hq hcut with hold | hold
    · exact ⟨hold.1, .inr hold.2⟩
    · rw [hnew] at hold
      cases hold.1
  next q₀ hnew =>
    have hnone := h.new (by rw [hnew]; exact Option.some_ne_none _)
    by_cases hlisted : s.adder.canRunList = []
    · rw [if_pos hlisted]
      refine ⟨s, rfl, rfl, rfl, hpack s rfl rfl ?_⟩
      intro q hq
      rw [hlisted] at hq
      cases hq
    · rw [if_neg hlisted, if_pos hnone]
      refine ⟨_, rfl, rfl, rfl, hpack _ rfl rfl ?_⟩
      intro q hq hcut
      rcases h.cut q hq hcut with hold | hold
      · rw [hnone] at hold
        cases hold.1
      · rw [hnew] at hold
        exact ⟨hold.1, .inl hold.2⟩

theorem recordChunked_same (h : s.recordChunked = some s') :
    s'.adder = s.adder ∧ s'.heap = s.heap := by
  unfold recordChunked at h
  split at h
  next =>
    cases Option.some.inj h
    exact ⟨rfl, rfl⟩
  next =>
    split at h
    next =>
      cases Option.some.inj h
      exact ⟨rfl, rfl⟩
    next =>
      split at h
      next =>
        cases Option.some.inj h
        exact ⟨rfl, rfl⟩
      next => cases h

/-- A batch that respects the chunk leaves room for what is mixed in, and for the carried
request. -/
theorem Packed.room {disable : Bool} {carried : Option Nat}
    (h : s'.Packed disable chunkSize mixedWithDecodeTokens carried)
    (hcarried : ∀ q, carried = some q → q ∈ s'.adder.canRunList) :
    mixedWithDecodeTokens < chunkSize ∨ mixedWithDecodeTokens = chunkSize ∧ carried = none := by
  have hbudget := h.budget
  have hshare : ∀ x ∈ s'.adder.canRunList.map fun q => chunkShare disable carried q (s'.heap q),
      0 ≤ x := by
    intro x hx
    obtain ⟨q, hq, rfl⟩ := List.mem_map.mp hx
    have hpos := (h.laid q hq).2
    unfold chunkShare
    split <;> omega
  cases hc : carried with
  | none =>
    have hsum : 0 ≤ s'.chunkTokens disable carried := List.sum_nonneg hshare
    have hle : mixedWithDecodeTokens ≤ chunkSize := by omega
    rcases Nat.lt_or_eq_of_le hle with e | e
    · exact .inl e
    · exact .inr ⟨e, rfl⟩
  | some q =>
    left
    have hq := hcarried q hc
    have hpos := (h.laid q hq).2
    have hown : chunkShare disable carried q (s'.heap q) = (s'.heap q).extendInputLen := by
      unfold chunkShare
      rw [if_pos (.inl hc)]
    have hsum : (s'.heap q).extendInputLen ≤ s'.chunkTokens disable carried := by
      rw [← hown]
      exact List.single_le_sum hshare _ (List.mem_map.mpr ⟨q, hq, rfl⟩)
    omega

/-- For every batch that `get_new_batch_prefill` builds over the cache: it respects the chunk
exactly when the mixed decode requests leave room and all its requests have token ids. -/
def PacksExactly (cache : PrefixCache T Node) (good : T → Prop) (valid : T → Node → Prop) : Prop :=
  ∀ (cfg : Config) (prefixComputed : Bool) (runningReqs queue allRunningReqs : List Nat)
    (s : Selecting T Node) (newTokenRatio : Rat) (remTotalTokens : Int) (remInputTokens : Nat)
    (chunkSize mixedWithDecodeTokens : Nat), 0 < chunkSize → good s.tree →
    Startable valid prefixComputed queue s →
    s.adder = .new cfg s.heap allRunningReqs newTokenRatio remTotalTokens remInputTokens
      (some chunkSize) mixedWithDecodeTokens →
    let room := mixedWithDecodeTokens < chunkSize ∨
      mixedWithDecodeTokens = chunkSize ∧ s.beingChunkedReq = none
    (room → (s.fill cache cfg prefixComputed runningReqs queue).isSome) ∧
      ∀ s', s.fill cache cfg prefixComputed runningReqs queue = some s' →
        s'.adder.canRunList ≠ [] →
        (s'.Packed cache.disable chunkSize mixedWithDecodeTokens s.beingChunkedReq ↔
          room ∧ ∀ q ∈ s'.adder.canRunList, (s.heap q).HasIds)

theorem packsExactly_of_usable (hcache : cache.Usable good valid) :
    PacksExactly cache good valid := by
  intro cfg prefixComputed runningReqs queue allRunningReqs s newTokenRatio remTotalTokens
    remInputTokens chunkSize mixedWithDecodeTokens _ ht hstart hadder room
  have hrem : s.adder.remChunkTokens = some ((chunkSize : Int) - mixedWithDecodeTokens) := by
    rw [hadder]
    rfl
  have hnew : s.adder.newBeingChunkedReq = none := by
    rw [hadder]
    rfl
  obtain ⟨s₁, hcarry, hcarried, hroom₁⟩ := addCarriedChunk_carried cfg cache.disable hrem
    (by rw [hadder]; rfl) hnew fun q hq => (hstart.carried q hq).2
  obtain ⟨s₂, hloop, hfills, hpacking⟩ := addWaitingReqs_fills hcache cfg runningReqs
    s.beingChunkedReq (chunkSize - mixedWithDecodeTokens) hstart.nodup
    (by rw [hcarried.tree]; exact ht) fun q hq => hcarried.matched hstart hq
  have hfill : s.fill cache cfg prefixComputed runningReqs queue = s₂.recordChunked := by
    unfold fill
    simp only [hcarry, hloop, Option.bind_eq_bind, Option.bind_some]
  have hpacking₂ : room →
      s₂.Packing cache.disable (chunkSize - mixedWithDecodeTokens) s.beingChunkedReq := by
    intro hroom
    obtain ⟨rem', hroom'⟩ := hroom₁ (by
      rcases hroom with h | h
      · left
        omega
      · exact .inr ⟨by omega, h.2⟩)
    apply hpacking _ rem' hroom'
    intro q hq
    have hne : s.beingChunkedReq ≠ some q := fun e => (hstart.carried q e).1 hq
    refine ⟨?_, hne⟩
    rw [hcarried.listed, Option.mem_toList]
    exact hne
  have hids : ∀ q, (s₂.heap q).HasIds ↔ (s.heap q).HasIds := by
    intro q
    unfold Req.HasIds
    rw [((hcarried.heap q).trans (hfills.heap q)).ids]
  rw [hfill]
  refine ⟨?_, ?_⟩
  · intro hroom
    obtain ⟨s', hrecord, _⟩ := recordChunked_packed (hpacking₂ hroom)
    rw [hrecord]
    rfl
  · intro s' hrecord _
    obtain ⟨hadder', hheap'⟩ := recordChunked_same hrecord
    constructor
    · intro hpacked
      refine ⟨hpacked.room ?_, ?_⟩
      · intro q hq
        rw [hadder']
        apply hfills.listed.subset
        rw [hcarried.listed, Option.mem_toList]
        exact hq
      · intro q hq
        rw [← hids q, ← hheap']
        intro hempty
        obtain ⟨hlaid, hpos⟩ := hpacked.laid q hq
        have hlen := hlaid.length
        have hle := hlaid.fill.length_le
        rw [hempty, List.length_nil] at hle
        omega
    · rintro ⟨hroom, hall⟩
      obtain ⟨s'', hrecord', _, _, hpacked⟩ := recordChunked_packed (hpacking₂ hroom)
      cases Option.some.inj (hrecord.symm.trans hrecord')
      apply hpacked
      intro q hq
      rw [hids q]
      exact hall q (by rw [hadder']; exact hq)

/-- Over either cache, from every tree that it can have. -/
theorem chunk_respected (disable : Bool) (clock : Nat → Rat) (heapq : Heapq) :
    PacksExactly (radixPrefixCache disable clock)
        (fun S => ∃ returned locks, RadixCache.Reached clock heapq True S returned locks)
        (RadixCache.Lockable disable) ∧
      PacksExactly chunkPrefixCache (fun _ => True) fun _ _ => True := by
  refine ⟨?_, packsExactly_of_usable chunkPrefixCache_usable⟩
  intro cfg prefixComputed runningReqs queue allRunningReqs s newTokenRatio remTotalTokens
    remInputTokens chunkSize mixedWithDecodeTokens hpos hreached
  obtain ⟨returned, locks, h⟩ := hreached
  obtain ⟨tree, spell, slots, hl⟩ := h.locked
  exact packsExactly_of_usable (radixPrefixCache_usable disable clock) cfg prefixComputed
    runningReqs queue allRunningReqs s newTokenRatio remTotalTokens remInputTokens chunkSize
    mixedWithDecodeTokens hpos ⟨tree, spell, slots, locks, hl⟩

/-- Requests of three tokens. -/
def threeTokens : Nat → Req := fun q => { Req.blank with rid := q, originInputIds := [5, 6, 7] }

def beforeFill (allRunningReqs : List Nat) (chunkSize mixedWithDecodeTokens : Nat) :
    Selecting (Nat → Nat) Unit where
  tree := fun _ => 0
  heap := threeTokens
  lastNode := fun _ => ()
  adder := .new twoRanks threeTokens allRunningReqs 1 100 100 (some chunkSize) mixedWithDecodeTokens
  beingChunkedReq := none
  batchIsFull := false

/-- One request is whole, the next one is cut to a token. -/
theorem chunk_respected_two : ∃ s',
    (beforeFill [] 4 0).fill chunkPrefixCache twoRanks false [] [0, 1] = some s' ∧
      s'.adder.canRunList = [0, 1] ∧ s'.Packed true 4 0 none := by
  have hrun : ((beforeFill [] 4 0).fill chunkPrefixCache twoRanks false [] [0, 1]).map
      (fun s => s.adder.canRunList) = some [0, 1] := by decide +kernel
  obtain ⟨s', hfill, hlisted⟩ := Option.map_eq_some_iff.mp hrun
  have hexact := (chunk_respected false (fun _ => 0) .list).2 twoRanks false [] [0, 1] []
    (beforeFill [] 4 0) 1 100 100 4 0 (by decide) trivial
    ⟨by decide, fun _ _ => Bool.noConfusion, fun q hq => absurd hq (Option.some_ne_none q).symm⟩ rfl
  refine ⟨s', hfill, hlisted, (hexact.2 s' hfill ?_).mpr ⟨.inl (by decide), ?_⟩⟩
  · rw [hlisted]
    exact List.cons_ne_nil _ _
  · intro q _
    exact List.cons_ne_nil _ _

/-- Three decode requests are mixed into a chunk of two: the new request has a token less than
none to extend. -/
theorem chunk_overdrawn : ∃ s',
    (beforeFill [1, 2, 3] 2 3).fill chunkPrefixCache twoRanks false [1, 2, 3] [0] = some s' ∧
      s'.adder.canRunList = [0] ∧ (s'.heap 0).extendInputLen = -1 ∧ ¬ s'.Packed true 2 3 none := by
  have hrun : ((beforeFill [1, 2, 3] 2 3).fill chunkPrefixCache twoRanks false [1, 2, 3] [0]).map
      (fun s => (s.adder.canRunList, (s.heap 0).extendInputLen)) = some ([0], -1) := by
    decide +kernel
  obtain ⟨s', hfill, hlisted⟩ := Option.map_eq_some_iff.mp hrun
  obtain ⟨hlisted, hext⟩ := Prod.mk.inj hlisted
  refine ⟨s', hfill, hlisted, hext, ?_⟩
  intro hpacked
  have hpos := (hpacked.laid 0 (by rw [hlisted]; exact List.mem_cons_self)).2
  omega

end Selecting

end FastPP
