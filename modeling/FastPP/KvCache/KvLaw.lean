import FastPP.KvCache.ForwardSteps
import Mathlib.Algebra.BigOperators.Ring.Finset

namespace FastPP

namespace KvSystem

variable {κ : Type} {env : KvEnv κ} {reqSlots tokenSlots q : Nat} {flag : Bool} {σ σ' : KvSystem κ}
  {kvBuffer : Nat → κ}

/-- The private slots of all requests. -/
def requestSlots (σ : KvSystem κ) : List Nat :=
  (List.range σ.numReqs).flatMap fun q => σ.privateSlots (σ.reqs q)

/-- The rows of the requests in batches. -/
def requestRows (σ : KvSystem κ) : List Nat :=
  ((List.range σ.numReqs).filter fun q => (σ.reqs q).holdsRow).map fun q => (σ.reqs q).reqPoolIdx

/-- No request has been taken that is not done. -/
def NoneLive (σ : KvSystem κ) : Prop :=
  ∀ q < σ.numReqs, (σ.reqs q).phase = .waiting ∨ (σ.reqs q).phase = .finished

/-- The request's result is due: the last forward pass has computed all its tokens. -/
def Sampled (r : KvReq) : Prop :=
  r.kvLen = r.seqLen ∧ (r.phase = .extend false ∨ r.phase = .decode)

instance (σ : KvSystem κ) : Decidable σ.NoneLive :=
  inferInstanceAs (Decidable (∀ q < σ.numReqs, _))

instance (r : KvReq) : Decidable (Sampled r) := inferInstanceAs (Decidable (_ ∧ _))

theorem requestSlots_eq (σ : KvSystem κ) : (σ.requestSlots : Multiset Nat) = σ.privates := by
  unfold requestSlots privates
  generalize σ.numReqs = n
  induction n with
  | zero => rfl
  | succ n ih =>
    rw [List.range_succ, List.flatMap_append, ← Multiset.coe_add, ih, Finset.sum_range_succ,
      List.flatMap_singleton]

theorem requestRows_eq (σ : KvSystem κ) : (σ.requestRows : Multiset Nat) = σ.rows := by
  unfold requestRows rows
  generalize σ.numReqs = n
  induction n with
  | zero => rfl
  | succ n ih =>
    rw [List.range_succ, List.filter_append, List.map_append, ← Multiset.coe_add, ih,
      Finset.sum_range_succ]
    congr 1
    unfold KvReq.rowOf
    rw [List.filter_singleton]
    cases (σ.reqs n).holdsRow <;> rfl

theorem init_kept (env : KvEnv κ) (reqSlots tokenSlots : Nat) (kvBuffer : Nat → κ) :
    (init env reqSlots tokenSlots kvBuffer).Kept env reqSlots tokenSlots true := by
  refine ⟨rfl, {0}, fun _ => [], fun _ => [], ?_, ?_, ?_, ?_, fun _ _ => rfl,
    fun _ => .idle (.inr rfl)⟩
  · exact RadixCache.lockedBy_coe.mpr (RadixCache.reset_locked env.clock)
  · have hroot := (RadixCache.reset_locked env.clock).shape.root_value
    show ((List.range' 1 tokenSlots ++ [] : List Nat) : Multiset Nat) +
      ∑ n ∈ {0}, (((RadixCache.reset env.clock).nodes n).value : Multiset Nat) + 0 + 0 = _
    rw [List.append_nil, Finset.sum_singleton, hroot]
    simp
  · exact (add_zero _).trans (add_zero _)
  · rintro seq s ⟨n, _, hnil, hpre, _⟩
    exact absurd (List.prefix_nil.mp hpre) hnil

/-- Each operation keeps the invariant. -/
theorem Kept.step {op : KvOp} (h : σ.Kept env reqSlots tokenSlots true)
    (hstep : σ.step env op = some σ') : σ'.Kept env reqSlots tokenSlots true := by
  cases op with
  | submit req =>
    cases Option.some.inj hstep
    exact h.submit req
  | lookup q => exact h.lookup hstep
  | pass q => exact h.pass hstep
  | refuse q => exact h.refuse hstep
  | admitReq q truncLen => exact h.admitReq hstep
  | addBeingChunkedReq q remChunkTokens => exact h.addBeingChunkedReq hstep
  | prepareForExtend qs => exact h.prepareForExtend hstep
  | prepareForDecode qs => exact h.prepareForDecode hstep
  | forwardBatch qs => exact h.forwardBatch hstep
  | processPrefill q token => exact h.processPrefillReq hstep
  | processMixed q token =>
    have hstep' : σ.processDecodeReq env (q, token) = some σ' := hstep
    exact h.processDecodeReq hstep'
  | processDecode items => exact h.processDecode hstep
  | cacheChunk q => exact h.cacheChunk hstep
  | retract q residualSize => exact h.retractReq hstep
  | evict numTokens =>
    have hstep' : (if σ.NoneMatched then σ.evict env numTokens else none) = some σ' := hstep
    split at hstep'
    next hnone => exact h.evict hnone hstep'
    next => exact nomatch hstep'
  | abort q =>
    cases Option.some.inj hstep
    exact h.abort

theorem Kept.run (ops : List KvOp) {σ : KvSystem κ} (h : σ.Kept env reqSlots tokenSlots true)
    (hrun : σ.run env ops = some σ') : σ'.Kept env reqSlots tokenSlots true := by
  induction ops generalizing σ with
  | nil =>
    cases Option.some.inj hrun
    exact h
  | cons op ops ih =>
    obtain ⟨σ₁, hstep, hrest⟩ := Option.bind_eq_some_iff.mp hrun
    exact ih (h.step hstep) hrest

/-- Every slot is free, or cached, or private to one request. -/
theorem Kept.slots_perm (h : σ.Kept env reqSlots tokenSlots true) :
    (σ.tokenToKVPool.freeSlots ++ σ.treeCache.cachedSlots ++ σ.requestSlots).Perm
      (List.range' 1 tokenSlots) := by
  obtain ⟨hflag, tree, spell, slots, h⟩ := h
  have hslots := h.slots_eq
  rw [TokenToKVPool.contents_closed hflag, ← h.locked.shape.cachedSlots_eq, ← requestSlots_eq,
    add_zero, Multiset.coe_add, Multiset.coe_add] at hslots
  exact Multiset.coe_eq_coe.mp hslots

theorem Kept.rows_perm (h : σ.Kept env reqSlots tokenSlots true) :
    (σ.reqToTokenPool.freeSlots ++ σ.requestRows).Perm (List.range reqSlots) := by
  obtain ⟨_, tree, spell, slots, h⟩ := h
  have hrows := h.rows_eq
  rw [← requestRows_eq, add_zero, Multiset.coe_add] at hrows
  exact Multiset.coe_eq_coe.mp hrows

theorem NoneLive.sum_eq (h : σ.NoneLive) (f : KvReq → Multiset Nat)
    (hf : ∀ r : KvReq, r.phase = .waiting ∨ r.phase = .finished → f r = 0) :
    ∑ q ∈ Finset.range σ.numReqs, f (σ.reqs q) = 0 :=
  Finset.sum_eq_zero fun q hq => hf _ (h q (Finset.mem_range.mp hq))

/-- What `check_memory` tests. -/
theorem Kept.idle_sizes (h : σ.Kept env reqSlots tokenSlots true) (hnone : σ.NoneLive) :
    (σ.tokenToKVPool.availableSize : Int) + σ.treeCache.evictableSize = tokenSlots ∧
      σ.reqToTokenPool.freeSlots.length = reqSlots := by
  obtain ⟨hflag, tree, spell, slots, h⟩ := h
  have hidle : ∀ r : KvReq, r.phase = .waiting ∨ r.phase = .finished → r.holdsRow = false := by
    intro r hr
    unfold KvReq.holdsRow
    rcases hr with e | e <;> rw [e]
  have hlocks : σ.locks = 0 := hnone.sum_eq _ fun r hr =>
    KvReq.lockOf_waiting (hr.imp_right .inr)
  have hrows : σ.rows = 0 := hnone.sum_eq _ fun r hr => KvReq.rowOf_none (hidle r hr)
  have hprivates : σ.privates = 0 := hnone.sum_eq (fun r => (σ.privateSlots r : Multiset Nat))
    fun r hr => congrArg _ (privateSlots_none (hidle r hr))
  have hlocked := h.locked
  rw [hlocks] at hlocked
  have hevictable : σ.treeCache.evictableSize = Multiset.card (σ.treeCache.slotsOf tree) := by
    rw [hlocked.size]
    unfold RadixCache.slotsOf
    rw [Multiset.card_sum, Nat.cast_sum]
    apply Finset.sum_congr rfl
    intro n hn
    rw [Multiset.coe_card]
    unfold RadixCache.evictableAt
    by_cases h0 : n = 0
    · rw [h0, hlocked.shape.root_value]
      split <;> rfl
    · have hfree : (σ.treeCache.nodes n).lockRef = 0 := by
        rw [hlocked.lockRef n hn h0]
        show ((RadixCache.locksUnder spell (0 + 0 : Multiset Nat).toList n : Nat) : Int) = 0
        rw [add_zero, Multiset.toList_zero]
        rfl
      rw [if_pos hfree]
  have hslots := congrArg Multiset.card h.slots_eq
  have hrows' := congrArg Multiset.card h.rows_eq
  rw [hprivates, TokenToKVPool.contents_closed hflag] at hslots
  rw [hrows] at hrows'
  simp only [Multiset.card_add, Multiset.coe_card, List.length_range',
    List.length_range, add_zero] at hslots hrows'
  refine ⟨?_, hrows'⟩
  rw [hevictable]
  unfold TokenToKVPool.availableSize
  omega

/-- The row of a request whose result is due has the KV data of all its tokens. -/
theorem Kept.sampled (h : σ.Kept env reqSlots tokenSlots flag) (hs : Sampled (σ.reqs q)) :
    (σ.kvIndices (σ.reqs q) (σ.reqs q).seqLen).map σ.kvBuffer =
      Causal.states env.attend (σ.reqs q).tokens := by
  obtain ⟨_, tree, spell, slots, h⟩ := h
  obtain ⟨hkv, hphase⟩ := hs
  have hseq : (σ.reqs q).seqLen = (σ.reqs q).tokens.length := by
    rcases hphase with hphase | hphase
    · obtain ⟨hcut, hseq⟩ := (h.own q).extend false hphase
      rw [hseq, hcut.whole rfl]
    · exact ((h.own q).decode hphase).2.2
  have hrow : (σ.reqs q).holdsRow = true := by
    unfold KvReq.holdsRow
    rcases hphase with e | e <;> rw [e]
  have hcomputed := ((h.own q).inRow hrow).computed
  rw [hkv, hseq, List.take_length] at hcomputed
  rw [hseq]
  exact hcomputed

theorem Kept.path_computed (h : σ.Kept env reqSlots tokenSlots flag) {n : Nat} {ks vs : List Nat}
    (hp : σ.treeCache.Path n ks vs) : vs.map σ.kvBuffer = Causal.states env.attend ks := by
  obtain ⟨_, tree, spell, slots, h⟩ := h
  obtain ⟨hn, rfl, rfl⟩ := h.locked.shape.of_path hp
  exact h.path_computed hn

theorem Kept.processDecodeReq_returns (h : σ.Kept env reqSlots tokenSlots flag)
    (hs : (σ.reqs q).kvLen = (σ.reqs q).seqLen) (hphase : (σ.reqs q).phase = .decode)
    (token : Nat) : (σ.processDecodeReq env (q, token)).isSome ↔
      ((σ.reqs q).req.appendToken env.tokenizer token).isSome := by
  obtain ⟨_, tree, spell, slots, h⟩ := h
  have hrow : (σ.reqs q).holdsRow = true := by
    unfold KvReq.holdsRow
    rw [hphase]
  unfold KvSystem.processDecodeReq
  simp only
  rw [if_neg (by tauto)]
  cases happend : (σ.reqs q).req.appendToken env.tokenizer token with
  | none => exact Iff.rfl
  | some req =>
    simp only [Option.bind_eq_bind, Option.bind_some]
    split
    next =>
      obtain ⟨σ₁, _, _, _, hfinish, _, _⟩ :=
        (computed_of h hrow hs).finish ((h.own q).decode hphase).2.2 happend
      rw [hfinish]
      simp
    next => simp

theorem Kept.processPrefillReq_returns (h : σ.Kept env reqSlots tokenSlots flag)
    (hs : (σ.reqs q).kvLen = (σ.reqs q).seqLen) (hphase : (σ.reqs q).phase = .extend false)
    (token : Nat) : (σ.processPrefillReq env q token).isSome ↔
      ((σ.reqs q).req.appendToken env.tokenizer token).isSome := by
  obtain ⟨_, tree, spell, slots, h⟩ := h
  obtain ⟨hcut, hseq⟩ := (h.own q).extend false hphase
  have hrow : (σ.reqs q).holdsRow = true := by
    unfold KvReq.holdsRow
    rw [hphase]
  have hc := computed_of h hrow hs
  unfold KvSystem.processPrefillReq
  simp only
  rw [if_neg (by tauto)]
  cases happend : (σ.reqs q).req.appendToken env.tokenizer token with
  | none => exact Iff.rfl
  | some req =>
    simp only [Option.bind_eq_bind, Option.bind_some]
    split
    next =>
      obtain ⟨σ₁, _, _, _, hfinish, _, _⟩ := hc.finish (by rw [hseq, hcut.whole rfl]) happend
      rw [hfinish]
      simp
    next =>
      have hfill : req.fillIds = (σ.reqs q).req.fillIds := by
        obtain ⟨_, _, rfl⟩ := Req.appendToken_spec happend
        rfl
      obtain ⟨S', pool, rows, found, last, _, _, _, hshare, _⟩ := hc.share hseq hcut.le hfill
      rw [hshare]
      simp

/-- The assertion in `cache_unfinished_req` holds. -/
theorem Kept.cacheChunk_returns (h : σ.Kept env reqSlots tokenSlots flag)
    (hs : (σ.reqs q).kvLen = (σ.reqs q).seqLen) (hphase : (σ.reqs q).phase = .extend true) :
    (σ.cacheChunk env q).isSome := by
  obtain ⟨_, tree, spell, slots, h⟩ := h
  obtain ⟨hcut, hseq⟩ := (h.own q).extend true hphase
  have hrow : (σ.reqs q).holdsRow = true := by
    unfold KvReq.holdsRow
    rw [hphase]
  obtain ⟨S', pool, rows, found, last, _, _, _, hshare, _⟩ :=
    (computed_of h hrow hs).share hseq hcut.le (Eq.refl (σ.reqs q).req.fillIds)
  have hsame : σ.setReq q { σ.reqs q with req := (σ.reqs q).req } = σ := by
    unfold setReq
    rw [Function.update_eq_self_iff.mpr rfl]
  rw [hsame] at hshare
  unfold KvSystem.cacheChunk
  simp only
  rw [if_neg (by tauto), hshare]
  rfl

theorem Kept.retractReq_returns (h : σ.Kept env reqSlots tokenSlots flag)
    (hnone : σ.NoneMatched) (hphase : (σ.reqs q).phase = .running) (residualSize : Nat) :
    (σ.retractReq env q residualSize).isSome := by
  obtain ⟨_, tree, spell, slots, h⟩ := h
  have hrow : (σ.reqs q).holdsRow = true := by
    unfold KvReq.holdsRow
    rw [hphase]
  have h₁ := h.release (h.lt_of_holdsRow hrow)
  rw [KvReq.lockOf_eq (KvReq.holdsLock_of_holdsRow hrow),
    add_comm ({(σ.reqs q).lastNode} : Multiset Nat)] at h₁
  obtain ⟨S₁, _, hdec, h₂⟩ := h₁.decLockRef
  obtain ⟨S₂, evicted, _, hevict, _⟩ := RadixCache.evict_gives env.heapq h₂.locked residualSize
  have hevict' : S₁.evict env.heapq residualSize = some (S₂, evicted) := hevict
  unfold KvSystem.retractReq
  simp only
  rw [if_neg (by tauto)]
  simp only [Option.bind_eq_bind]
  rw [decLockRef_eq (σ := KvSystem.freeRow { σ with
    tokenToKVPool := σ.tokenToKVPool.free (((σ.kvIndices (σ.reqs q) (σ.reqs q).seqLen)).drop
      (σ.reqs q).prefixIndices.length) } (σ.reqs q)) hdec]
  simp only [KvSystem.evict, hevict', Option.bind_eq_bind, Option.bind_some]
  rfl

theorem takeSlots_returns (σ : KvSystem κ) (numTokens : Nat) :
    (σ.takeSlots numTokens).isSome ↔ numTokens ≤ σ.tokenToKVPool.availableSize := by
  unfold takeSlots TokenToKVPool.alloc takeFirst TokenToKVPool.availableSize
  by_cases hlen : σ.tokenToKVPool.freeSlots.length < numTokens
  · rw [if_pos hlen]
    simp [hlen]
  · rw [if_neg hlen]
    simp; omega

/-- Slots can be allocated exactly when enough are free or can be evicted. -/
theorem Kept.allocTokenSlots_returns (h : σ.Kept env reqSlots tokenSlots true) (numTokens : Nat) :
    (σ.allocTokenSlots env numTokens).isSome ↔
      (numTokens : Int) ≤ σ.tokenToKVPool.availableSize + σ.treeCache.evictableSize := by
  obtain ⟨hflag, tree, spell, slots, h⟩ := h
  have hnonneg := RadixCache.Locked.size_nonneg h.locked
  unfold KvSystem.allocTokenSlots
  cases htake : σ.takeSlots numTokens with
  | some taken =>
    have hle := (takeSlots_returns σ numTokens).mp (by rw [htake]; rfl)
    simp only [Option.isSome_some, true_iff]
    omega
  | none =>
    have hlt : ¬ numTokens ≤ σ.tokenToKVPool.availableSize := fun hle => by
      have hsome := (takeSlots_returns σ numTokens).mpr hle
      rw [htake] at hsome
      exact nomatch hsome
    obtain ⟨S', removed, evicted, hevict, _, hvalues, _, _, _, henough, hsize⟩ :=
      RadixCache.evict_order env.heapq h.locked numTokens
    obtain ⟨S₁, evicted₁, tree', hevict₁, hlocked', _⟩ :=
      RadixCache.evict_gives env.heapq h.locked numTokens
    obtain ⟨rfl, rfl⟩ := Prod.mk.inj (Option.some.inj (hevict.symm.trans hevict₁))
    have hleft := RadixCache.Locked.size_nonneg hlocked'
    obtain ⟨hcontents, hflag'⟩ := TokenToKVPool.freeAll_contents σ.tokenToKVPool evicted
    rw [TokenToKVPool.contents_closed hflag, TokenToKVPool.contents_closed (hflag'.trans hflag)]
      at hcontents
    have hlen := congrArg List.length hcontents
    rw [List.length_append, hvalues, List.length_flatten, List.map_map] at hlen
    simp only [Option.bind_eq_bind]
    rw [evict_eq hevict, Option.bind_some, takeSlots_returns]
    unfold TokenToKVPool.availableSize at hlt ⊢
    have hfreed : (List.map (List.length ∘ fun x => (σ.treeCache.nodes x).value) removed).sum =
      σ.treeCache.freed removed := rfl
    rw [← hvalues, hfreed] at hlen
    simp only
    omega

theorem Kept.prepareForDecode_returns (h : σ.Kept env reqSlots tokenSlots true) {qs : List Nat}
    (hnodup : qs.Nodup) (hnone : σ.NoneMatched) (hphase : ∀ q ∈ qs, (σ.reqs q).phase = .running) :
    (σ.prepareForDecode env qs).isSome ↔
      (qs.length : Int) ≤ σ.tokenToKVPool.availableSize + σ.treeCache.evictableSize := by
  rw [← h.allocTokenSlots_returns qs.length]
  obtain ⟨_, tree, spell, slots, h⟩ := h
  unfold KvSystem.prepareForDecode
  rw [if_neg (not_not.mpr ⟨hnodup, hnone, hphase⟩)]
  cases halloc : σ.allocTokenSlots env qs.length with
  | none => exact Iff.rfl
  | some taken =>
    obtain ⟨out, σ₁⟩ := taken
    obtain ⟨S', pool, tree', rfl, hlen, _⟩ := h.allocTokenSlots hnone halloc
    unfold ReqToTokenPool.writeIndexed
    simp [hlen]

theorem decLockRef_reqs {node : Nat} (hrun : σ.decLockRef node = some σ') : σ'.reqs = σ.reqs := by
  obtain ⟨_, _, hrun⟩ := Option.bind_eq_some_iff.mp hrun
  cases Option.some.inj hrun
  rfl

theorem cacheFinishedReq_reqs (hrun : σ.cacheFinishedReq env q = some σ') :
    σ'.reqs = σ.reqs := by
  obtain ⟨σ₁, hinsert, hrun⟩ := Option.bind_eq_some_iff.mp hrun
  obtain ⟨_, _, hinsert⟩ := Option.bind_eq_some_iff.mp hinsert
  cases Option.some.inj hinsert
  have hreqs := decLockRef_reqs hrun
  exact hreqs

/-- The round of a request leaves the others alone. -/
theorem processDecodeReq_other {p token : Nat} (hrun : σ.processDecodeReq env (q, token) = some σ')
    (hne : p ≠ q) : σ'.reqs p = σ.reqs p := by
  unfold processDecodeReq at hrun
  simp only at hrun
  split at hrun
  next => exact nomatch hrun
  next =>
    obtain ⟨req, _, hrun⟩ := Option.bind_eq_some_iff.mp hrun
    split at hrun
    next =>
      obtain ⟨σ₁, hfinish, hrun⟩ := Option.bind_eq_some_iff.mp hrun
      cases Option.some.inj hrun
      unfold setPhase
      rw [setReq_other _ _ hne, cacheFinishedReq_reqs hfinish, setReq_other _ _ hne]
    next =>
      cases Option.some.inj hrun
      unfold setPhase
      rw [setReq_other _ _ hne, setReq_other _ _ hne]

theorem Kept.processDecodeReqs_returns (items : List (Nat × Nat)) {σ : KvSystem κ}
    (h : σ.Kept env reqSlots tokenSlots flag) (hnodup : (items.map Prod.fst).Nodup)
    (hs : ∀ item ∈ items, (σ.reqs item.1).kvLen = (σ.reqs item.1).seqLen)
    (hphase : ∀ item ∈ items, (σ.reqs item.1).phase = .decode) :
    (items.foldlM (KvSystem.processDecodeReq env) σ).isSome ↔
      ∀ item ∈ items, ((σ.reqs item.1).req.appendToken env.tokenizer item.2).isSome := by
  induction items generalizing σ with
  | nil => simp
  | cons item items ih =>
    obtain ⟨q, token⟩ := item
    obtain ⟨hnot, hnodup'⟩ := List.nodup_cons.mp hnodup
    have hone := h.processDecodeReq_returns (hs _ List.mem_cons_self)
      (hphase _ List.mem_cons_self) token
    rw [List.foldlM_cons, List.forall_mem_cons, ← hone]
    cases hrun : σ.processDecodeReq env (q, token) with
    | none => simp
    | some σ₁ =>
      have hsame : ∀ item ∈ items, σ₁.reqs item.1 = σ.reqs item.1 := by
        intro item hmem
        apply processDecodeReq_other hrun
        intro heq
        exact hnot (List.mem_map.mpr ⟨item, hmem, heq⟩)
      have hrest := ih (h.processDecodeReq hrun) hnodup'
        (fun item hmem => by
          rw [hsame item hmem]
          exact hs item (List.mem_cons_of_mem _ hmem))
        (fun item hmem => by
          rw [hsame item hmem]
          exact hphase item (List.mem_cons_of_mem _ hmem))
      simp only [Option.bind_eq_bind, Option.bind_some, Option.isSome_some, true_and]
      rw [hrest]
      apply forall₂_congr
      intro item hmem
      rw [hsame item hmem]

theorem Kept.processDecode_returns {items : List (Nat × Nat)}
    (h : σ.Kept env reqSlots tokenSlots true) (hnodup : (items.map Prod.fst).Nodup)
    (hs : ∀ item ∈ items, (σ.reqs item.1).kvLen = (σ.reqs item.1).seqLen)
    (hphase : ∀ item ∈ items, (σ.reqs item.1).phase = .decode) :
    (σ.processDecode env items).isSome ↔
      ∀ item ∈ items, ((σ.reqs item.1).req.appendToken env.tokenizer item.2).isSome := by
  rw [← h.freeGroupBegin.processDecodeReqs_returns items hnodup hs hphase]
  unfold KvSystem.processDecode
  simp only [Option.bind_eq_bind]
  cases items.foldlM (KvSystem.processDecodeReq env)
    { σ with tokenToKVPool := σ.tokenToKVPool.freeGroupBegin } <;> rfl

/-- The KV data of a token are the tokens that it depends on. -/
def trace : KvEnv (List Nat) where
  clock n := n
  heapq := .list
  tokenizer := none
  attend done token := done.getLastD [] ++ [token]

def prompt (originInputIds : List Nat) (maxNewTokens : Nat) : Req :=
  { Req.blank with
    originInputIds, samplingParams := { Req.blank.samplingParams with maxNewTokens } }

/-- A request decodes while another with the same prefix is chunked; then it is retracted. -/
def sharedPrefix : List KvOp :=
  [.submit (prompt [5, 6, 7, 8] 3), .lookup 0, .admitReq 0 none, .prepareForExtend [0],
    .forwardBatch [0], .processPrefill 0 9, .prepareForDecode [0], .forwardBatch [0],
    .submit (prompt [5, 6, 7, 3, 4] 1), .processDecode [(0, 1)], .lookup 1, .admitReq 1 (some 1),
    .prepareForExtend [1], .forwardBatch [1], .cacheChunk 1, .addBeingChunkedReq 1 5,
    .prepareForExtend [1], .forwardBatch [1], .processPrefill 1 2, .retract 0 4]

/-- The state after the first operations of `sharedPrefix`. -/
def sharedAfter (n : Nat) : Option (KvSystem (List Nat)) :=
  (init trace 2 9 fun _ => []).run trace (sharedPrefix.take n)

/-- In every run each slot is free, cached, or private to one request; without live requests
the free and the evictable slots are all there are. -/
theorem slots_conserved (env : KvEnv κ) (reqSlots tokenSlots : Nat) (kvBuffer : Nat → κ)
    (ops : List KvOp) {σ : KvSystem κ}
    (hrun : (init env reqSlots tokenSlots kvBuffer).run env ops = some σ) :
    (σ.tokenToKVPool.freeSlots ++ σ.treeCache.cachedSlots ++ σ.requestSlots).Perm
        (List.range' 1 tokenSlots) ∧
      (σ.NoneLive →
        (σ.tokenToKVPool.availableSize : Int) + σ.treeCache.evictableSize = tokenSlots) := by
  have h := (init_kept env reqSlots tokenSlots kvBuffer).run ops hrun
  exact ⟨h.slots_perm, fun hnone => (h.idle_sizes hnone).1⟩

theorem slots_conserved_shared : ∃ σ, sharedAfter 20 = some σ ∧
    (σ.tokenToKVPool.freeSlots ++ σ.treeCache.cachedSlots ++ σ.requestSlots).Perm
      (List.range' 1 9) ∧
    (σ.tokenToKVPool.availableSize : Int) + σ.treeCache.evictableSize = 9 := by
  have hlive : (sharedAfter 20).any (fun σ => decide σ.NoneLive) = true := by decide +kernel
  obtain ⟨σ, hrun, hnone⟩ := (Option.any_eq_true _ _).mp hlive
  obtain ⟨hslots, hsize⟩ := slots_conserved trace 2 9 (fun _ => []) (sharedPrefix.take 20) hrun
  exact ⟨σ, hrun, hslots, hsize (of_decide_eq_true hnone)⟩

/-- In every run each row is free or with one request, and the data of each cached or computed
token is what it would be without the cache. -/
theorem data_kept (env : KvEnv κ) (reqSlots tokenSlots : Nat) (kvBuffer : Nat → κ)
    (ops : List KvOp) {σ : KvSystem κ}
    (hrun : (init env reqSlots tokenSlots kvBuffer).run env ops = some σ) :
    (σ.reqToTokenPool.freeSlots ++ σ.requestRows).Perm (List.range reqSlots) ∧
      (∀ n ks vs, σ.treeCache.Path n ks vs →
        vs.map σ.kvBuffer = Causal.states env.attend ks) ∧
      ∀ q, Sampled (σ.reqs q) → (σ.kvIndices (σ.reqs q) (σ.reqs q).seqLen).map σ.kvBuffer =
        Causal.states env.attend (σ.reqs q).tokens := by
  have h := (init_kept env reqSlots tokenSlots kvBuffer).run ops hrun
  exact ⟨h.rows_perm, fun n ks vs hp => h.path_computed hp, fun q hs => h.sampled hs⟩

theorem data_kept_shared : ∃ σ, sharedAfter 18 = some σ ∧
    (σ.kvIndices (σ.reqs 1) (σ.reqs 1).seqLen).map σ.kvBuffer =
      Causal.states trace.attend [5, 6, 7, 3, 4] := by
  have hdue : (sharedAfter 18).any (fun σ => decide
      (Sampled (σ.reqs 1) ∧ (σ.reqs 1).tokens = [5, 6, 7, 3, 4])) = true := by decide +kernel
  obtain ⟨σ, hrun, hdue⟩ := (Option.any_eq_true _ _).mp hdue
  obtain ⟨hsampled, htokens⟩ := of_decide_eq_true hdue
  have h := data_kept trace 2 9 (fun _ => []) (sharedPrefix.take 18) hrun
  exact ⟨σ, hrun, htokens ▸ h.2.2 1 hsampled⟩

/-- In every run the results can be processed, the chunks cached and the requests retracted,
and a decode batch gets its slots exactly when enough are free or evictable. -/
theorem operations_return (env : KvEnv κ) (reqSlots tokenSlots : Nat) (kvBuffer : Nat → κ)
    (ops : List KvOp) {σ : KvSystem κ}
    (hrun : (init env reqSlots tokenSlots kvBuffer).run env ops = some σ) :
    (∀ q token, (σ.reqs q).kvLen = (σ.reqs q).seqLen → (σ.reqs q).phase = .extend false →
        ((σ.step env (.processPrefill q token)).isSome ↔
          ((σ.reqs q).req.appendToken env.tokenizer token).isSome)) ∧
      (∀ items : List (Nat × Nat), (items.map Prod.fst).Nodup →
        (∀ item ∈ items, (σ.reqs item.1).kvLen = (σ.reqs item.1).seqLen) →
        (∀ item ∈ items, (σ.reqs item.1).phase = .decode) →
        ((σ.step env (.processDecode items)).isSome ↔
          ∀ item ∈ items, ((σ.reqs item.1).req.appendToken env.tokenizer item.2).isSome)) ∧
      (∀ q, (σ.reqs q).kvLen = (σ.reqs q).seqLen → (σ.reqs q).phase = .extend true →
        (σ.step env (.cacheChunk q)).isSome) ∧
      (∀ q residualSize, σ.NoneMatched → (σ.reqs q).phase = .running →
        (σ.step env (.retract q residualSize)).isSome) ∧
      ∀ qs : List Nat, qs.Nodup → σ.NoneMatched → (∀ q ∈ qs, (σ.reqs q).phase = .running) →
        ((σ.step env (.prepareForDecode qs)).isSome ↔
          (qs.length : Int) ≤ σ.tokenToKVPool.availableSize + σ.treeCache.evictableSize) := by
  have h := (init_kept env reqSlots tokenSlots kvBuffer).run ops hrun
  exact ⟨fun q token hs hphase => h.processPrefillReq_returns hs hphase token,
    fun items hnodup hs hphase => h.processDecode_returns hnodup hs hphase,
    fun q hs hphase => h.cacheChunk_returns hs hphase,
    fun q residualSize hnone hphase => h.retractReq_returns hnone hphase residualSize,
    fun qs hnodup hnone hphase => h.prepareForDecode_returns hnodup hnone hphase⟩

theorem operations_return_shared : ∃ σ, sharedAfter 18 = some σ ∧
    (σ.step trace (.processPrefill 1 2)).isSome ∧ (σ.step trace (.prepareForDecode [0])).isSome := by
  have hready : (sharedAfter 18).any (fun σ => decide ((σ.reqs 1).kvLen = (σ.reqs 1).seqLen ∧
      (σ.reqs 1).phase = .extend false ∧ ((σ.reqs 1).req.appendToken none 2).isSome ∧
      σ.NoneMatched ∧ (σ.reqs 0).phase = .running ∧
      1 ≤ (σ.tokenToKVPool.availableSize : Int) + σ.treeCache.evictableSize)) = true := by
    decide +kernel
  obtain ⟨σ, hrun, hready⟩ := (Option.any_eq_true _ _).mp hready
  obtain ⟨hkv, hphase, happend, hnone, hdecode, hfree⟩ := of_decide_eq_true hready
  obtain ⟨hprefill, _, _, _, hbatch⟩ :=
    operations_return trace 2 9 (fun _ => []) (sharedPrefix.take 18) hrun
  refine ⟨σ, hrun, (hprefill 1 2 hkv hphase).mpr happend, (hbatch [0] ?_ hnone ?_).mpr hfree⟩
  · exact List.nodup_singleton 0
  · intro q hq
    rw [List.mem_singleton.mp hq]
    exact hdecode

end KvSystem

end FastPP
