import FastPP.Reachable
import FastPP.Lib.FreeList

namespace FastPP

namespace Memory

/-- The row of a request as a list. -/
def rowsOf (m : Memory) (q : Nat) : List Nat := (m.reqPoolIdx q).toList

/-- The rows of the listed requests were put back. -/
structure Frees (m : Memory) (qs : List Nat) (m' : Memory) : Prop where
  reqPoolIdx : m'.reqPoolIdx = m.reqPoolIdx
  freeSlots : m'.reqToTokenPool.freeSlots = m.reqToTokenPool.freeSlots ++ qs.flatMap m.rowsOf

/-- The listed requests got rows from the front of the free list. -/
structure Takes (m : Memory) (qs : List Nat) (m' : Memory) : Prop where
  other : ∀ q ∉ qs, m'.reqPoolIdx q = m.reqPoolIdx q
  taken : ∀ q ∈ qs, (m'.reqPoolIdx q).isSome = true
  freeSlots : m.reqToTokenPool.freeSlots = qs.flatMap m'.rowsOf ++ m'.reqToTokenPool.freeSlots

theorem Frees.refl (m : Memory) : m.Frees [] m := ⟨rfl, by simp⟩

theorem Frees.trans {m m' m'' : Memory} {qs qs' : List Nat} (h : m.Frees qs m')
    (h' : m'.Frees qs' m'') : m.Frees (qs ++ qs') m'' where
  reqPoolIdx := h'.reqPoolIdx.trans h.reqPoolIdx
  freeSlots := by
    have hrows : m'.rowsOf = m.rowsOf := by
      funext q
      rw [rowsOf, h.reqPoolIdx, rowsOf]
    rw [h'.freeSlots, h.freeSlots, hrows, List.flatMap_append, List.append_assoc]

theorem frees_nil_iff {m m' : Memory} : m.Frees [] m' ↔ m.SameRows m' :=
  ⟨fun h => ⟨h.reqPoolIdx, by simpa using h.freeSlots⟩, fun h => ⟨h.reqPoolIdx, by
    simpa using h.freeSlots⟩⟩

theorem Takes.trans_sameRows {m m' m'' : Memory} {qs : List Nat} (h : m.Takes qs m')
    (h' : m'.SameRows m'') : m.Takes qs m'' where
  other q hq := by rw [h'.reqPoolIdx, h.other q hq]
  taken q hq := by rw [h'.reqPoolIdx, h.taken q hq]
  freeSlots := by
    have hrows : m''.rowsOf = m'.rowsOf := by
      funext q
      rw [rowsOf, h'.reqPoolIdx, rowsOf]
    rw [h'.freeSlots, hrows, h.freeSlots]

/-- Each of these requests has a row, and the free list and they share out the pool. -/
structure Ledger (all : List Nat) (m : Memory) (held : List Nat) : Prop where
  conserved : FreeList.Conserved all m.reqToTokenPool.freeSlots m.rowsOf held
  placed : ∀ q ∈ held, (m.reqPoolIdx q).isSome = true

theorem Ledger.perm {all held held' : List Nat} {m : Memory} (h : Ledger all m held)
    (hp : held.Perm held') : Ledger all m held' :=
  ⟨h.conserved.perm hp, fun q hq => h.placed q (hp.mem_iff.mpr hq)⟩

theorem Ledger.frees {all held qs : List Nat} {m m' : Memory} (h : Ledger all m (qs ++ held))
    (hf : m.Frees qs m') : Ledger all m' held := by
  have hrows : m'.rowsOf = m.rowsOf := by
    funext q
    rw [rowsOf, hf.reqPoolIdx, rowsOf]
  refine ⟨?_, fun q hq => ?_⟩
  · rw [hf.freeSlots, hrows]
    exact h.conserved.release
  · rw [hf.reqPoolIdx]
    exact h.placed q (List.mem_append_right _ hq)

theorem Ledger.sameRows {all held : List Nat} {m m' : Memory} (h : Ledger all m held)
    (hs : m.SameRows m') : Ledger all m' held :=
  (show Ledger all m ([] ++ held) from h).frees (frees_nil_iff.mpr hs)

theorem Ledger.takes {all held qs : List Nat} {m m' : Memory} (h : Ledger all m held)
    (ht : m.Takes qs m') (hdisj : ∀ q ∈ held, q ∉ qs) : Ledger all m' (qs ++ held) := by
  refine ⟨?_, fun q hq => ?_⟩
  · have hconserved := h.conserved
    rw [ht.freeSlots] at hconserved
    exact hconserved.acquire rfl fun q hq => by rw [rowsOf, ht.other q (hdisj q hq), rowsOf]
  · rcases List.mem_append.mp hq with hq | hq
    · exact ht.taken q hq
    · rw [ht.other q (hdisj q hq)]
      exact h.placed q hq

/-- Rows that go with some of their holders are missing from the pool. -/
theorem Ledger.forget {all held qs : List Nat} {m : Memory} (h : Ledger all m (qs ++ held)) :
    ∃ slots, (slots ++ qs.flatMap m.rowsOf).Perm all ∧ Ledger slots m held :=
  ⟨m.reqToTokenPool.freeSlots ++ held.flatMap m.rowsOf, h.conserved.forget, .refl _, fun q hq =>
    h.placed q (List.mem_append_right _ hq)⟩

theorem freeReqSlot_frees {m m' : Memory} {q : Nat} (h : m.freeReqSlot q = some m') :
    m.Frees [q] m' := by
  obtain ⟨row, hrow, h⟩ := Option.bind_eq_some_iff.mp h
  cases Option.some.inj h
  exact ⟨rfl, by simp [ReqToTokenPool.free, rowsOf, hrow]⟩

theorem cacheFinishedReq_frees {m m' : Memory} {q n : Nat}
    (h : m.cacheFinishedReq q n = some m') : m.Frees [q] m' := by
  obtain ⟨row, hrow, h⟩ := Option.bind_eq_some_iff.mp h
  cases Option.some.inj h
  exact ⟨rfl, by simp [ReqToTokenPool.free, rowsOf, hrow]⟩

theorem retractReq_frees {m m' : Memory} {q n : Nat} (h : m.retractReq q n = some m') :
    m.Frees [q] m' := by
  obtain ⟨row, hrow, h⟩ := Option.bind_eq_some_iff.mp h
  cases Option.some.inj h
  exact ⟨rfl, by simp [ReqToTokenPool.free, rowsOf, hrow]⟩

theorem cacheUnfinishedReq_sameRows {m m' : Memory} {q row : Nat}
    (h : m.cacheUnfinishedReq q = some (row, m')) : m.SameRows m' := by
  obtain ⟨_, _, h⟩ := Option.bind_eq_some_iff.mp h
  obtain ⟨rfl, rfl⟩ := Prod.mk.inj (Option.some.inj h)
  exact ⟨rfl, rfl⟩

theorem allocTokenSlots_sameRows {m m' : Memory} {n : Nat} {slots : List Nat}
    (h : m.allocTokenSlots n = some (slots, m')) : m.SameRows m' := by
  obtain ⟨_, _, h⟩ := Option.bind_eq_some_iff.mp h
  obtain ⟨rfl, rfl⟩ := Prod.mk.inj (Option.some.inj h)
  exact ⟨rfl, rfl⟩

theorem writeDecode_sameRows {m m' : Memory} {rows locs slots : List Nat}
    (h : m.writeDecode rows locs slots = some m') : m.SameRows m' := by
  obtain ⟨pool, hpool, h⟩ := Option.bind_eq_some_iff.mp h
  cases Option.some.inj h
  exact ⟨rfl, ReqToTokenPool.writeIndexed_freeSlots hpool⟩

theorem writeExtendFrom_freeSlots {outCacheLoc : List Nat} {entries : List (Nat × Nat × Nat × Int)}
    {start : Int} {pool pool' : ReqToTokenPool}
    (h : writeExtendFrom outCacheLoc start pool entries = some pool') :
    pool'.freeSlots = pool.freeSlots := by
  induction entries generalizing start pool with
  | nil => rw [Option.some.inj h]
  | cons entry entries ih =>
    obtain ⟨row, preLen, seqLen, extendLen⟩ := entry
    unfold writeExtendFrom at h
    dsimp only at h
    split at h
    next => exact ih h
    next =>
      split at h
      next => simp at h
      next =>
        have hfree := ih h
        simpa using hfree

theorem writeExtend_sameRows {m m' : Memory} {rows preLens seqLens slots : List Nat}
    {extendLens : List Int} (h : m.writeExtend rows preLens seqLens extendLens slots = some m') :
    m.SameRows m' := by
  obtain ⟨pool, hpool, h⟩ := Option.bind_eq_some_iff.mp h
  cases Option.some.inj h
  exact ⟨rfl, writeExtendFrom_freeSlots hpool⟩

end Memory

namespace Sched

variable {cfg : Config} {S S' : Sched Memory}

theorem cacheUnfinishedReq_rows {q : Nat} (h : S.cacheUnfinishedReq q = some S') :
    S.mem.SameRows S'.mem := by
  obtain ⟨⟨row, mem⟩, hview, h⟩ := Option.bind_eq_some_iff.mp h
  cases Option.some.inj h
  exact Memory.cacheUnfinishedReq_sameRows hview

theorem freeReqSlot_rows {q : Nat} (h : S.freeReqSlot q = some S') : S.mem.Frees [q] S'.mem := by
  obtain ⟨mem, hfree, h⟩ := Option.bind_eq_some_iff.mp h
  cases Option.some.inj h
  exact Memory.freeReqSlot_frees hfree

theorem cacheFinishedReq_rows {q : Nat} (h : S.cacheFinishedReq q = some S') :
    S.mem.Frees [q] S'.mem ∧ S'.heap = S.heap := by
  obtain ⟨mem, hfree, h⟩ := Option.bind_eq_some_iff.mp h
  cases Option.some.inj h
  exact ⟨Memory.cacheFinishedReq_frees hfree, rfl⟩

theorem mergeIntoRunning_mem {last : ScheduleBatch} (h : S.mergeIntoRunning last = some S') :
    S'.mem = S.mem := by
  unfold mergeIntoRunning at h
  split at h
  next => rw [← Option.some.inj h]
  next =>
    dsimp only at h
    split at h
    next => rw [← Option.some.inj h]; rfl
    next =>
      obtain ⟨_, _, h⟩ := Option.bind_eq_some_iff.mp h
      rw [← Option.some.inj h]
      rfl

/-- A micro-batch whose chunked request has moved on frees nothing when it merges. -/
theorem mergeLastBatch_mem (hmoved : ∀ q, S.stage.beingChunkedReq = some q →
      (S.heap q).ppIdx ≠ some S.cur) (h : S.mergeLastBatch = some S') : S'.mem = S.mem := by
  unfold mergeLastBatch at h
  split at h
  next => rw [Option.some.inj h]
  next last _ =>
    split at h
    next =>
      obtain ⟨⟨S₁, moved⟩, hmove, h⟩ := Option.bind_eq_some_iff.mp h
      refine (mergeIntoRunning_mem h).trans ?_
      change S₁.mem = S.mem
      unfold moveChunkOut at hmove
      split at hmove
      next => obtain ⟨rfl, _⟩ := Prod.mk.inj (Option.some.inj hmove); rfl
      next q hq =>
        obtain ⟨_, _, hmove⟩ := Option.bind_eq_some_iff.mp hmove
        rw [if_neg (hmoved q hq)] at hmove
        obtain ⟨rfl, _⟩ := Prod.mk.inj (Option.some.inj hmove)
        rfl
    next => rw [← Option.some.inj h]; rfl

/-- A micro-batch whose chunked request stays gives the row of that request back when it
merges a prefill batch. -/
theorem mergeLastBatch_frees (hhome : ∀ q, S.stage.beingChunkedReq = some q →
      (S.heap q).ppIdx = some S.cur) (h : S.mergeLastBatch = some S') :
    (∃ last, S.stage.last = some last ∧ last.forwardMode.isExtend = true ∧
        S.mem.Frees S.stage.beingChunkedReq.toList S'.mem) ∨
      ((∀ last, S.stage.last = some last → last.forwardMode.isExtend = false) ∧
        S'.mem = S.mem) := by
  unfold mergeLastBatch at h
  split at h
  next hnone =>
    cases Option.some.inj h
    exact Or.inr ⟨by simp [hnone], rfl⟩
  next last hlast =>
    split at h
    next hmode =>
      obtain ⟨⟨S₁, moved⟩, hmove, h⟩ := Option.bind_eq_some_iff.mp h
      refine Or.inl ⟨last, hlast, hmode, ?_⟩
      rw [mergeIntoRunning_mem h]
      change S.mem.Frees _ S₁.mem
      unfold moveChunkOut at hmove
      split at hmove
      next hnone =>
        obtain ⟨rfl, _⟩ := Prod.mk.inj (Option.some.inj hmove)
        rw [hnone]
        exact .refl _
      next q hq =>
        obtain ⟨_, _, hmove⟩ := Option.bind_eq_some_iff.mp hmove
        rw [if_pos (hhome q hq)] at hmove
        obtain ⟨S₂, hcache, hmove⟩ := Option.bind_eq_some_iff.mp hmove
        obtain ⟨S₃, hfree, hmove⟩ := Option.bind_eq_some_iff.mp hmove
        obtain ⟨rfl, _⟩ := Prod.mk.inj (Option.some.inj hmove)
        rw [hq]
        have hrow := (Memory.frees_nil_iff.mpr (cacheUnfinishedReq_rows hcache)).trans
          (freeReqSlot_rows hfree)
        exact hrow
    next hmode =>
      rw [← Option.some.inj h]
      exact Or.inr ⟨by simpa [hlast] using hmode, rfl⟩

/-- With a single micro-batch there is nothing to fetch. -/
theorem fetchChunkedPrefill_sole (hone : cfg.ppSize = 1)
    (h : S.fetchChunkedPrefill cfg = some S') : S' = S := by
  unfold fetchChunkedPrefill at h
  rw [if_pos hone] at h
  exact (Option.some.inj h).symm

/-- A fetched request gives its row back. -/
theorem fetchChunkedPrefill_rows (hone : cfg.ppSize ≠ 1)
    (h : S.fetchChunkedPrefill cfg = some S') :
    S.mem.Frees (S.stages (cfg.prev S.cur)).beingChunkedReq.toList S'.mem := by
  unfold fetchChunkedPrefill at h
  rw [if_neg hone] at h
  rw [show (S.cur + cfg.ppSize - 1) % cfg.ppSize = cfg.prev S.cur from rfl] at h
  split at h
  next hnone =>
    rw [hnone, ← Option.some.inj h]
    exact .refl _
  next q hsome =>
    obtain ⟨S₁, hcache, h⟩ := Option.bind_eq_some_iff.mp h
    rw [hsome]
    exact (Memory.frees_nil_iff.mpr (cacheUnfinishedReq_rows hcache)).trans (freeReqSlot_rows h)

theorem addWaitingReqs_rows {runningReqs queue : List Nat} {adder adder' : PrefillAdder}
    (h : addWaitingReqs cfg runningReqs queue S adder = (S', adder')) :
    S.mem.SameRows S'.mem := by
  induction queue generalizing S adder with
  | nil =>
    obtain ⟨rfl, _⟩ := Prod.mk.inj h
    exact .refl _
  | cons q queue ih =>
    unfold addWaitingReqs at h
    split at h
    next => obtain ⟨rfl, _⟩ := Prod.mk.inj h; exact .refl _
    next =>
      split at h
      next => obtain ⟨rfl, _⟩ := Prod.mk.inj h; exact .refl _
      next =>
        have hview : S.mem.SameRows (S.initNextRoundInput q).mem := ⟨rfl, rfl⟩
        dsimp only at h
        split at h
        next =>
          have hrest := ih h
          exact hview.trans hrest
        next => obtain ⟨rfl, _⟩ := Prod.mk.inj h; exact hview
        next => obtain ⟨rfl, _⟩ := Prod.mk.inj h; exact hview

theorem selectPrefill_rows {adder : PrefillAdder} (h : S.selectPrefill cfg = some (S', adder)) :
    S.mem.SameRows S'.mem := by
  obtain ⟨⟨S₁, adder₁⟩, hcarried, h⟩ := Option.bind_eq_some_iff.mp h
  obtain ⟨queue, rng, hqueue, _⟩ := calcPriority_spec cfg S
  rw [hqueue] at hcarried
  obtain ⟨_, _, _, hmem, _⟩ := addCarriedChunk_spec hcarried
  have hloop := addWaitingReqs_rows (Option.some.inj h)
  rw [hmem] at hloop
  exact hloop

theorem prepareForDecode_rows {batch out : ScheduleBatch}
    (h : S.prepareForDecode batch = some (S', out)) : S.mem.SameRows S'.mem := by
  obtain ⟨⟨slots, mem⟩, halloc, h⟩ := Option.bind_eq_some_iff.mp h
  obtain ⟨mem', hwrite, h⟩ := Option.bind_eq_some_iff.mp h
  obtain ⟨rfl, _⟩ := Prod.mk.inj (Option.some.inj h)
  exact (Memory.allocTokenSlots_sameRows halloc).trans (Memory.writeDecode_sameRows hwrite)

theorem mixChunk_rows {batch out : ScheduleBatch} (h : S.mixChunk cfg batch = some (S', out)) :
    S.mem.SameRows S'.mem := by
  unfold mixChunk at h
  split at h
  next => obtain ⟨rfl, _⟩ := Prod.mk.inj (Option.some.inj h); exact .refl _
  next =>
    split at h
    next =>
      obtain ⟨filtered, _, h⟩ := Option.bind_eq_some_iff.mp h
      obtain ⟨⟨S₁, mixed⟩, hmixed, h⟩ := Option.bind_eq_some_iff.mp h
      obtain ⟨rfl, _⟩ := Prod.mk.inj (Option.some.inj h)
      change S.mem.SameRows S₁.mem
      unfold mixUnfinished at hmixed
      split at hmixed
      next => obtain ⟨rfl, _⟩ := Prod.mk.inj (Option.some.inj hmixed); exact .refl _
      next =>
        obtain ⟨⟨S₂, decode⟩, hdecode, hmixed⟩ := Option.bind_eq_some_iff.mp hmixed
        obtain ⟨_, _, hmixed⟩ := Option.bind_eq_some_iff.mp hmixed
        obtain ⟨_, _, hmixed⟩ := Option.bind_eq_some_iff.mp hmixed
        obtain ⟨_, _, hmixed⟩ := Option.bind_eq_some_iff.mp hmixed
        obtain ⟨_, _, hmixed⟩ := Option.bind_eq_some_iff.mp hmixed
        obtain ⟨_, _, hmixed⟩ := Option.bind_eq_some_iff.mp hmixed
        obtain ⟨rfl, _⟩ := Prod.mk.inj (Option.some.inj hmixed)
        have hrows := prepareForDecode_rows hdecode
        exact hrows
    next => obtain ⟨rfl, _⟩ := Prod.mk.inj (Option.some.inj h); exact .refl _

/-- The loop of `prepare_for_extend` hands the rows out in order. -/
theorem placeReqs_rows {pairs : List (Nat × Nat)} (h : S.placeReqs pairs = some S')
    (hnodup : (pairs.map Prod.fst).Nodup) :
    S'.mem.reqToTokenPool.freeSlots = S.mem.reqToTokenPool.freeSlots ∧
      (∀ q ∉ pairs.map Prod.fst, S'.mem.reqPoolIdx q = S.mem.reqPoolIdx q) ∧
      (∀ q ∈ pairs.map Prod.fst, (S'.mem.reqPoolIdx q).isSome = true) ∧
      (pairs.map Prod.fst).flatMap S'.mem.rowsOf = pairs.map Prod.snd := by
  induction pairs generalizing S with
  | nil =>
    cases Option.some.inj h
    exact ⟨rfl, fun _ _ => rfl, by simp, rfl⟩
  | cons pair pairs ih =>
    obtain ⟨q, row⟩ := pair
    obtain ⟨S₁, hplace, h⟩ := Option.bind_eq_some_iff.mp h
    rw [List.map_cons, List.nodup_cons] at hnodup
    obtain ⟨hfree, hother, htaken, hrows⟩ := ih h hnodup.2
    unfold placeReq at hplace
    dsimp only at hplace
    split at hplace
    next =>
      cases Option.some.inj hplace
      have hq : S'.mem.reqPoolIdx q = some row := by
        rw [hother q hnodup.1]
        exact Function.update_self ..
      refine ⟨hfree, fun q' hq' => ?_, fun q' hq' => ?_, ?_⟩
      · simp only [List.map_cons, List.mem_cons, not_or] at hq'
        rw [hother q' hq'.2]
        exact Function.update_of_ne hq'.1 _ _
      · rcases eq_or_ne q' q with rfl | hne
        · rw [hq]; rfl
        · exact htaken q' (by simpa [hne] using hq')
      · rw [List.map_cons, List.flatMap_cons, hrows, Memory.rowsOf, hq]
        rfl
    next => simp at hplace

theorem prepareForExtend_rows {reqs : List Nat} {batch : ScheduleBatch} (hnodup : reqs.Nodup)
    (h : S.prepareForExtend reqs = some (S', batch)) : S.mem.Takes reqs S'.mem := by
  obtain ⟨⟨rows, mem⟩, halloc, h⟩ := Option.bind_eq_some_iff.mp h
  obtain ⟨⟨locs, mem'⟩, htokens, h⟩ := Option.bind_eq_some_iff.mp h
  obtain ⟨S₁, hplace, h⟩ := Option.bind_eq_some_iff.mp h
  obtain ⟨mem'', hwrite, h⟩ := Option.bind_eq_some_iff.mp h
  obtain ⟨rfl, _⟩ := Prod.mk.inj (Option.some.inj h)
  have hlen : rows.length = reqs.length := MemoryPools.allocReqSlots_length halloc
  obtain ⟨⟨slots, pool⟩, hpool, halloc⟩ := Option.bind_eq_some_iff.mp halloc
  obtain ⟨rfl, rfl⟩ := Prod.mk.inj (Option.some.inj halloc)
  have hfst : (reqs.zip slots).map Prod.fst = reqs := List.map_fst_zip hlen.ge
  have hsnd : (reqs.zip slots).map Prod.snd = slots := List.map_snd_zip hlen.le
  obtain ⟨hfree, hother, htaken, hrows⟩ := placeReqs_rows hplace (by rwa [hfst])
  rw [hfst] at hother htaken hrows
  have hsame := Memory.allocTokenSlots_sameRows htokens
  have htake : S.mem.Takes reqs S₁.mem := by
    refine ⟨fun q hq => ?_, htaken, ?_⟩
    · rw [hother q hq]
      exact congrFun hsame.reqPoolIdx q
    · rw [hrows, hsnd, hfree]
      exact (ReqToTokenPool.alloc_eq hpool).1.trans (congrArg _ hsame.freeSlots.symm)
  exact htake.trans_sameRows (Memory.writeExtend_sameRows hwrite)

end Sched

end FastPP
