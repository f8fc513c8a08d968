import FastPP.SlotSafety

namespace FastPP

namespace Memory

/-- Whoever has been given a row still has one. -/
def KeepsRows (m m' : Memory) : Prop :=
  ∀ q, (m.reqPoolIdx q).isSome = true → (m'.reqPoolIdx q).isSome = true

variable {m m' m'' : Memory}

theorem KeepsRows.refl (m : Memory) : m.KeepsRows m := fun _ h => h

theorem KeepsRows.trans (h : m.KeepsRows m') (h' : m'.KeepsRows m'') : m.KeepsRows m'' :=
  fun q hq => h' q (h q hq)

theorem KeepsRows.of_eq (h : m'.reqPoolIdx = m.reqPoolIdx) : m.KeepsRows m' := by
  intro q hq
  rwa [h]

end Memory

namespace Sched

variable {cfg : Config} {S S' : Sched Memory}

section Rows

theorem moveChunkOut_keepsRows {last out : ScheduleBatch}
    (h : S.moveChunkOut last = some (S', out)) : S.mem.KeepsRows S'.mem := by
  unfold moveChunkOut at h
  split at h
  next => obtain ⟨rfl, _⟩ := Prod.mk.inj (Option.some.inj h); exact .refl _
  next q _ =>
    obtain ⟨_, _, h⟩ := Option.bind_eq_some_iff.mp h
    split at h
    next =>
      obtain ⟨S₁, hcache, h⟩ := Option.bind_eq_some_iff.mp h
      obtain ⟨S₂, hfree, h⟩ := Option.bind_eq_some_iff.mp h
      obtain ⟨rfl, _⟩ := Prod.mk.inj (Option.some.inj h)
      have hrows : S.mem.KeepsRows S₂.mem :=
        (Memory.KeepsRows.of_eq (cacheUnfinishedReq_rows hcache).reqPoolIdx).trans
          (.of_eq (freeReqSlot_rows hfree).reqPoolIdx)
      exact hrows
    next => obtain ⟨rfl, _⟩ := Prod.mk.inj (Option.some.inj h); exact .refl _

theorem mergeLastBatch_keepsRows (h : S.mergeLastBatch = some S') : S.mem.KeepsRows S'.mem := by
  unfold mergeLastBatch at h
  split at h
  next => rw [Option.some.inj h]; exact .refl _
  next =>
    split at h
    next =>
      obtain ⟨⟨S₁, moved⟩, hmove, h⟩ := Option.bind_eq_some_iff.mp h
      refine (moveChunkOut_keepsRows hmove).trans ?_
      unfold mergeIntoRunning at h
      split at h
      next => rw [← Option.some.inj h]; exact .refl _
      next =>
        dsimp only at h
        split at h
        next => rw [← Option.some.inj h]; exact .refl _
        next =>
          obtain ⟨_, _, h⟩ := Option.bind_eq_some_iff.mp h
          rw [← Option.some.inj h]
          exact .refl _
    next => rw [← Option.some.inj h]; exact .refl _

theorem fetchChunkedPrefill_keepsRows (h : S.fetchChunkedPrefill cfg = some S') :
    S.mem.KeepsRows S'.mem := by
  by_cases hone : cfg.ppSize = 1
  · unfold fetchChunkedPrefill at h
    rw [if_pos hone] at h
    rw [Option.some.inj h]
    exact .refl _
  · exact .of_eq (fetchChunkedPrefill_rows hone h).reqPoolIdx

/-- The rows that `prepare_for_extend` hands out go to all its requests. -/
theorem placeReqs_keepsRows {pairs : List (Nat × Nat)} (h : S.placeReqs pairs = some S') :
    S.mem.KeepsRows S'.mem ∧
      ∀ q ∈ pairs.map Prod.fst, (S'.mem.reqPoolIdx q).isSome = true := by
  induction pairs generalizing S with
  | nil =>
    cases Option.some.inj h
    exact ⟨.refl _, by simp⟩
  | cons pair pairs ih =>
    obtain ⟨q, row⟩ := pair
    obtain ⟨S₁, hplace, h⟩ := Option.bind_eq_some_iff.mp h
    obtain ⟨hkeep, hgiven⟩ := ih h
    unfold placeReq at hplace
    dsimp only at hplace
    split at hplace
    next =>
      have hmem : S₁.mem.reqPoolIdx = Function.update S.mem.reqPoolIdx q (some row) := by
        rw [← Option.some.inj hplace]
        rfl
      have hfirst : S.mem.KeepsRows S₁.mem := by
        intro q' hq'
        rw [hmem]
        by_cases hne : q' = q
        · rw [hne, Function.update_self]
          rfl
        · rwa [Function.update_of_ne hne]
      refine ⟨hfirst.trans hkeep, ?_⟩
      intro q' hq'
      rcases List.mem_cons.mp hq' with e | e
      · apply hkeep
        rw [e, hmem, Function.update_self]
        rfl
      · exact hgiven q' e
    next => simp at hplace

theorem prepareForExtend_keepsRows {reqs : List Nat} {batch : ScheduleBatch}
    (h : S.prepareForExtend reqs = some (S', batch)) :
    S.mem.KeepsRows S'.mem ∧ ∀ q ∈ reqs, (S'.mem.reqPoolIdx q).isSome = true := by
  obtain ⟨⟨rows, mem⟩, halloc, h⟩ := Option.bind_eq_some_iff.mp h
  obtain ⟨⟨locs, mem'⟩, htokens, h⟩ := Option.bind_eq_some_iff.mp h
  obtain ⟨S₁, hplace, h⟩ := Option.bind_eq_some_iff.mp h
  obtain ⟨mem'', hwrite, h⟩ := Option.bind_eq_some_iff.mp h
  obtain ⟨rfl, _⟩ := Prod.mk.inj (Option.some.inj h)
  have hlen : rows.length = reqs.length := MemoryPools.allocReqSlots_length halloc
  have hrows : mem.reqPoolIdx = S.mem.reqPoolIdx := by
    obtain ⟨_, _, halloc⟩ := Option.bind_eq_some_iff.mp halloc
    rw [← (Prod.mk.inj (Option.some.inj halloc)).2]
  have htoken := (Memory.allocTokenSlots_sameRows htokens).reqPoolIdx
  obtain ⟨hkeep, hgiven⟩ := placeReqs_keepsRows hplace
  have hwritten := Memory.KeepsRows.of_eq (Memory.writeExtend_sameRows hwrite).reqPoolIdx
  have hfirst : S.mem.KeepsRows mem' := .of_eq (htoken.trans hrows)
  refine ⟨(hfirst.trans hkeep).trans hwritten, ?_⟩
  intro q hq
  apply hwritten
  apply hgiven
  rwa [List.map_fst_zip hlen.ge]

/-- A new prefill batch has a row for each request that was listed. -/
theorem getNewBatchPrefill_keepsRows {out : Option ScheduleBatch}
    (h : S.getNewBatchPrefill cfg = some (S', out)) :
    S.mem.KeepsRows S'.mem ∧ ∀ fetched selected adder batch,
      PrefillPhases cfg S fetched selected S' adder batch →
        ∀ q ∈ adder.canRunList, (S'.mem.reqPoolIdx q).isSome = true := by
  have hphases : ∀ {fetched selected adder batch},
      PrefillPhases cfg S fetched selected S' adder batch →
        S.mem.KeepsRows S'.mem ∧ ∀ q ∈ adder.canRunList, (S'.mem.reqPoolIdx q).isSome = true := by
    intro fetched selected adder batch hp
    have hform := hp.form
    unfold formPrefill at hform
    split at hform
    next => simp at hform
    next =>
      obtain ⟨chunk, _, hform⟩ := Option.bind_eq_some_iff.mp hform
      obtain ⟨⟨S₁, b₁⟩, hextend, hform⟩ := Option.bind_eq_some_iff.mp hform
      obtain ⟨⟨S₂, b₂⟩, hmixed, hform⟩ := Option.bind_eq_some_iff.mp hform
      obtain ⟨rfl, _⟩ := Prod.mk.inj (Option.some.inj hform)
      rw [takeListed_eq] at hextend
      obtain ⟨hkeep, hgiven⟩ := prepareForExtend_keepsRows hextend
      have hmix := Memory.KeepsRows.of_eq (mixChunk_rows hmixed).reqPoolIdx
      have hselect := Memory.KeepsRows.of_eq (selectPrefill_rows hp.select).reqPoolIdx
      exact ⟨(((fetchChunkedPrefill_keepsRows hp.fetch).trans hselect).trans hkeep).trans hmix,
        fun q hq => hmix q (hgiven q hq)⟩
  refine ⟨?_, fun _ _ _ _ hp => (hphases hp).2⟩
  rcases getNewBatchPrefill_spec h with ⟨rfl, _⟩ | ⟨_, _, _, _, _, hp, _⟩
  · obtain ⟨S₁, hfetch, h⟩ := Option.bind_eq_some_iff.mp h
    have hrows := fetchChunkedPrefill_keepsRows hfetch
    unfold prefillFetched at h
    split at h
    next => obtain ⟨rfl, _⟩ := Prod.mk.inj (Option.some.inj h); exact hrows
    next =>
      split at h
      next => obtain ⟨rfl, _⟩ := Prod.mk.inj (Option.some.inj h); exact hrows
      next =>
        obtain ⟨⟨S₂, adder⟩, hselect, h⟩ := Option.bind_eq_some_iff.mp h
        rcases formPrefill_spec h with ⟨_, _, rfl⟩ | ⟨_, batch, hsome, _⟩
        · exact hrows.trans (.of_eq (selectPrefill_rows hselect).reqPoolIdx)
        · simp at hsome
  · exact (hphases hp).1

theorem orDecode_keepsRows {newBatch out : Option ScheduleBatch}
    (h : S.orDecode cfg newBatch = some (S', out)) : S.mem.KeepsRows S'.mem := by
  cases newBatch with
  | some batch =>
    unfold orDecode at h
    obtain ⟨rfl, _⟩ := Prod.mk.inj (Option.some.inj h)
    exact .refl _
  | none =>
    obtain ⟨_, _, hrows⟩ := orDecode_rows h
    exact .of_eq hrows.reqPoolIdx

end Rows

section Deliver

/-- Results change requests, entries and pools, and take no row away. -/
def OnlyResults (S S' : Sched Memory) : Prop :=
  ∃ heap entries mem, S' = { S with heap, entries, mem } ∧ mem.reqPoolIdx = S.mem.reqPoolIdx

theorem OnlyResults.refl (S : Sched Memory) : OnlyResults S S := ⟨_, _, _, rfl, rfl⟩

theorem OnlyResults.trans {S'' : Sched Memory} (h : OnlyResults S S') (h' : OnlyResults S' S'') :
    OnlyResults S S'' := by
  obtain ⟨_, _, _, rfl, hrows⟩ := h
  obtain ⟨_, _, _, rfl, hrows'⟩ := h'
  exact ⟨_, _, _, rfl, hrows'.trans hrows⟩

theorem processReqs_onlyResults {process : Sched Memory → Nat → Nat → Option (Sched Memory)}
    (hone : ∀ {S S' : Sched Memory} {q token}, process S q token = some S' → OnlyResults S S')
    {results : List (Nat × Nat)} (h : processReqs process results S = some S') :
    OnlyResults S S' := by
  induction results generalizing S with
  | nil => exact Option.some.inj h ▸ .refl S
  | cons pair rest ih =>
    obtain ⟨q, token⟩ := pair
    obtain ⟨S₁, hfirst, h⟩ := Option.bind_eq_some_iff.mp h
    exact (hone hfirst).trans (ih h)

theorem processPrefillReq_onlyResults {decodingReqs : List Nat} {q token : Nat}
    (h : S.processPrefillReq cfg decodingReqs q token = some S') : OnlyResults S S' := by
  obtain ⟨⟨r, entries, mem, rfl⟩, _, _⟩ := processPrefillReq_spec h
  exact ⟨_, _, _, rfl, (processPrefillReq_rows h).reqPoolIdx⟩

theorem processDecodeReq_onlyResults {q token : Nat}
    (h : S.processDecodeReq cfg q token = some S') : OnlyResults S S' := by
  obtain ⟨⟨r, entries, mem, rfl⟩, _, _⟩ := processDecodeReq_spec h
  exact ⟨_, _, _, rfl, (processDecodeReq_rows h).reqPoolIdx⟩

/-- The second stage has the chunked request and no other requests of the first. -/
structure StageWithin (stage stage' : Stage) : Prop where
  chunk : stage'.beingChunkedReq = stage.beingChunkedReq
  running : reqsOf stage'.runningBatch ⊆ reqsOf stage.runningBatch
  last : reqsOf stage'.last ⊆ reqsOf stage.last

theorem StageWithin.refl (stage : Stage) : StageWithin stage stage :=
  ⟨rfl, List.Subset.refl _, List.Subset.refl _⟩

theorem modifyLast_within (stage : Stage) {f : ScheduleBatch → ScheduleBatch}
    (hf : ∀ b, (f b).reqs = b.reqs) : StageWithin stage (stage.modifyLast f) := by
  obtain ⟨running, last, chunk⟩ := stage
  cases last with
  | idle => exact .refl _
  | own b => exact ⟨rfl, List.Subset.refl _, by simp [Stage.modifyLast, Stage.last, reqsOf, hf]⟩
  | running => cases running <;> constructor <;> simp [Stage.modifyLast, Stage.last, reqsOf, hf]

theorem rebindRunning_within (stage : Stage) : StageWithin stage (stage.rebindRunning none) := by
  obtain ⟨running, last, chunk⟩ := stage
  refine ⟨Stage.rebindRunning_beingChunkedReq _ _, by simp [reqsOf], ?_⟩
  cases last with
  | idle => exact List.Subset.refl _
  | own b => exact List.Subset.refl _
  | running => cases running <;> exact List.Subset.refl _

theorem StageWithin.trans {stage stage' stage'' : Stage} (h : StageWithin stage stage')
    (h' : StageWithin stage' stage'') : StageWithin stage stage'' :=
  ⟨h'.chunk.trans h.chunk, List.Subset.trans h'.running h.running,
    List.Subset.trans h'.last h.last⟩

/-- The arrival of a result brings no request into a batch. -/
theorem deliver_within {idx : Nat} {batch : ScheduleBatch} {nextTokenIds : List Nat}
    (h : S.deliver cfg idx batch nextTokenIds = some S') :
    S'.mem.reqPoolIdx = S.mem.reqPoolIdx ∧ S'.pendingBatch = S.pendingBatch ∧
      ∀ j, StageWithin (S.stages j) (S'.stages j) := by
  have hupdated : ∀ j, StageWithin (S.stages j) (Function.update S.stages idx
      ((S.stages idx).modifyLast fun b => { b with
        outputIds := some nextTokenIds }) j) := by
    intro j
    by_cases hj : j = idx
    · rw [hj, Function.update_self]
      exact modifyLast_within _ fun _ => rfl
    · rw [Function.update_of_ne hj]
      exact .refl _
  unfold deliver processBatchResult at h
  dsimp only at h
  split at h
  next =>
    obtain ⟨S₁, hprocess, h⟩ := Option.bind_eq_some_iff.mp h
    obtain ⟨heap, entries, mem, rfl, hrows⟩ :=
      processReqs_onlyResults processDecodeReq_onlyResults hprocess
    rw [← Option.some.inj h]
    split
    next =>
      refine ⟨hrows, rfl, fun j => ?_⟩
      refine (hupdated j).trans ?_
      by_cases hj : j = S.cur
      · subst hj
        simp only [setRunningBatch, setStage, stage, Sched.cur, Function.update_self]
        exact rebindRunning_within _
      · rw [show ∀ T : Sched Memory, T.curPP = S.curPP → (T.setRunningBatch none).stages j =
          T.stages j from fun T hT => Function.update_of_ne (by rwa [Sched.cur, hT]) _ _]
        · exact .refl _
        · rfl
    next => exact ⟨hrows, rfl, hupdated⟩
  next =>
    obtain ⟨heap, entries, mem, rfl, hrows⟩ :=
      processReqs_onlyResults processPrefillReq_onlyResults h
    exact ⟨hrows, rfl, hupdated⟩

end Deliver

/-- Each request in a batch or recorded as being chunked has been given a row; `late` tells
which last batches count. -/
structure Rowed (late : Nat → Prop) (S : Sched Memory) : Prop where
  pending : ∀ q ∈ reqsOf S.pendingBatch, (S.mem.reqPoolIdx q).isSome = true
  running : ∀ j, ∀ q ∈ reqsOf (S.stages j).runningBatch, (S.mem.reqPoolIdx q).isSome = true
  chunk : ∀ j q, (S.stages j).beingChunkedReq = some q → (S.mem.reqPoolIdx q).isSome = true
  last : ∀ j, late j → ∀ q ∈ reqsOf (S.stages j).last, (S.mem.reqPoolIdx q).isSome = true

section Turn

variable {late : Nat → Prop}

/-- A step of the current micro-batch keeps the invariant if what it puts there has rows. -/
theorem Rowed.turn (h : Rowed late S) (hlate : ∀ j, j ≠ S.cur → late j)
    (hcur : S'.cur = S.cur) (hothers : ∀ j, j ≠ S.cur → S'.stages j = S.stages j)
    (hkeep : S.mem.KeepsRows S'.mem)
    (hpending : ∀ q ∈ reqsOf S'.pendingBatch, (S'.mem.reqPoolIdx q).isSome = true)
    (hrunning : ∀ q ∈ reqsOf S'.stage.runningBatch, (S'.mem.reqPoolIdx q).isSome = true)
    (hchunk : ∀ q, S'.stage.beingChunkedReq = some q → (S'.mem.reqPoolIdx q).isSome = true) :
    Rowed (· ≠ S'.cur) S' := by
  have hstage : S'.stages S.cur = S'.stage := by rw [stage, hcur]
  refine ⟨hpending, ?_, ?_, ?_⟩
  · intro j q hq
    by_cases hj : j = S.cur
    · rw [hj, hstage] at hq
      exact hrunning q hq
    · rw [hothers j hj] at hq
      exact hkeep q (h.running j q hq)
  · intro j q hq
    by_cases hj : j = S.cur
    · rw [hj, hstage] at hq
      exact hchunk q hq
    · rw [hothers j hj] at hq
      exact hkeep q (h.chunk j q hq)
  · intro j hj q hq
    rw [hcur] at hj
    rw [hothers j hj] at hq
    exact hkeep q (h.last j (hlate j hj) q hq)

theorem Rowed.merge (h : Rowed (fun _ => True) S) (hm : S.mergeLastBatch = some S') :
    Rowed (· ≠ S'.cur) S' := by
  have hkeep := mergeLastBatch_keepsRows hm
  rcases mergeLastBatch_spec hm with ⟨last, hlast, _, hmerged⟩ | ⟨_, hquiet⟩
  · refine h.turn (fun _ _ => trivial) hmerged.cur hmerged.stages hkeep ?_ ?_ ?_
    · intro q hq
      rw [hmerged.pendingBatch] at hq
      exact hkeep q (h.pending q hq)
    · intro q hq
      rw [hmerged.running, List.mem_append] at hq
      rcases hq with e | e
      · exact hkeep q (h.running _ q e)
      · apply hkeep
        apply h.last S.cur trivial
        rw [← stage, hlast]
        unfold joining at e
        split at e
        next => exact e
        next => exact (List.mem_filter.mp e).1
    · intro q hq
      rw [hmerged.beingChunkedReq] at hq
      exact hkeep q (h.chunk _ q (Option.filter_eq_some_iff.mp hq).1)
  · refine h.turn (fun _ _ => trivial) hquiet.cur hquiet.stages hkeep ?_ ?_ ?_
    · intro q hq
      rw [hquiet.pendingBatch] at hq
      exact hkeep q (h.pending q hq)
    · intro q hq
      rw [hquiet.stage] at hq
      exact hkeep q (h.running _ q hq)
    · intro q hq
      rw [hquiet.stage] at hq
      exact hkeep q (h.chunk _ q hq)

theorem Rowed.rebalance {tpot : Rat} (h : Rowed (· ≠ S.cur) S)
    (hr : S.rebalanceIfEnabled cfg tpot = some S') : Rowed (· ≠ S'.cur) S' := by
  unfold rebalanceIfEnabled at hr
  split at hr
  next =>
    obtain ⟨hbatches, hperm⟩ := rebalance_moved hr
    have hmem : S'.mem = S.mem := by
      obtain ⟨_, _, _, rfl, _⟩ := hbatches
      rfl
    have hin : ∀ q ∈ reqsOf S'.stage.runningBatch ++ reqsOf S'.pendingBatch,
        (S'.mem.reqPoolIdx q).isSome = true := by
      intro q hq
      rw [hmem]
      rcases List.mem_append.mp (hperm.mem_iff.mp hq) with e | e
      · exact h.running _ q (List.mem_filter.mp e).1
      · exact h.pending q e
    have hframe := hbatches.toFrame
    refine h.turn (fun _ hj => hj) hframe.cur hframe.stages (.of_eq (by rw [hmem]))
      (fun q hq => hin q (List.mem_append_right _ hq))
      (fun q hq => hin q (List.mem_append_left _ hq)) ?_
    intro q hq
    obtain ⟨stage, pending, full, rfl, hchunk⟩ := hbatches
    rw [show ({ S.setStage stage with pendingBatch := pending, batchIsFull := full } :
      Sched Memory).stage = (S.setStage stage).stage from rfl, setStage_stage, hchunk] at hq
    exact h.chunk _ q hq
  next => exact Option.some.inj hr ▸ h

theorem fetched_rowed (h : Rowed late S) {q : Nat} (hq : S.fetched cfg = some q) :
    (S.mem.reqPoolIdx q).isSome = true := by
  unfold fetched at hq
  split at hq
  next => exact h.chunk _ q hq
  next =>
    rcases Option.or_eq_some_iff.mp hq with e | ⟨_, e⟩
    · exact h.chunk _ q e
    · exact h.chunk _ q e

theorem Rowed.prefill {newBatch : Option ScheduleBatch} (h : Rowed (· ≠ S.cur) S)
    (hp : S.getNewBatchPrefill cfg = some (S', newBatch)) :
    Rowed (· ≠ S'.cur) S' ∧
      ∀ q ∈ reqsOf newBatch, (S'.mem.reqPoolIdx q).isSome = true := by
  obtain ⟨hkeep, hgiven⟩ := getNewBatchPrefill_keepsRows hp
  rcases getNewBatchPrefill_spec hp with
    ⟨rfl, hnot⟩ | ⟨batch, _, _, adder, rfl, hphases, hpre⟩
  · refine ⟨h.turn (fun _ hj => hj) hnot.toFrame.cur hnot.stages hkeep ?_ ?_ ?_, by simp [reqsOf]⟩
    · intro q hq
      rw [hnot.pendingBatch] at hq
      exact hkeep q (h.pending q hq)
    · intro q hq
      rw [hnot.stage] at hq
      exact hkeep q (h.running _ q hq)
    · intro q hq
      rw [hnot.stage] at hq
      exact hkeep q (fetched_rowed h hq)
  · have hlist := hgiven _ _ _ _ hphases
    have hcur : S'.cur = S.cur := by rw [Sched.cur, hpre.curPP, Sched.cur]
    constructor
    · refine h.turn (fun _ hj => hj) hcur hpre.stages hkeep ?_ ?_ ?_
      · intro q hq
        rw [hpre.pendingBatch] at hq
        exact hkeep q (h.pending q hq)
      · intro q hq
        rcases hpre.reqs with ⟨_, hsame⟩ | ⟨_, hnone⟩
        · rw [hsame] at hq
          exact hkeep q (h.running _ q hq)
        · rw [hnone] at hq
          simp [reqsOf] at hq
      · exact fun q hq => hlist q (hpre.chunk q hq)
    · intro q hq
      have hq' : q ∈ batch.reqs := hq
      rcases hpre.reqs with ⟨hreqs, _⟩ | ⟨hreqs, _⟩
      · exact hlist q (hreqs ▸ hq')
      · rw [hreqs, List.mem_append] at hq'
        rcases hq' with e | e
        · exact hlist q e
        · exact hkeep q (h.running _ q (List.mem_filter.mp e).1)

theorem Rowed.decode {newBatch out : Option ScheduleBatch} (h : Rowed (· ≠ S.cur) S)
    (hnew : ∀ q ∈ reqsOf newBatch, (S.mem.reqPoolIdx q).isSome = true)
    (hd : S.orDecode cfg newBatch = some (S', out)) :
    Rowed (· ≠ S'.cur) S' ∧ ∀ q ∈ reqsOf out, (S'.mem.reqPoolIdx q).isSome = true := by
  have hkeep := orDecode_keepsRows hd
  rcases orDecode_spec hd with ⟨_, rfl, rfl⟩ | ⟨_, hdecoded⟩
  · exact ⟨h, hnew⟩
  · obtain ⟨retracted, _, hperm⟩ := hdecoded.retracted
    have hout : ∀ q ∈ reqsOf out, (S'.mem.reqPoolIdx q).isSome = true := by
      intro q hq
      have hmem := hperm.mem_iff.mp (List.mem_append_left _ hq)
      exact hkeep q (h.running _ q (List.mem_filter.mp hmem).1)
    refine ⟨h.turn (fun _ hj => hj) hdecoded.cur hdecoded.stages hkeep ?_ ?_ ?_, hout⟩
    · intro q hq
      rw [hdecoded.pendingBatch] at hq
      exact hkeep q (h.pending q hq)
    · intro q hq
      rw [hdecoded.running] at hq
      exact hout q hq
    · intro q hq
      rw [hdecoded.beingChunkedReq] at hq
      exact hkeep q (h.chunk _ q hq)

theorem Rowed.setLast {out : Option ScheduleBatch} (h : Rowed (· ≠ S.cur) S)
    (hout : ∀ q ∈ reqsOf out, (S.mem.reqPoolIdx q).isSome = true) :
    Rowed (fun _ => True) (S.setLastBatch out) := by
  obtain ⟨hothers, hstage⟩ := setLastBatch_stages S out
  refine ⟨h.pending, ?_, ?_, ?_⟩
  · intro j q hq
    by_cases hj : j = S.cur
    · rw [hj, hstage] at hq
      exact h.running S.cur q hq
    · rw [hothers j hj] at hq
      exact h.running j q hq
  · intro j q hq
    by_cases hj : j = S.cur
    · rw [hj, hstage] at hq
      exact h.chunk S.cur q hq
    · rw [hothers j hj] at hq
      exact h.chunk j q hq
  · intro j _ q hq
    by_cases hj : j = S.cur
    · rw [hj, hstage] at hq
      cases out with
      | none => simp [Stage.last, reqsOf] at hq
      | some b =>
        by_cases hmode : b.forwardMode.isDecode = true
        · simp only [hmode, if_true, Stage.last] at hq
          exact h.running S.cur q hq
        · simp only [hmode, Bool.false_eq_true, if_false, Stage.last] at hq
          exact hout q hq
    · rw [hothers j hj] at hq
      exact h.last j hj q hq

theorem Rowed.finish {sample : Nat → Nat} {out : Option ScheduleBatch} (h : Rowed (· ≠ S.cur) S)
    (hout : ∀ q ∈ reqsOf out, (S.mem.reqPoolIdx q).isSome = true)
    (hf : S.finishStep cfg sample out = some S') : Rowed (fun _ => True) S' := by
  have hset := h.setLast hout
  rcases finishStep_cases hf with ⟨_, _, _, _, hd⟩ | ⟨_, ratio, rfl⟩
  · obtain ⟨hrows, hpending, hstages⟩ := deliver_within hd
    refine ⟨?_, ?_, ?_, ?_⟩
    · rw [hpending, hrows]
      exact hset.pending
    · intro j q hq
      rw [hrows]
      exact hset.running j q ((hstages j).running hq)
    · intro j q hq
      rw [hrows]
      exact hset.chunk j q ((hstages j).chunk ▸ hq)
    · intro j hj q hq
      rw [hrows]
      exact hset.last j hj q ((hstages j).last hq)
  · exact ⟨hset.pending, hset.running, hset.chunk, hset.last⟩

/-- An iteration from the state in which its messages have been handled. -/
theorem Rowed.schedule {tpot : Rat} {sample : Nat → Nat} {formed : Sched Memory}
    {out : Option ScheduleBatch} (h : Rowed (fun _ => True) S)
    (hn : S.getNextBatchToRun cfg tpot = some (formed, out))
    (hf : formed.finishStep cfg sample out = some S') : Rowed (fun _ => True) S' := by
  obtain ⟨merged, hmerge, hn⟩ := Option.bind_eq_some_iff.mp hn
  obtain ⟨balanced, hbalance, hn⟩ := Option.bind_eq_some_iff.mp hn
  obtain ⟨⟨prefilled, newBatch⟩, hprefill, hdecode⟩ := Option.bind_eq_some_iff.mp hn
  obtain ⟨hp, hnew⟩ := ((h.merge hmerge).rebalance hbalance).prefill hprefill
  obtain ⟨hd, hout⟩ := hp.decode hnew hdecode
  exact hd.finish hout hf

end Turn

end Sched

end FastPP
