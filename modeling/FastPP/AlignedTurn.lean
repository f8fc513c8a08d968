import FastPP.BatchRows
import FastPP.Selection
import FastPP.SlotSafety

namespace FastPP

namespace Sched

/-- A batch whose rows are those of its requests, but for a chunked request that goes on:
its KV length is that of the chunk, and its token is dropped. -/
def AlignedBut (S : Sched Memory) (chunk : Option Nat) (dispatched : Bool)
    (batch : ScheduleBatch) : Prop :=
  ∃ rows : Rows, batch.AlignedFields S.heap rows ∧
    (∀ q ∈ batch.reqs, chunk ≠ some q → rows.poolIdx q = (S.rows dispatched).poolIdx q ∧
      rows.seqLen q = (S.rows dispatched).seqLen q) ∧
    (dispatched = false → batch.outputIds = some (batch.reqs.map rows.outputId) ∧
      ∀ q ∈ batch.reqs, chunk ≠ some q →
        rows.outputId q = (S.heap q).lastToken ∧ (S.heap q).outputIds ≠ [])

variable {cfg : Config} {complete : Prop} {i : Nat} {flight : Nat → Bool} {S S' : Sched Memory}

theorem AlignedBut.keep {chunk : Option Nat} {dispatched : Bool} {batch : ScheduleBatch}
    (h : S.AlignedBut chunk dispatched batch)
    (hparams : ∀ q ∈ batch.reqs, (S.heap q).SameParams (S'.heap q))
    (hkept : ∀ q ∈ batch.reqs, chunk ≠ some q → RowKept S S' q) :
    S'.AlignedBut chunk dispatched batch := by
  obtain ⟨rows, hfields, hrows, htokens⟩ := h
  refine ⟨rows, hfields.congr hparams (fun _ _ => rfl) fun _ _ => rfl, fun q hq hne => ?_,
    fun hnot => ⟨(htokens hnot).1, fun q hq hne => ?_⟩⟩
  · have hsame := (hkept q hq hne).rows dispatched
    rw [hsame.1, hsame.2.1]
    exact hrows q hq hne
  · have hout := (hkept q hq hne).outputIds
    rw [Req.lastToken, hout]
    exact (htokens hnot).2 q hq hne

/-- Without the chunked request the whole batch is aligned. -/
theorem AlignedBut.alignedAt {chunk : Option Nat} {dispatched : Bool} {batch : ScheduleBatch}
    (h : S.AlignedBut chunk dispatched batch) (hchunk : ∀ q ∈ batch.reqs, chunk ≠ some q) :
    S.AlignedAt dispatched batch := by
  obtain ⟨rows, hfields, hrows, htokens⟩ := h
  refine ⟨hfields.congr (fun _ _ => ⟨rfl, rfl, rfl⟩)
      (fun q hq => (hrows q hq (hchunk q hq)).1.symm)
      fun q hq => (hrows q hq (hchunk q hq)).2.symm, fun hnot => ?_, fun hnot q hq => ?_⟩
  · rw [(htokens hnot).1]
    exact congrArg some (List.map_congr_left fun q hq => ((htokens hnot).2 q hq (hchunk q hq)).1)
  · exact ((htokens hnot).2 q hq (hchunk q hq)).2

/-- Filtering moves the chunked request out of the batch. -/
theorem AlignedBut.filterBatch {q : Nat} {batch out : ScheduleBatch}
    (h : S.AlignedBut (some q) false batch) (hf : batch.filterBatch S.heap (some q) = some out)
    (hne : out.reqs ≠ []) : S.AlignedAt false out := by
  obtain ⟨rows, hfields, hrows, htokens⟩ := h
  have hreqs := ScheduleBatch.filterBatch_reqs hf
  have haligned : batch.Aligned S.heap rows := ⟨hfields, (htokens rfl).1⟩
  have hgather := ScheduleBatch.gather_keepIndices S.heap (some q) batch
  obtain ⟨out', hout, hfiltered⟩ := haligned.filterIndices hgather
  obtain rfl : out = out' := Option.some.inj (hf.symm.trans hout)
  have hout' := hfiltered (hreqs ▸ hne)
  have hmem : ∀ p ∈ out.reqs, p ∈ batch.reqs ∧ some q ≠ some p := by
    intro p hp
    rw [hreqs] at hp
    obtain ⟨hp, hkeeps⟩ := List.mem_filter.mp hp
    refine ⟨hp, fun heq => ?_⟩
    simp [ScheduleBatch.keeps, heq] at hkeeps
  have hbut : S.AlignedBut (some q) false out :=
    ⟨rows, hout'.toAlignedFields, fun p hp => hrows p (hmem p hp).1, fun _ =>
      ⟨hout'.outputIds, fun p hp => (htokens rfl).2 p (hmem p hp).1⟩⟩
  exact hbut.alignedAt fun p hp => (hmem p hp).2

/-- The batches of a micro-batch between its turns; its running batch is dispatched when
it is the last batch in flight. -/
structure StageAligned (S : Sched Memory) (flies : Bool) (stage : Stage) : Prop where
  running : ∀ b, stage.runningBatch = some b → b.reqs ≠ [] →
    S.AlignedAt (flies && decide (stage.lastBatch = .running)) b
  own : ∀ b, stage.lastBatch = .own b → S.AlignedBut stage.beingChunkedReq flies b

theorem StageAligned.keep {flies : Bool} {stage : Stage} (h : S.StageAligned flies stage)
    (hparams : ∀ q ∈ stage.ownReqs, (S.heap q).SameParams (S'.heap q))
    (hkept : ∀ q ∈ stage.settled, RowKept S S' q) : S'.StageAligned flies stage := by
  refine ⟨fun b hb hne => (h.running b hb hne).keep fun q hq => hkept q ?_, fun b hb => ?_⟩
  · rw [Stage.settled, hb]
    exact List.mem_append_left _ hq
  · have hreqs : stage.ownReqs = b.reqs := by rw [Stage.ownReqs, hb]
    refine (h.own b hb).keep (fun q hq => hparams q (hreqs ▸ hq)) fun q hq hne => hkept q ?_
    rw [Stage.settled, hreqs]
    exact List.mem_append_right _ (List.mem_filter.mpr ⟨hq, by simpa using hne⟩)

/-- All batches of the scheduler between two iterations are aligned. -/
structure BatchesKept (cfg : Config) (flight : Nat → Bool) (S : Sched Memory) : Prop where
  pending : ∀ b, S.pendingBatch = some b → b.reqs ≠ [] → S.AlignedAt false b
  stages : ∀ j < cfg.ppSize, S.StageAligned (flight j) (S.stages j)

/-- All batches within the turn of `i` are aligned, between the merge and the next batch. -/
structure BatchesInTurn (cfg : Config) (i : Nat) (flight : Nat → Bool) (S : Sched Memory) :
    Prop where
  pending : ∀ b, S.pendingBatch = some b → b.reqs ≠ [] → S.AlignedAt false b
  running : ∀ b, (S.stages i).runningBatch = some b → b.reqs ≠ [] → S.AlignedAt false b
  others : ∀ j < cfg.ppSize, j ≠ i → S.StageAligned (flight j) (S.stages j)

theorem Arrived.sameParams {q : Nat} (h : Arrived cfg S S' q) (hq : q < S.nextReq) :
    (S.heap q).SameParams (S'.heap q) := by
  rcases h with ⟨_, hS⟩ | ⟨hle, _⟩
  · rw [hS]
    exact ⟨rfl, rfl, rfl⟩
  · omega

theorem Received.rowKept (hr : Received cfg S S') {q : Nat} (hq : q < S.nextReq) :
    RowKept S S' q := by
  refine ⟨(hr.heap q).sameParams hq, ?_, ?_, by rw [hr.mem]⟩
  all_goals
    rcases hr.heap q with ⟨_, hS⟩ | ⟨hle, _⟩
    · rw [hS]
    · omega

theorem Placed.pending_lt (h : Placed complete cfg i flight S) {q : Nat}
    (hq : q ∈ reqsOf S.pendingBatch) : q < S.nextReq := h.once.lt (by simp [places, hq])

/-- The requests of a prefill batch that is not yet merged are known. -/
theorem Placed.own_lt (h : Placed complete cfg i flight S) (hi : i < cfg.ppSize) {j q : Nat}
    (hj : j < cfg.ppSize) (hq : q ∈ (S.stages j).ownReqs) : q < S.nextReq := by
  by_cases hchunk : (S.stages j).beingChunkedReq = some q
  · exact h.fresh j hj q hchunk
  · refine h.settled_lt hi hj ?_
    exact List.mem_append_right _ (List.mem_filter.mpr ⟨hq, by simpa using hchunk⟩)

theorem BatchesKept.receive (hi : i < cfg.ppSize) (h : Placed complete cfg i flight S)
    (hk : BatchesKept cfg flight S) (hr : Received cfg S S') : BatchesKept cfg flight S' := by
  refine ⟨fun b hb hne => ?_, fun j hj => ?_⟩
  · rw [hr.pendingBatch] at hb
    refine (hk.pending b hb hne).keep fun q hq => hr.rowKept (h.pending_lt ?_)
    rw [hb]
    exact hq
  · rw [hr.stages]
    exact (hk.stages j hj).keep (fun q hq => (hr.rowKept (h.own_lt hi hj hq)).params)
      fun q hq => hr.rowKept (h.settled_lt hi hj hq)

/-- Rows depend on the requests and the pools only. -/
theorem RowKept.of_eq (hheap : S'.heap = S.heap) (hmem : S'.mem.reqPoolIdx = S.mem.reqPoolIdx)
    (q : Nat) : RowKept S S' q :=
  ⟨hheap ▸ ⟨rfl, rfl, rfl⟩, by rw [hheap], by rw [hheap], by rw [hmem]⟩

end Sched

namespace Sched

variable {cfg : Config} {complete : Prop} {i : Nat} {flight : Nat → Bool} {S S' : Sched Memory}

theorem moveChunkOut_reqPoolIdx {last out : ScheduleBatch}
    (h : S.moveChunkOut last = some (S', out)) : S'.mem.reqPoolIdx = S.mem.reqPoolIdx := by
  unfold moveChunkOut at h
  split at h
  next => obtain ⟨rfl, _⟩ := Prod.mk.inj (Option.some.inj h); rfl
  next =>
    obtain ⟨_, _, h⟩ := Option.bind_eq_some_iff.mp h
    split at h
    next =>
      obtain ⟨S₁, hcache, h⟩ := Option.bind_eq_some_iff.mp h
      obtain ⟨S₂, hfree, h⟩ := Option.bind_eq_some_iff.mp h
      obtain ⟨rfl, _⟩ := Prod.mk.inj (Option.some.inj h)
      exact (freeReqSlot_rows hfree).reqPoolIdx.trans (cacheUnfinishedReq_rows hcache).reqPoolIdx
    next => obtain ⟨rfl, _⟩ := Prod.mk.inj (Option.some.inj h); rfl

theorem fetchChunkedPrefill_reqPoolIdx (h : S.fetchChunkedPrefill cfg = some S') :
    S'.mem.reqPoolIdx = S.mem.reqPoolIdx := by
  by_cases hone : cfg.ppSize = 1
  · rw [fetchChunkedPrefill_sole hone h]
  · exact (fetchChunkedPrefill_rows hone h).reqPoolIdx

theorem mergeLastBatch_reqPoolIdx (h : S.mergeLastBatch = some S') :
    S'.mem.reqPoolIdx = S.mem.reqPoolIdx := by
  unfold mergeLastBatch at h
  split at h
  next => rw [Option.some.inj h]
  next =>
    split at h
    next =>
      obtain ⟨⟨S₁, moved⟩, hmove, h⟩ := Option.bind_eq_some_iff.mp h
      rw [mergeIntoRunning_mem h]
      change S₁.mem.reqPoolIdx = S.mem.reqPoolIdx
      exact moveChunkOut_reqPoolIdx hmove
    next => rw [← Option.some.inj h]; rfl

/-- The last prefill batch is about to join a running batch that was filtered to nothing
and kept. -/
def MergesIntoEmptied {M : Type} (S : Sched M) : Prop :=
  ∃ running last, S.stage.runningBatch = some running ∧ running.reqs = [] ∧
    S.stage.last = some last ∧ last.forwardMode.isExtend = true ∧ S.joining last ≠ []

instance {M : Type} (S : Sched M) : Decidable S.MergesIntoEmptied :=
  decidable_of_iff ((S.stage.runningBatch.any fun running => running.isEmpty) &&
      S.stage.last.any fun last => last.forwardMode.isExtend && !(S.joining last).isEmpty) (by
    unfold MergesIntoEmptied ScheduleBatch.isEmpty
    cases S.stage.runningBatch <;> cases S.stage.last <;> simp [List.isEmpty_iff])

/-- A batch that joins the running one: both stay aligned unless the running one is empty. -/
theorem mergeIntoRunning_aligned {last : ScheduleBatch} (h : S.mergeIntoRunning last = some S')
    (hlast : last.reqs ≠ [] → S.AlignedAt false last)
    (hrunning : ∀ b, S.stage.runningBatch = some b → b.reqs ≠ [] → S.AlignedAt false b)
    (hempty : last.reqs ≠ [] → ∀ b, S.stage.runningBatch = some b → b.reqs ≠ []) :
    ∀ b, S'.stage.runningBatch = some b → b.reqs ≠ [] → S'.AlignedAt false b := by
  have hkept : ∀ q, RowKept S S' q := by
    obtain ⟨hframe, _⟩ := mergeIntoRunning_spec h
    exact fun q => .of_prepared (hframe.heap q) (by rw [mergeIntoRunning_mem h])
  intro b hb hne
  unfold mergeIntoRunning at h
  split at h
  next =>
    cases Option.some.inj h
    exact hrunning b hb hne
  next hsome =>
    have hlastne : last.reqs ≠ [] := by simpa [ScheduleBatch.isEmpty] using hsome
    have hbump := quiet_bumpOutputLens S last.reqs
    dsimp only at h
    rw [hbump.stage] at h
    split at h
    next hnone =>
      have hS' := Option.some.inj h
      have hstage : S'.stage.runningBatch = some last := by rw [← hS', setStage_stage]
      obtain rfl : last = b := Option.some.inj (hstage.symm.trans hb)
      exact (hlast hne).keep fun q _ => hkept q
    next running hsome =>
      obtain ⟨merged, hmerge, h⟩ := Option.bind_eq_some_iff.mp h
      have hS' := Option.some.inj h
      have hstage : S'.stage.runningBatch = some merged := by rw [← hS', setStage_stage]
      obtain rfl : merged = b := Option.some.inj (hstage.symm.trans hb)
      have hold := hrunning running hsome (hempty hlastne running hsome)
      obtain ⟨out, hout, haligned⟩ := hold.aligned.mergeBatch (hlast hlastne).aligned
      obtain rfl : out = merged := Option.some.inj (hout.symm.trans hmerge)
      have hreqs := (ScheduleBatch.mergeBatch_reqs hmerge).1
      refine (AlignedAt.of_aligned haligned fun q hq => ?_).keep fun q _ => hkept q
      rw [hreqs] at hq
      rcases List.mem_append.mp hq with hq | hq
      · exact hold.started rfl q hq
      · exact (hlast hlastne).started rfl q hq

/-- The batch that is merged is aligned: the chunked request has moved out of it. -/
theorem moveChunkOut_aligned {last out : ScheduleBatch}
    (h : S.moveChunkOut last = some (S', out))
    (hlast : S.AlignedBut S.stage.beingChunkedReq false last) (hne : out.reqs ≠ []) :
    S'.AlignedAt false out := by
  have hframe := (moveChunkOut_spec h).1
  have hkept : ∀ q, RowKept S S' q := fun q =>
    .of_prepared (hframe.heap q) (by rw [moveChunkOut_reqPoolIdx h])
  refine AlignedAt.keep ?_ fun q _ => hkept q
  unfold moveChunkOut at h
  split at h
  next hnone =>
    obtain ⟨_, rfl⟩ := Prod.mk.inj (Option.some.inj h)
    rw [hnone] at hlast
    exact hlast.alignedAt (by simp)
  next q hsome =>
    obtain ⟨filtered, hfilter, h⟩ := Option.bind_eq_some_iff.mp h
    rw [hsome] at hlast
    have hout : filtered = out := by
      split at h
      next =>
        obtain ⟨_, _, h⟩ := Option.bind_eq_some_iff.mp h
        obtain ⟨_, _, h⟩ := Option.bind_eq_some_iff.mp h
        exact (Prod.mk.inj (Option.some.inj h)).2
      next => exact (Prod.mk.inj (Option.some.inj h)).2
    subst hout
    exact hlast.filterBatch hfilter hne

theorem BatchesKept.merge (hi : i < cfg.ppSize) (h : Placed complete cfg i flight S)
    (hk : BatchesKept cfg flight S) (hcur : S.cur = i) (hlanded : flight i = false)
    (hfilled : ¬ S.MergesIntoEmptied) (hm : S.mergeLastBatch = some S') :
    BatchesInTurn cfg i flight S' := by
  have hstage : S.stage = S.stages i := by rw [stage, hcur]
  obtain ⟨hframe, hpending, _⟩ := h.merge_held hi hcur hlanded hm
  have hkept : ∀ q, RowKept S S' q := fun q =>
    .of_prepared (hframe.heap q) (by rw [mergeLastBatch_reqPoolIdx hm])
  have hself := hk.stages i hi
  rw [hlanded] at hself
  have hstage' : S'.stages i = S'.stage := by rw [stage, hframe.cur, hcur]
  refine ⟨fun b hb hne => ?_, ?_, fun j hj hne => ?_⟩
  · exact (hk.pending b (hpending ▸ hb) hne).keep fun q _ => hkept q
  · rw [hstage']
    rcases mergeLastBatch_spec hm with ⟨last, hlast, hmode, _⟩ | ⟨hlast, hquiet⟩
    · have hown : (S.stages i).lastBatch = .own last := by
        rcases h.merge_cases hi hcur hm with ⟨last', hown, _⟩ | ⟨hnil, _⟩
        · rw [hstage, Stage.last, hown] at hlast
          rw [hown, Option.some.inj hlast]
        · rw [hstage, Stage.last] at hlast
          split at hlast
          next => simp at hlast
          next b hb => rw [hb, Option.some.inj hlast]
          next hb =>
            obtain ⟨b, hb, hdecode, _⟩ := (h.stages i hi).aliased hb
            obtain rfl : b = last := Option.some.inj (hb.symm.trans hlast)
            simp [hdecode, ForwardMode.isExtend] at hmode
      unfold mergeLastBatch at hm
      rw [hlast] at hm
      simp only [hmode, if_true] at hm
      obtain ⟨⟨S₁, out⟩, hmove, hm⟩ := Option.bind_eq_some_iff.mp hm
      obtain ⟨hframe₁, _, _, _, hrunning₁, hreqs⟩ := moveChunkOut_spec hmove
      have hkept₁ : ∀ q, RowKept S (S₁.setStage { S₁.stage with lastBatch := .own out }) q :=
        fun q => .of_prepared (hframe₁.heap q) (moveChunkOut_reqPoolIdx hmove ▸ rfl)
      have hbut := hself.own last hown
      rw [← hstage] at hbut
      refine mergeIntoRunning_aligned hm (fun hne => ?_) (fun b hb hne => ?_) fun hne b hb hnil => ?_
      · exact (moveChunkOut_aligned hmove hbut hne).keep fun q _ => ⟨⟨rfl, rfl, rfl⟩, rfl, rfl, rfl⟩
      · rw [setStage_stage, hrunning₁, hstage] at hb
        have hrun := hself.running b hb hne
        exact hrun.keep fun q _ => hkept₁ q
      · rw [setStage_stage, hrunning₁] at hb
        exact hfilled ⟨b, last, hb, hnil, hlast, hmode, hreqs ▸ hne⟩
    · intro b hb hne
      rw [hquiet.stage, hstage] at hb
      have hrun := hself.running b hb hne
      exact hrun.keep fun q _ => hkept q
  · rw [hframe.stages j (hcur ▸ hne)]
    exact (hk.stages j hj).keep (fun q _ => (hkept q).params) fun q _ => hkept q

/-- Rebalancing moves aligned rows. -/
theorem BatchesInTurn.rebalance {tpot : Rat} (hi : i < cfg.ppSize)
    (h : InTurn complete cfg i flight S)
    (hk : BatchesInTurn cfg i flight S) (hr : S.rebalanceIfEnabled cfg tpot = some S') :
    BatchesInTurn cfg i flight S' := by
  unfold rebalanceIfEnabled at hr
  split at hr
  next =>
    obtain ⟨hbatches, hperm⟩ := rebalance_moved hr
    have hframe := hbatches.toFrame
    have hstage : S.stage = S.stages i := by rw [stage, h.cur]
    have hstage' : S'.stage = S'.stages i := by rw [stage, hframe.cur, h.cur]
    obtain ⟨hheap, hmem⟩ : S'.heap = S.heap ∧ S'.mem = S.mem := by
      obtain ⟨_, _, _, rfl, _⟩ := hbatches
      exact ⟨rfl, rfl⟩
    have hrows : S'.rows false = S.rows false := by simp only [Sched.rows, hheap, hmem]
    have hkept : ∀ q, RowKept S S' q := fun q => .of_prepared (hframe.heap q) (by rw [hmem])
    have hbefore : S.BatchesAligned (S.rows false) :=
      ⟨fun b hb hne => (hk.running b (hstage ▸ hb) hne).aligned,
        fun b hb hne => (hk.pending b hb hne).aligned⟩
    have hafter : S'.BatchesAligned (S.rows false) := by
      by_cases hunit : 0 < cfg.brBaseUnit
      · have hpp : 0 < cfg.ppSize := by omega
        obtain ⟨S₁, hS₁, haligned⟩ := rebalance_total tpot hpp hunit hbefore
        rwa [← Option.some.inj (hr.symm.trans hS₁)] at haligned
      · unfold Sched.rebalance at hr
        split at hr
        next =>
          rw [← Option.some.inj hr]
          exact hbefore
        next =>
          obtain ⟨_, _, hr⟩ := Option.bind_eq_some_iff.mp hr
          rw [if_pos (by simp; omega)] at hr
          simp at hr
    have hstarted : ∀ q ∈ reqsOf S'.stage.runningBatch ++ reqsOf S'.pendingBatch,
        (S'.heap q).outputIds ≠ [] := by
      intro q hq
      rw [hheap]
      rcases List.mem_append.mp (hperm.mem_iff.mp hq) with hq | hq
      · have hmem := (List.mem_filter.mp hq).1
        cases hrun : S.stage.runningBatch with
        | none => simp [reqsOf, hrun] at hmem
        | some b =>
          have hin : q ∈ b.reqs := by simpa [reqsOf, hrun] using hmem
          exact (hk.running b (hstage ▸ hrun) (List.ne_nil_of_mem hin)).started rfl q hin
      · cases hpend : S.pendingBatch with
        | none => simp [reqsOf, hpend] at hq
        | some b =>
          have hin : q ∈ b.reqs := by simpa [reqsOf, hpend] using hq
          exact (hk.pending b hpend (List.ne_nil_of_mem hin)).started rfl q hin
    refine ⟨fun b hb hne => ?_, fun b hb hne => ?_, fun j hj hne => ?_⟩
    · refine .of_aligned (hrows ▸ hafter.pending b hb hne) fun q hq => hstarted q ?_
      exact List.mem_append_right _ (by simpa [reqsOf, hb] using hq)
    · rw [← hstage'] at hb
      refine .of_aligned (hrows ▸ hafter.running b hb hne) fun q hq => hstarted q ?_
      exact List.mem_append_left _ (by simpa [reqsOf, hb] using hq)
    · rw [hframe.stages j (h.cur ▸ hne)]
      exact (hk.others j hj hne).keep (fun q _ => (hkept q).params) fun q _ => hkept q
  next =>
    rw [← Option.some.inj hr]
    exact hk

end Sched

end FastPP
