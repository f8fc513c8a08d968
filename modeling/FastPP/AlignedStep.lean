import FastPP.AlignedTurn

namespace FastPP

namespace Sched

variable {cfg : Config} {complete : Prop} {i : Nat} {flight : Nat → Bool} {S S' : Sched Memory}

/-- The listed requests were waiting or carried, so no batch has them yet. -/
theorem InTurn.canRunList_new {M : Type} [MemoryPools M] {S fetched selected : Sched M}
    {adder : PrefillAdder} (hi : i < cfg.ppSize) (h : InTurn complete cfg i flight S)
    (hf : S.fetchChunkedPrefill cfg = some fetched)
    (hs : fetched.selectPrefill cfg = some (selected, adder)) :
    (fetched.stage.beingChunkedReq.toList ++ fetched.waitingQueue).Nodup ∧
      adder.canRunList.Nodup ∧
      ∀ q ∈ reqsOf S.pendingBatch ++ (reqsOf (S.stages i).runningBatch ++ S.others cfg i),
        q ∉ adder.canRunList := by
  have hfetched := fetchChunkedPrefill_spec hf
  obtain ⟨_, hwaiting, _, _, added, hsub, hlist, _⟩ := selectPrefill_spec hs
  have hchunk : fetched.stage.beingChunkedReq =
      (S.stages (cfg.prev i)).beingChunkedReq := by rw [hfetched.stage, h.fetched hi]
  have hcount : ∀ q, adder.canRunList.count q ≤
      (S.stages (cfg.prev i)).beingChunkedReq.toList.count q + S.waitingQueue.count q := by
    intro q
    have hle := hsub.count_le q
    rw [hwaiting.count_eq q, hfetched.waitingQueue] at hle
    rw [hlist, List.count_append, hchunk]
    omega
  have honce := fun q => h.once.le_one q
  simp only [turnPlaces, List.count_append] at honce
  refine ⟨List.nodup_iff_count_le_one.mpr fun q => ?_, List.nodup_iff_count_le_one.mpr fun q => ?_,
    fun q hq hmem => ?_⟩
  · rw [hchunk, hfetched.waitingQueue, List.count_append]
    have := honce q
    omega
  · have := honce q
    have := hcount q
    omega
  · have hpos := List.count_pos_iff.mpr hq
    have hlisted := List.count_pos_iff.mpr hmem
    have := honce q
    have := hcount q
    simp only [List.count_append] at hpos
    omega

/-- The state after `prepare_for_extend` of the listed requests. -/
structure Extended (S S' : Sched Memory) (list : List Nat) (chunk : Option Nat)
    (batch : ScheduleBatch) : Prop where
  params : ∀ q, (S.heap q).SameParams (S'.heap q)
  kept : ∀ q ∉ list, RowKept S S' q
  finished : ∀ q, (S'.heap q).finished = (S.heap q).finished
  aligned : S'.PrefillAligned batch
  reqs : batch.reqs = list
  decodingReqs : batch.decodingReqs = none
  mode : batch.forwardMode = .extend
  filled : ∀ q ∈ list, chunk ≠ some q → (S'.heap q).Filled
  running : S'.stage.runningBatch = S.stage.runningBatch
  chunkLeft : S'.stage.beingChunkedReq = chunk

theorem listed_kept (r : Req) (list : List Nat) (chunk : Option Nat) (idx q : Nat) :
    r.SameParams (listed list chunk idx q r) ∧
      (listed list chunk idx q r).originInputIds = r.originInputIds ∧
      (listed list chunk idx q r).outputIds = r.outputIds ∧
      (listed list chunk idx q r).finished = r.finished ∧
      (listed list chunk idx q r).fillIds = r.fillIds := by
  unfold listed
  split <;> split <;> exact ⟨⟨rfl, rfl, rfl⟩, rfl, rfl, rfl, rfl⟩

theorem InTurn.extended {fetched selected formed : Sched Memory} {adder : PrefillAdder}
    {chunk : Option Nat} {batch : ScheduleBatch} (hi : i < cfg.ppSize)
    (h : InTurn complete cfg i flight S)
    (hf : S.fetchChunkedPrefill cfg = some fetched)
    (hs : fetched.selectPrefill cfg = some (selected, adder))
    (hchunk : chunkAfter selected.stage.beingChunkedReq adder.newBeingChunkedReq = some chunk)
    (htops : TopsAgree (selected.takeListed adder.canRunList chunk).heap adder.canRunList)
    (hx : (selected.takeListed adder.canRunList chunk).prepareForExtend adder.canRunList =
      some (formed, batch)) : Extended S formed adder.canRunList chunk batch := by
  obtain ⟨hunique, hnodup, _⟩ := h.canRunList_new hi hf hs
  have hfetched := fetchChunkedPrefill_spec hf
  have hselected := selectPrefill_spec hs
  obtain ⟨chunk', hstage, _⟩ := hselected.stage
  have hrows : selected.mem.reqPoolIdx = S.mem.reqPoolIdx := by
    rw [(selectPrefill_rows hs).reqPoolIdx]
    exact fetchChunkedPrefill_reqPoolIdx hf
  have hbefore : ∀ q, (S.heap q).Prepared (selected.heap q) := fun q =>
    (hfetched.heap q).trans (hselected.heap q)
  obtain ⟨haligned, hreqs, hids, _, hnone, hmode, hfill⟩ :=
    prepareForExtend_aligned hnodup htops hx
  have hquiet := (prepareForExtend_spec hx).1
  rw [takeListed_eq] at hx hquiet hfill
  have htake := prepareForExtend_rows hnodup hx
  have hheap : ∀ q, (listed adder.canRunList chunk selected.cur q (selected.heap q)).Prepared
      (formed.heap q) := fun q => hquiet.heap q
  have hstage' : formed.stage = { selected.stage with beingChunkedReq := chunk } :=
    hquiet.stage.trans (setStage_stage selected { selected.stage with beingChunkedReq := chunk })
  have hparams : ∀ q, (S.heap q).SameParams (formed.heap q) := fun q => by
    have hlisted := (listed_kept (selected.heap q) adder.canRunList chunk selected.cur q).1
    have hafter := (hheap q).sameParams
    have hfirst := (hbefore q).sameParams
    exact ⟨hafter.samplingParams.trans (hlisted.samplingParams.trans hfirst.samplingParams),
      hafter.returnLogprob.trans (hlisted.returnLogprob.trans hfirst.returnLogprob),
      hafter.topLogprobsNum.trans (hlisted.topLogprobsNum.trans hfirst.topLogprobsNum)⟩
  have hkept : ∀ q, (formed.heap q).originInputIds = (S.heap q).originInputIds ∧
      (formed.heap q).outputIds = (S.heap q).outputIds ∧
      (formed.heap q).finished = (S.heap q).finished := fun q => by
    obtain ⟨_, horigin, hout, hfin, _⟩ :=
      listed_kept (selected.heap q) adder.canRunList chunk selected.cur q
    have hfin' := (hheap q).finished
    rw [hfin, (hbefore q).finished] at hfin'
    obtain ⟨_, _, _, _, _, _, _, hafter⟩ := hheap q
    obtain ⟨_, _, _, _, _, _, _, hfirst⟩ := hbefore q
    refine ⟨?_, ?_, hfin'⟩
    · rw [hafter]
      exact horigin.trans (by rw [hfirst])
    · rw [hafter]
      exact hout.trans (by rw [hfirst])
  refine ⟨hparams, fun q hq => ⟨hparams q, (hkept q).1, (hkept q).2.1, ?_⟩, fun q => (hkept q).2.2,
    ⟨haligned, ?_⟩, hreqs, hnone, hmode, fun q hq hne => ?_, ?_, ?_⟩
  · rw [htake.other q hq]
    exact congrFun hrows q
  · rw [hids, hreqs]
    exact congrArg some (List.flatMap_congr fun q _ => by
      simp [inputOf, hmode, hnone, ForwardMode.isDecode])
  · have hwhole := selectPrefill_filled hs hunique q hq
    have hold : (selected.heap q).Filled := by
      refine hwhole (fun hcarried => ?_) fun hnew => ?_
      · rw [hcarried] at hchunk
        unfold chunkAfter at hchunk
        split at hchunk
        next => exact hne (Option.some.inj hchunk).symm
        next => simp at hchunk
      · rw [hnew] at hchunk
        unfold chunkAfter at hchunk
        dsimp only at hchunk
        split at hchunk
        next => simp at hchunk
        next => exact hne (Option.some.inj hchunk).symm
    obtain ⟨_, horigin, hout, _, hfillIds⟩ :=
      listed_kept (selected.heap q) adder.canRunList chunk selected.cur q
    unfold Req.Filled at hold ⊢
    obtain ⟨_, _, _, _, _, _, _, hafter⟩ := hheap q
    have hsame : (formed.heap q).originInputIds = (selected.heap q).originInputIds ∧
        (formed.heap q).outputIds = (selected.heap q).outputIds := by
      rw [hafter]
      exact ⟨horigin, hout⟩
    rw [hsame.1, hsame.2, ← hold, hfill q]
    exact hfillIds
  · rw [hstage', hstage, hfetched.stage]
  · rw [hstage']

end Sched

namespace Sched

section Calls

variable {M : Type} [MemoryPools M]

/-- The batch that `get_new_batch_prefill` passes to `prepare_for_decode` before it is mixed in. -/
def mixCall (cfg : Config) (S : Sched M) (batch : ScheduleBatch) : Option ScheduleBatch := do
  let running ← S.stage.runningBatch
  if cfg.isMixedChunk && !(batch.returnLogprob || running.returnLogprob) then do
    let running ← running.filterBatch S.heap none
    if running.isEmpty then none else some running
  else none

/-- The batch that `update_running_batch` passes to `prepare_for_decode`, with the state. -/
def updateCall (cfg : Config) (S : Sched M) (batch : ScheduleBatch) :
    Option (Sched M × ScheduleBatch) := do
  let filtered ← batch.filterBatch S.heap none
  if filtered.isEmpty then none
  else do
    let checked ← S.retractOrDecay cfg filtered
    pure ({ checked.1 with
      batchIsFull := if checked.2.batchSize < batch.batchSize then false
        else checked.1.batchIsFull }, checked.2)

end Calls

variable {cfg : Config} {complete : Prop} {i : Nat} {flight : Nat → Bool} {S S' : Sched Memory}

theorem mixCall_aligned {batch running : ScheduleBatch}
    (h : S.mixCall cfg batch = some running)
    (ha : ∀ b, S.stage.runningBatch = some b → b.reqs ≠ [] → S.AlignedAt false b) :
    S.AlignedAt false running := by
  obtain ⟨old, hold, h⟩ := Option.bind_eq_some_iff.mp h
  split at h
  next =>
    obtain ⟨filtered, hfilter, h⟩ := Option.bind_eq_some_iff.mp h
    split at h
    next => simp at h
    next hsome =>
      obtain rfl := Option.some.inj h
      have hne : filtered.reqs ≠ [] := by simpa [ScheduleBatch.isEmpty] using hsome
      have hreqs := ScheduleBatch.filterBatch_reqs hfilter
      have holdne : old.reqs ≠ [] := fun hnil => hne (by simp [hreqs, hnil])
      exact (ha old hold holdne).filterBatch hfilter hne
  next => simp at h

/-- Mixing changes the tokens to compute, and no row. -/
theorem mixChunk_filled {batch out : ScheduleBatch} (h : S.mixChunk cfg batch = some (S', out)) :
    (∀ q, (S.heap q).Filled → (S'.heap q).Filled) ∧
      ∀ q ∈ out.reqs, q ∈ batch.reqs ∨ (S'.heap q).Filled := by
  unfold mixChunk at h
  split at h
  next =>
    obtain ⟨rfl, rfl⟩ := Prod.mk.inj (Option.some.inj h)
    exact ⟨fun _ hq => hq, fun _ hq => Or.inl hq⟩
  next =>
    split at h
    next =>
      obtain ⟨filtered, _, h⟩ := Option.bind_eq_some_iff.mp h
      obtain ⟨⟨S₁, mixed⟩, hmixed, h⟩ := Option.bind_eq_some_iff.mp h
      obtain ⟨rfl, rfl⟩ := Prod.mk.inj (Option.some.inj h)
      change (∀ q, (S.heap q).Filled → (S₁.heap q).Filled) ∧
        ∀ q ∈ mixed.reqs, q ∈ batch.reqs ∨ (S₁.heap q).Filled
      unfold mixUnfinished at hmixed
      split at hmixed
      next =>
        obtain ⟨rfl, rfl⟩ := Prod.mk.inj (Option.some.inj hmixed)
        exact ⟨fun _ hq => hq, fun _ hq => Or.inl hq⟩
      next =>
        obtain ⟨⟨S₂, decode⟩, hdecode, hmixed⟩ := Option.bind_eq_some_iff.mp hmixed
        have hreqs := (mixWithRunning_spec hmixed).2.1
        have hheap : S₂.heap = S.heap := by
          obtain ⟨_, _, hdecode⟩ := Option.bind_eq_some_iff.mp hdecode
          obtain ⟨_, _, hdecode⟩ := Option.bind_eq_some_iff.mp hdecode
          obtain ⟨rfl, _⟩ := Prod.mk.inj (Option.some.inj hdecode)
          rfl
        obtain ⟨_, _, hmixed⟩ := Option.bind_eq_some_iff.mp hmixed
        obtain ⟨_, _, hmixed⟩ := Option.bind_eq_some_iff.mp hmixed
        obtain ⟨_, _, hmixed⟩ := Option.bind_eq_some_iff.mp hmixed
        obtain ⟨_, _, hmixed⟩ := Option.bind_eq_some_iff.mp hmixed
        obtain ⟨merged, _, hmixed⟩ := Option.bind_eq_some_iff.mp hmixed
        obtain ⟨rfl, rfl⟩ := Prod.mk.inj (Option.some.inj hmixed)
        have hmix : ∀ q ∈ decode.reqs,
            ((S₂.modifyReqs decode.reqs Req.mixWithRunning).heap q).Filled := fun q hq => by
          simp only [modifyReqs, if_pos hq]
          rfl
        refine ⟨fun q hq => ?_, fun q hq => ?_⟩
        · by_cases hmem : q ∈ decode.reqs
          · exact hmix q hmem
          · simp only [modifyReqs, if_neg hmem, hheap]
            exact hq
        · rw [hreqs] at hq
          exact (List.mem_append.mp hq).imp_right (hmix q)
    next =>
      obtain ⟨rfl, rfl⟩ := Prod.mk.inj (Option.some.inj h)
      exact ⟨fun _ hq => hq, fun _ hq => Or.inl hq⟩

/-- The rows of the listed indices, wherever the batch is not kept whole. -/
theorem AlignedAt.filterListed {indices : List Nat} {batch out : ScheduleBatch}
    (h : S.AlignedAt false batch) (hbound : ∀ i ∈ indices, i < batch.reqs.length)
    (hne : indices ≠ []) (hf : batch.filterIndices S.heap indices = some out) :
    S.AlignedAt false out := by
  by_cases hlen : indices.length = batch.reqs.length
  · unfold ScheduleBatch.filterIndices at hf
    rw [if_neg hne, if_pos hlen] at hf
    exact Option.some.inj hf ▸ h
  · obtain ⟨kept, hkept⟩ := exists_gather hbound
    have hreqs := ScheduleBatch.filterIndices_reqs hkept (fun heq => absurd heq hlen) hf
    refine h.filterIndices hkept hf hreqs fun hnil => hne ?_
    have hlength := gather_length hkept
    rw [hnil] at hlength
    exact List.length_eq_zero_iff.mp hlength.symm

/-- Retraction keeps the rows of the requests that stay. -/
theorem retractOrDecay_aligned {batch out : ScheduleBatch} (hne : batch.reqs ≠ [])
    (ha : S.AlignedAt false batch) (h : S.retractOrDecay cfg batch = some (S', out)) :
    S'.AlignedAt false out ∧ ∀ q, RowKept S S' q := by
  unfold retractOrDecay at h
  split at h
  next =>
    obtain ⟨⟨S₁, left, retracted, ratio⟩, hretract, h⟩ := Option.bind_eq_some_iff.mp h
    obtain ⟨rfl, rfl⟩ := Prod.mk.inj (Option.some.inj h)
    obtain ⟨⟨S₂, retracted', kept⟩, hloop, hretract⟩ := Option.bind_eq_some_iff.mp hretract
    obtain ⟨left', hfilter, hretract⟩ := Option.bind_eq_some_iff.mp hretract
    obtain ⟨_, _, hretract⟩ := Option.bind_eq_some_iff.mp hretract
    obtain ⟨rfl, hpair⟩ := Prod.mk.inj (Option.some.inj hretract)
    obtain ⟨rfl, _⟩ := Prod.mk.inj hpair
    obtain ⟨hquiet, hkept, popped, horder, _⟩ := retractLoop_spec hloop
    have hrow : ∀ q, RowKept S S₂ q := fun q =>
      .of_prepared (hquiet.heap q) (by rw [(retractLoop_rows hloop).reqPoolIdx])
    have hperm := retractOrder_perm S batch
    have horderne : S.retractOrder batch ≠ [] := fun hnil => by
      rw [hnil] at hperm
      have hlength := hperm.length_eq
      rw [List.length_nil, List.length_range] at hlength
      exact hne (List.length_eq_zero_iff.mp hlength.symm)
    have hout := (ha.keep fun q _ => hrow q).filterListed (fun j hj => ?_)
      (fun hnil => hkept horderne (List.reverse_eq_nil_iff.mp hnil)) hfilter
    · exact ⟨hout.keep fun q _ => ⟨⟨rfl, rfl, rfl⟩, rfl, rfl, rfl⟩, fun q =>
      (hrow q).trans ⟨⟨rfl, rfl, rfl⟩, rfl, rfl, rfl⟩⟩
    · have hmem : j ∈ S.retractOrder batch := by
        rw [horder]
        exact List.mem_append_right _ (List.mem_reverse.mp hj)
      exact List.mem_range.mp (hperm.mem_iff.mp hmem)
  next =>
    obtain ⟨rfl, rfl⟩ := Prod.mk.inj (Option.some.inj h)
    exact ⟨ha.keep fun q _ => ⟨⟨rfl, rfl, rfl⟩, rfl, rfl, rfl⟩, fun q => ⟨⟨rfl, rfl, rfl⟩, rfl, rfl, rfl⟩⟩

theorem updateCall_aligned {batch out : ScheduleBatch}
    (h : S.updateCall cfg batch = some (S', out))
    (ha : batch.reqs ≠ [] → S.AlignedAt false batch) :
    S'.AlignedAt false out ∧ ∀ q, RowKept S S' q := by
  obtain ⟨filtered, hfilter, h⟩ := Option.bind_eq_some_iff.mp h
  split at h
  next => simp at h
  next hsome =>
    obtain ⟨⟨S₁, checked⟩, hcheck, h⟩ := Option.bind_eq_some_iff.mp h
    obtain ⟨rfl, rfl⟩ := Prod.mk.inj (Option.some.inj h)
    have hne : filtered.reqs ≠ [] := by simpa [ScheduleBatch.isEmpty] using hsome
    have hreqs := ScheduleBatch.filterBatch_reqs hfilter
    have hbatch : batch.reqs ≠ [] := fun hnil => hne (by simp [hreqs, hnil])
    obtain ⟨hout, hrow⟩ := retractOrDecay_aligned hne ((ha hbatch).filterBatch hfilter hne) hcheck
    exact ⟨hout.keep fun q _ => ⟨⟨rfl, rfl, rfl⟩, rfl, rfl, rfl⟩, fun q =>
      (hrow q).trans ⟨⟨rfl, rfl, rfl⟩, rfl, rfl, rfl⟩⟩

/-- Decoding goes through a call of `prepare_for_decode` or ends the running batch. -/
theorem orDecode_call {M : Type} [MemoryPools M] {S S' : Sched M} {out : Option ScheduleBatch}
    (h : S.orDecode cfg none = some (S', out)) :
    (out = none ∧ S'.heap = S.heap ∧ S'.mem = S.mem) ∨
      ∃ running S₁ checked S₂ decode, S.stage.runningBatch = some running ∧
        S.updateCall cfg running = some (S₁, checked) ∧
        S₁.prepareForDecode checked = some (S₂, decode) ∧ out = some decode ∧
        S'.heap = S₂.heap ∧ S'.mem = S₂.mem := by
  unfold orDecode at h
  split at h
  next hsome => simp at hsome
  next =>
    obtain ⟨rfl, rfl⟩ := Prod.mk.inj (Option.some.inj h)
    exact Or.inl ⟨rfl, rfl, rfl⟩
  next running _ hrun =>
    obtain ⟨⟨S₁, updated⟩, hupdate, h⟩ := Option.bind_eq_some_iff.mp h
    obtain ⟨rfl, rfl⟩ := Prod.mk.inj (Option.some.inj h)
    have hsame : (S₁.replaceRunning updated).heap = S₁.heap ∧
        (S₁.replaceRunning updated).mem = S₁.mem := by
      cases updated <;> exact ⟨rfl, rfl⟩
    obtain ⟨filtered, hfilter, hupdate⟩ := Option.bind_eq_some_iff.mp hupdate
    split at hupdate
    next =>
      obtain ⟨rfl, rfl⟩ := Prod.mk.inj (Option.some.inj hupdate)
      exact Or.inl ⟨rfl, hsame.1, hsame.2⟩
    next hne =>
      obtain ⟨⟨S₂, checked⟩, hcheck, hupdate⟩ := Option.bind_eq_some_iff.mp hupdate
      obtain ⟨⟨S₃, decode⟩, hdecode, hupdate⟩ := Option.bind_eq_some_iff.mp hupdate
      obtain ⟨rfl, rfl⟩ := Prod.mk.inj (Option.some.inj hupdate)
      refine Or.inr ⟨running, _, checked, _, decode, hrun, ?_, hdecode, rfl, hsame.1, hsame.2⟩
      simp [updateCall, hfilter, hne, hcheck]

/-- The running batch that decodes is aligned when it is dispatched. -/
theorem orDecode_aligned {out : Option ScheduleBatch} (h : S.orDecode cfg none = some (S', out))
    (ha : ∀ b, S.stage.runningBatch = some b → b.reqs ≠ [] → S.AlignedAt false b) :
    (∀ q, RowKept S S' q) ∧ ∀ b, out = some b → S'.AlignedAt true b ∧
      b.inputIds = some (b.reqs.map fun q => (S'.heap q).lastToken) := by
  rcases orDecode_call h with ⟨rfl, hheap, hmem⟩ |
    ⟨running, S₁, checked, S₂, decode, hrun, hcall, hdecode, rfl, hheap, hmem⟩
  · exact ⟨.of_eq hheap (by rw [hmem]), by simp⟩
  · obtain ⟨haligned, hrow⟩ := updateCall_aligned hcall (ha running hrun)
    obtain ⟨hdecoded, hids, hheap', hidx⟩ := prepareForDecode_aligned haligned hdecode
    have hlast : ∀ q, RowKept S₂ S' q := .of_eq hheap (by rw [hmem])
    refine ⟨fun q => ((hrow q).trans (.of_eq hheap' hidx q)).trans (hlast q), fun b hb => ?_⟩
    obtain rfl := Option.some.inj hb
    refine ⟨hdecoded.keep fun q _ => hlast q, ?_⟩
    rw [hids, hheap]

/-- Without a new batch no row changes. -/
theorem getNewBatchPrefill_rowKept (h : S.getNewBatchPrefill cfg = some (S', none)) (q : Nat) :
    RowKept S S' q := by
  rcases getNewBatchPrefill_spec h with ⟨_, hnot⟩ | ⟨_, _, _, _, hsome, _⟩
  · refine .of_prepared (hnot.heap q) (congrFun ?_ q)
    obtain ⟨S₁, hfetch, h⟩ := Option.bind_eq_some_iff.mp h
    rw [← fetchChunkedPrefill_reqPoolIdx hfetch]
    unfold prefillFetched at h
    split at h
    next => obtain ⟨rfl, _⟩ := Prod.mk.inj (Option.some.inj h); rfl
    next =>
      split at h
      next => obtain ⟨rfl, _⟩ := Prod.mk.inj (Option.some.inj h); rfl
      next =>
        obtain ⟨⟨S₂, adder⟩, hselect, h⟩ := Option.bind_eq_some_iff.mp h
        rcases formPrefill_spec h with ⟨_, _, rfl⟩ | ⟨_, batch, hsome, _⟩
        · exact (selectPrefill_rows hselect).reqPoolIdx
        · simp at hsome
  · simp at hsome

end Sched

end FastPP
