import FastPP.Formation

namespace FastPP

namespace Sched

variable {M : Type}

theorem quiet_bumpOutputLens (S : Sched M) (reqs : List Nat) : Quiet S (S.bumpOutputLens reqs) :=
  quiet_modifyReqs S reqs fun _ => ⟨_, _, _, _, _, _, _, rfl⟩

theorem mergeIntoRunning_spec {S S' : Sched M} {last : ScheduleBatch}
    (h : S.mergeIntoRunning last = some S') :
    Frame S S' ∧ S'.waitingQueue = S.waitingQueue ∧ S'.pendingBatch = S.pendingBatch ∧
      S'.stage.beingChunkedReq = S.stage.beingChunkedReq ∧
      reqsOf S'.stage.runningBatch = reqsOf S.stage.runningBatch ++ last.reqs := by
  unfold mergeIntoRunning at h
  split at h
  next hempty =>
    cases Option.some.inj h
    have hnil : last.reqs = [] := by simpa [ScheduleBatch.isEmpty] using hempty
    exact ⟨.refl S, rfl, rfl, rfl, by simp [hnil]⟩
  next =>
    have hbump := quiet_bumpOutputLens S last.reqs
    dsimp only at h
    rw [hbump.stage] at h
    split at h
    next hnone =>
      cases Option.some.inj h
      exact ⟨hbump.toFrame.trans (frame_setStage _ _), rfl, rfl, by rw [setStage_stage],
        by rw [setStage_stage]; simp [reqsOf, hnone]⟩
    next running hsome =>
      obtain ⟨merged, hmerge, h⟩ := Option.bind_eq_some_iff.mp h
      cases Option.some.inj h
      exact ⟨hbump.toFrame.trans (frame_setStage _ _), rfl, rfl, by rw [setStage_stage],
        by rw [setStage_stage]; simp [reqsOf, hsome, (ScheduleBatch.mergeBatch_reqs hmerge).1]⟩

/-- The requests of a prefill batch that join the running ones. -/
def joining (S : Sched M) (last : ScheduleBatch) : List Nat :=
  match S.stage.beingChunkedReq with
  | none => last.reqs
  | some q => last.reqs.filter (ScheduleBatch.keeps S.heap (some q))

/-- The chunked request stays recorded where it was prefilled last. -/
def chunkLeft (S : Sched M) : Option Nat :=
  S.stage.beingChunkedReq.filter fun q => decide ((S.heap q).ppIdx = some S.cur)

/-- What the merge of a prefill batch into the running batch does. -/
structure Merged (S S' : Sched M) (last : ScheduleBatch) : Prop extends Frame S S' where
  waitingQueue : S'.waitingQueue = S.waitingQueue
  pendingBatch : S'.pendingBatch = S.pendingBatch
  beingChunkedReq : S'.stage.beingChunkedReq = S.chunkLeft
  running : reqsOf S'.stage.runningBatch = reqsOf S.stage.runningBatch ++ S.joining last

variable [MemoryPools M]

theorem quiet_cacheUnfinishedReq {S S' : Sched M} {q : Nat}
    (h : S.cacheUnfinishedReq q = some S') : Quiet S S' := by
  obtain ⟨view, _, h⟩ := Option.bind_eq_some_iff.mp h
  cases Option.some.inj h
  have hprepared : (S.heap q).Prepared { S.heap q with prefixLen := (S.heap q).fillIds.length } :=
    ⟨_, _, _, _, _, _, _, rfl⟩
  exact ⟨⟨rfl, rfl, fun _ _ => rfl, hprepared.update⟩, rfl, rfl, rfl⟩

theorem quiet_freeReqSlot {S S' : Sched M} {q : Nat} (h : S.freeReqSlot q = some S') :
    Quiet S S' := by
  obtain ⟨mem, _, h⟩ := Option.bind_eq_some_iff.mp h
  cases Option.some.inj h
  exact quiet_setMem S mem

theorem moveChunkOut_spec {S S' : Sched M} {last out : ScheduleBatch}
    (h : S.moveChunkOut last = some (S', out)) :
    Frame S S' ∧ S'.waitingQueue = S.waitingQueue ∧ S'.pendingBatch = S.pendingBatch ∧
      S'.stage.beingChunkedReq = S.chunkLeft ∧
      S'.stage.runningBatch = S.stage.runningBatch ∧ out.reqs = S.joining last := by
  unfold moveChunkOut at h
  split at h
  next hnone =>
    obtain ⟨rfl, rfl⟩ := Prod.mk.inj (Option.some.inj h)
    exact ⟨.refl S, rfl, rfl, by simp [chunkLeft, hnone], rfl, by simp [joining, hnone]⟩
  next q hsome =>
    obtain ⟨filtered, hfilter, h⟩ := Option.bind_eq_some_iff.mp h
    have hreqs : filtered.reqs = S.joining last := by
      rw [ScheduleBatch.filterBatch_reqs hfilter, joining, hsome]
    split at h
    next hidx =>
      obtain ⟨S₁, hcache, h⟩ := Option.bind_eq_some_iff.mp h
      obtain ⟨S₂, hfree, h⟩ := Option.bind_eq_some_iff.mp h
      obtain ⟨rfl, rfl⟩ := Prod.mk.inj (Option.some.inj h)
      have hquiet := ((quiet_cacheUnfinishedReq hcache).trans (quiet_freeReqSlot hfree)).trans
        (quiet_setFull S₂ false)
      exact ⟨hquiet.toFrame, hquiet.waitingQueue, hquiet.pendingBatch,
        by rw [hquiet.stage]; simp [chunkLeft, hsome, hidx, Option.filter], by rw [hquiet.stage], hreqs⟩
    next hidx =>
      obtain ⟨rfl, rfl⟩ := Prod.mk.inj (Option.some.inj h)
      exact ⟨frame_setStage S _, rfl, rfl,
        by rw [setStage_stage]; simp [chunkLeft, hsome, hidx, Option.filter], by rw [setStage_stage], hreqs⟩

/-- Only a prefill batch is merged; a decode batch is the running one already. -/
theorem mergeLastBatch_spec {S S' : Sched M} (h : S.mergeLastBatch = some S') :
    (∃ last, S.stage.last = some last ∧ last.forwardMode.isExtend = true ∧ Merged S S' last) ∨
      ((∀ last, S.stage.last = some last → last.forwardMode.isExtend = false) ∧ Quiet S S') := by
  unfold mergeLastBatch at h
  split at h
  next hnone =>
    cases Option.some.inj h
    exact Or.inr ⟨by simp [hnone], .refl S⟩
  next last hlast =>
    split at h
    next hmode =>
      obtain ⟨⟨S₁, moved⟩, hmove, h⟩ := Option.bind_eq_some_iff.mp h
      obtain ⟨hframe, hwaiting, hpending, hchunk, hrunning, hreqs⟩ := moveChunkOut_spec hmove
      obtain ⟨hframe', hwaiting', hpending', hchunk', hrunning'⟩ := mergeIntoRunning_spec h
      rw [setStage_stage] at hchunk' hrunning'
      refine Or.inl ⟨last, hlast, hmode, (hframe.trans (frame_setStage _ _)).trans hframe',
        hwaiting'.trans hwaiting, hpending'.trans hpending, hchunk'.trans hchunk, ?_⟩
      rw [hrunning', hrunning, hreqs]
    next hmode =>
      cases Option.some.inj h
      exact Or.inr ⟨by simpa [hlast] using hmode, quiet_bumpOutputLens S last.reqs⟩

/-- The chunked request after the one of the previous micro-batch was fetched. -/
def fetched (cfg : Config) (S : Sched M) : Option Nat :=
  if cfg.ppSize = 1 then S.stage.beingChunkedReq
  else (S.stages ((S.cur + cfg.ppSize - 1) % cfg.ppSize)).beingChunkedReq.or
    S.stage.beingChunkedReq

structure Fetched (cfg : Config) (S S' : Sched M) : Prop extends Frame S S' where
  waitingQueue : S'.waitingQueue = S.waitingQueue
  pendingBatch : S'.pendingBatch = S.pendingBatch
  stage : S'.stage = { S.stage with beingChunkedReq := S.fetched cfg }

theorem fetchChunkedPrefill_spec {cfg : Config} {S S' : Sched M}
    (h : S.fetchChunkedPrefill cfg = some S') : Fetched cfg S S' := by
  unfold fetchChunkedPrefill at h
  split at h
  next hone =>
    cases Option.some.inj h
    exact ⟨.refl S, rfl, rfl, by simp [fetched, hone]⟩
  next hne =>
    split at h
    next hnone =>
      cases Option.some.inj h
      exact ⟨.refl S, rfl, rfl, by simp [fetched, hne, hnone]⟩
    next q hsome =>
      obtain ⟨S₁, hcache, h⟩ := Option.bind_eq_some_iff.mp h
      have hquiet := (quiet_cacheUnfinishedReq hcache).trans (quiet_freeReqSlot h)
      refine ⟨(frame_setStage S _).trans hquiet.toFrame, hquiet.waitingQueue,
        hquiet.pendingBatch, ?_⟩
      rw [hquiet.stage, setStage_stage]
      simp [fetched, hne, hsome]

end Sched

namespace Sched

variable {M : Type} [MemoryPools M]

/-- A new prefill batch: the fetched chunked request, some waiting requests and perhaps
the unfinished running ones. -/
structure Prefilled (cfg : Config) (S S' : Sched M) (batch : ScheduleBatch)
    (canRunList : List Nat) : Prop where
  curPP : S'.curPP = S.curPP
  nextReq : S'.nextReq = S.nextReq
  stages : ∀ j, j ≠ S.cur → S'.stages j = S.stages j
  pendingBatch : S'.pendingBatch = S.pendingBatch
  waiting : ∃ queue added, queue.Perm S.waitingQueue ∧ added.Sublist queue ∧
    canRunList = (S.fetched cfg).toList ++ added ∧
    S'.waitingQueue = queue.filter (· ∉ canRunList)
  chunk : ∀ q, S'.stage.beingChunkedReq = some q → q ∈ canRunList
  heap : ∀ q, (listed canRunList S'.stage.beingChunkedReq S.cur q (S.heap q)).Prepared (S'.heap q)
  mode : batch.forwardMode.isExtend = true
  reqs : (batch.reqs = canRunList ∧ S'.stage.runningBatch = S.stage.runningBatch) ∨
    (batch.reqs = canRunList ++ S.unfinishedRunning ∧ S'.stage.runningBatch = none)

omit [MemoryPools M] in
theorem Prefilled.isDecode {cfg : Config} {S S' : Sched M} {batch : ScheduleBatch}
    {list : List Nat} (hpre : Prefilled cfg S S' batch list) :
    batch.forwardMode.isDecode = false := by
  have := hpre.mode
  cases hm : batch.forwardMode <;> simp_all [ForwardMode.isExtend, ForwardMode.isDecode]

/-- Without a new batch only the fetched request is recorded, which happens when the
stage is full. -/
structure NotPrefilled (cfg : Config) (S S' : Sched M) : Prop extends Frame S S' where
  waitingQueue : S'.waitingQueue.Perm S.waitingQueue
  pendingBatch : S'.pendingBatch = S.pendingBatch
  stage : S'.stage = { S.stage with beingChunkedReq := S.fetched cfg }
  full : S.fetched cfg = none ∨ cfg.maxRunningRequests ≤ S.runningBs

theorem Listed.prepared {r r' : Req} {list : List Nat} {chunk : Option Nat} {idx q : Nat}
    (h : r.Prepared r') : (listed list chunk idx q r).Prepared (listed list chunk idx q r') := by
  obtain ⟨_, _, _, _, _, _, _, rfl⟩ := h
  exact ⟨_, _, _, _, _, _, _, rfl⟩

/-- The states on the way to a new prefill batch. -/
structure PrefillPhases (cfg : Config) (S fetched selected S' : Sched M) (adder : PrefillAdder)
    (batch : ScheduleBatch) : Prop where
  fetch : S.fetchChunkedPrefill cfg = some fetched
  select : fetched.selectPrefill cfg = some (selected, adder)
  form : selected.formPrefill cfg adder = some (S', some batch)

theorem getNewBatchPrefill_spec {cfg : Config} {S S' : Sched M} {out : Option ScheduleBatch}
    (h : S.getNewBatchPrefill cfg = some (S', out)) :
    (out = none ∧ NotPrefilled cfg S S') ∨
      ∃ batch fetched selected adder, out = some batch ∧
        PrefillPhases cfg S fetched selected S' adder batch ∧
        Prefilled cfg S S' batch adder.canRunList := by
  obtain ⟨S₁, hfetch, h⟩ := Option.bind_eq_some_iff.mp h
  have hfetched := fetchChunkedPrefill_spec hfetch
  have hchunk : S₁.stage.beingChunkedReq = S.fetched cfg := by rw [hfetched.stage]
  have hrunning : S₁.stage.runningBatch = S.stage.runningBatch := by rw [hfetched.stage]
  unfold prefillFetched at h
  split at h
  next hskip =>
    obtain ⟨rfl, rfl⟩ := Prod.mk.inj (Option.some.inj h)
    simp only [Bool.and_eq_true, Option.isNone_iff_eq_none] at hskip
    exact Or.inl ⟨rfl, hfetched.toFrame, by rw [hfetched.waitingQueue], hfetched.pendingBatch,
      hfetched.stage, Or.inl (hchunk ▸ hskip.2)⟩
  next =>
    split at h
    next hfull =>
      obtain ⟨rfl, rfl⟩ := Prod.mk.inj (Option.some.inj h)
      refine Or.inl ⟨rfl, hfetched.toFrame.trans (quiet_setFull S₁ true).toFrame,
        by rw [← hfetched.waitingQueue], hfetched.pendingBatch, hfetched.stage, Or.inr ?_⟩
      rwa [runningBs, hrunning] at hfull
    next =>
      obtain ⟨⟨S₂, adder⟩, hselect, h⟩ := Option.bind_eq_some_iff.mp h
      obtain ⟨hframe, hwaiting, hpending, ⟨chunk, hstage, hkept⟩, added, hsub, hlist, hnew⟩ :=
        selectPrefill_spec hselect
      rw [hchunk] at hkept hlist
      have hqueue : S₂.waitingQueue.Perm S.waitingQueue := hfetched.waitingQueue ▸ hwaiting
      have hunf : S₂.unfinishedRunning = S.unfinishedRunning := by
        unfold unfinishedRunning
        rw [hstage]
        simp only [hrunning]
        exact List.filter_congr fun q _ => by rw [hframe.finished, hfetched.toFrame.finished]
      have hcur : S₂.cur = S.cur := hframe.cur.trans hfetched.toFrame.cur
      rcases formPrefill_spec h with ⟨hnil, rfl, rfl⟩ | ⟨hne, batch, rfl, hformed⟩
      · have hnone : S.fetched cfg = none := by
          rw [hnil] at hlist
          simpa using (List.append_eq_nil_iff.mp hlist.symm).1
        have hboth : chunk = none := by
          rcases hkept with h | h
          · exact h
          · rw [h, hnone]
        refine Or.inl ⟨rfl, hfetched.toFrame.trans hframe, hqueue,
          hpending.trans hfetched.pendingBatch, ?_, Or.inl hnone⟩
        rw [hstage, hfetched.stage, hboth, hnone]
      · refine Or.inr ⟨batch, S₁, S₂, adder, rfl, ⟨hfetch, hselect, h⟩, ?_⟩
        have hstay : S₂.stage.beingChunkedReq = none ∨
            S₂.stage.beingChunkedReq = S.fetched cfg := by
          rw [hstage]
          exact hkept
        exact {
          curPP := hformed.curPP.trans (hframe.curPP.trans hfetched.curPP)
          nextReq := hformed.nextReq.trans (hframe.nextReq.trans hfetched.nextReq)
          stages := fun j hj => (hformed.stages j (hcur ▸ hj)).trans
            ((hframe.stages j (hfetched.toFrame.cur ▸ hj)).trans (hfetched.stages j hj))
          pendingBatch := hformed.pendingBatch.trans (hpending.trans hfetched.pendingBatch)
          waiting := ⟨S₂.waitingQueue, added, hqueue, hsub, hlist, hformed.waitingQueue⟩
          chunk := fun q hq => by
            have hafter := hformed.chunk
            rw [hq] at hafter
            unfold chunkAfter at hafter
            split at hafter
            next =>
              rcases hstay with hnone | hsame
              · rw [hnone] at hafter
                simp at hafter
              · rw [hsame, Option.some.injEq] at hafter
                simp [hlist, hafter]
            next p hp =>
              split at hafter
              next => simp at hafter
              next =>
                obtain rfl : p = q := by simpa using hafter
                rcases hnew with hnone | ⟨r, hr, hsome⟩
                · simp [hnone] at hp
                · obtain rfl : r = p := Option.some.inj (hsome.symm.trans hp)
                  simp [hlist, hr]
          heap := fun q => by
            have hprepared := (hfetched.heap q).trans (hframe.heap q)
            exact hcur ▸ (Listed.prepared hprepared).trans (hformed.heap q)
          mode := hformed.mode
          reqs := by
            rw [← hunf]
            rcases hformed.reqs with ⟨hreqs, hrun⟩ | h'
            · exact Or.inl ⟨hreqs, by rw [hrun, hstage]; exact hrunning⟩
            · exact Or.inr h' }

end Sched

end FastPP
