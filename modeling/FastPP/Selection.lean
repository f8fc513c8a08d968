import FastPP.EventLoop

namespace FastPP

/-- Two states of the pools that hold the same request slots. -/
structure Memory.SameRows (m m' : Memory) : Prop where
  reqPoolIdx : m'.reqPoolIdx = m.reqPoolIdx
  freeSlots : m'.reqToTokenPool.freeSlots = m.reqToTokenPool.freeSlots

theorem Memory.SameRows.refl (m : Memory) : m.SameRows m := ⟨rfl, rfl⟩

theorem Memory.SameRows.trans {m m' m'' : Memory} (h : m.SameRows m') (h' : m'.SameRows m'') :
    m.SameRows m'' :=
  ⟨h'.reqPoolIdx.trans h.reqPoolIdx, h'.freeSlots.trans h.freeSlots⟩

namespace Sched

variable {M : Type}

theorem calcPriority_spec (cfg : Config) (S : Sched M) :
    ∃ queue rng, S.calcPriority cfg = { S with waitingQueue := queue, rng := rng } ∧
      queue.Perm S.waitingQueue := by
  unfold calcPriority
  split
  next => exact ⟨S.waitingQueue, S.rng, rfl, .refl _⟩
  next => exact ⟨S.waitingQueue, S.rng, rfl, .refl _⟩
  next => exact ⟨S.waitingQueue, S.rng, rfl, .refl _⟩
  next => exact ⟨_, S.rng, rfl, List.mergeSort_perm _ _⟩
  next => exact ⟨_, _, rfl, cfg.shuffle_perm _ _⟩

/-- The carried chunked request is listed first and stays recorded only if it was
truncated again. -/
theorem addCarriedChunk_spec {cfg : Config} {S S' : Sched M} {adder adder' : PrefillAdder}
    (h : S.addCarriedChunk cfg adder = some (S', adder')) :
    Frame S S' ∧ S'.waitingQueue = S.waitingQueue ∧ S'.pendingBatch = S.pendingBatch ∧
      S'.mem = S.mem ∧
      (∃ chunk, S'.stage = { S.stage with beingChunkedReq := chunk } ∧
        (chunk = none ∨ chunk = S.stage.beingChunkedReq)) ∧
      adder'.canRunList = adder.canRunList ++ S.stage.beingChunkedReq.toList ∧
      adder'.newBeingChunkedReq = adder.newBeingChunkedReq := by
  unfold addCarriedChunk at h
  split at h
  next hnone =>
    obtain ⟨rfl, rfl⟩ := Prod.mk.inj (Option.some.inj h)
    exact ⟨.refl _, rfl, rfl, rfl, ⟨none, by rw [← hnone], Or.inl rfl⟩, by simp [hnone], rfl⟩
  next q hsome =>
    obtain ⟨added, hadd, h⟩ := Option.bind_eq_some_iff.mp h
    obtain ⟨rfl, rfl⟩ := Prod.mk.inj (Option.some.inj h)
    obtain ⟨hlist, hnew, hprepared⟩ := PrefillAdder.addBeingChunkedReq_spec hadd
    have hframe := frame_setReq ((Req.prepared_initNextRoundInput (S.heap q) none).trans hprepared)
    refine ⟨hframe.trans (frame_setStage _ _), rfl, rfl, rfl, ⟨_, setStage_stage _ _, ?_⟩,
      by simp [hsome, hlist], hnew⟩
    split
    next => exact Or.inr hsome.symm
    next => exact Or.inl rfl

section Loop

variable [MemoryPools M]

theorem quiet_initNextRoundInput (S : Sched M) (q : Nat) : Quiet S (S.initNextRoundInput q) :=
  ⟨⟨rfl, rfl, fun _ _ => rfl, (Req.prepared_initNextRoundInput (S.heap q) _).update⟩, rfl, rfl,
    rfl⟩

/-- The requests listed by the admission loop. -/
def Added (queue : List Nat) (adder adder' : PrefillAdder) : Prop :=
  ∃ added, added.Sublist queue ∧ adder'.canRunList = adder.canRunList ++ added ∧
    (adder'.newBeingChunkedReq = adder.newBeingChunkedReq ∨
      ∃ q ∈ added, adder'.newBeingChunkedReq = some q)

omit [MemoryPools M] in
theorem Added.cons {q : Nat} {queue : List Nat} {adder adder' adder'' : PrefillAdder}
    (h : Added [q] adder adder') (h' : Added queue adder' adder'') :
    Added (q :: queue) adder adder'' := by
  obtain ⟨added, hsub, hlist, hnew⟩ := h
  obtain ⟨more, hsub', hlist', hnew'⟩ := h'
  refine ⟨added ++ more, hsub.append hsub', by rw [hlist', hlist, List.append_assoc], ?_⟩
  rcases hnew' with hsame | ⟨r, hr, hsome⟩
  · rcases hnew with hnew | ⟨r, hr, hsome⟩
    · exact Or.inl (hsame.trans hnew)
    · exact Or.inr ⟨r, by simp [hr], hsame.trans hsome⟩
  · exact Or.inr ⟨r, by simp [hr], hsome⟩

theorem Added.none (queue : List Nat) (adder : PrefillAdder) : Added queue adder adder :=
  ⟨[], List.nil_sublist _, by simp, Or.inl rfl⟩

theorem added_of_admitted {q : Nat} {req : Req} {adder : PrefillAdder}
    {out : AddReqResult × PrefillAdder × Req} (h : PrefillAdder.Admitted adder q req out) :
    Added [q] adder out.2.1 := by
  rcases h.lists with ⟨hlist, hnew⟩ | ⟨hlist, hnew | hnew⟩
  · exact ⟨[], List.nil_sublist _, by simpa using hlist, Or.inl hnew⟩
  · exact ⟨[q], .refl _, hlist, Or.inl hnew⟩
  · exact ⟨[q], .refl _, hlist, Or.inr ⟨q, by simp, hnew⟩⟩

/-- The admission loop lists some of the waiting requests, in their order. -/
theorem addWaitingReqs_spec {cfg : Config} {runningReqs queue : List Nat} {S S' : Sched M}
    {adder adder' : PrefillAdder}
    (h : addWaitingReqs cfg runningReqs queue S adder = (S', adder')) :
    Quiet S S' ∧ Added queue adder adder' := by
  induction queue generalizing S adder with
  | nil =>
    obtain ⟨rfl, rfl⟩ := Prod.mk.inj h
    exact ⟨.refl _, .none _ _⟩
  | cons q queue ih =>
    unfold addWaitingReqs at h
    split at h
    next => obtain ⟨rfl, rfl⟩ := Prod.mk.inj h; exact ⟨quiet_setFull _ _, .none _ _⟩
    next =>
      split at h
      next => obtain ⟨rfl, rfl⟩ := Prod.mk.inj h; exact ⟨quiet_setFull _ _, .none _ _⟩
      next =>
        dsimp only at h
        generalize hout : adder.addOneReq cfg (S.initNextRoundInput q).heap q
          ((S.initNextRoundInput q).heap q) = out at h
        have hadmit := PrefillAdder.addOneReq_admitted cfg (S.initNextRoundInput q).heap adder q
          ((S.initNextRoundInput q).heap q)
        rw [hout] at hadmit
        have hquiet : Quiet S ((S.initNextRoundInput q).setReq q out.2.2) :=
          (quiet_initNextRoundInput S q).trans (quiet_setReq hadmit.prepared)
        have hone := added_of_admitted hadmit
        split at h
        next =>
          obtain ⟨hquiet', hadded⟩ := ih h
          exact ⟨hquiet.trans hquiet', hone.cons hadded⟩
        next =>
          obtain ⟨rfl, rfl⟩ := Prod.mk.inj h
          exact ⟨hquiet.trans (quiet_setFull _ _), hone.cons (.none _ _)⟩
        next =>
          obtain ⟨rfl, rfl⟩ := Prod.mk.inj h
          exact ⟨hquiet, hone.cons (.none _ _)⟩

/-- The `can_run_list`: the carried chunked request and then some waiting ones. -/
structure Selected (S S' : Sched M) (adder : PrefillAdder) : Prop extends Frame S S' where
  waitingQueue : S'.waitingQueue.Perm S.waitingQueue
  pendingBatch : S'.pendingBatch = S.pendingBatch
  stage : ∃ chunk, S'.stage = { S.stage with beingChunkedReq := chunk } ∧
    (chunk = none ∨ chunk = S.stage.beingChunkedReq)
  canRunList : ∃ added, added.Sublist S'.waitingQueue ∧
    adder.canRunList = S.stage.beingChunkedReq.toList ++ added ∧
    (adder.newBeingChunkedReq = none ∨ ∃ q ∈ added, adder.newBeingChunkedReq = some q)

theorem selectPrefill_spec {cfg : Config} {S S' : Sched M} {adder : PrefillAdder}
    (h : S.selectPrefill cfg = some (S', adder)) : Selected S S' adder := by
  obtain ⟨⟨S₁, adder₁⟩, hcarried, h⟩ := Option.bind_eq_some_iff.mp h
  obtain ⟨queue, rng, hqueue, hperm⟩ := calcPriority_spec cfg S
  rw [hqueue] at hcarried h
  obtain ⟨hframe, hwait, hpend, _, ⟨chunk, hstage, hchunk⟩, hlist, hnew⟩ :=
    addCarriedChunk_spec hcarried
  obtain ⟨hquiet, added, hsub, hlist', hnew'⟩ := addWaitingReqs_spec (Option.some.inj h)
  have hfirst : Frame S { S with waitingQueue := queue, rng := rng } :=
    ⟨rfl, rfl, fun _ _ => rfl, fun _ => .refl _⟩
  refine ⟨(hfirst.trans hframe).trans hquiet.toFrame, ?_, ?_, ⟨chunk, ?_, hchunk⟩, added, ?_, ?_, ?_⟩
  · rw [hquiet.waitingQueue, hwait]
    exact hperm
  · rw [hquiet.pendingBatch, hpend]
  · rw [hquiet.stage, hstage]
    rfl
  · rw [hquiet.waitingQueue, hwait]
    exact hsub
  · rw [hlist', hlist]
    rfl
  · simpa [hnew, PrefillAdder.init] using hnew'

end Loop

end Sched

/-- A request that is about to compute all its tokens. -/
def Req.Filled (req : Req) : Prop := req.fillIds = req.originInputIds ++ req.outputIds

theorem Req.filled_initNextRoundInput (req : Req) (matched : Option (Nat → Nat)) :
    (req.initNextRoundInput matched).Filled := rfl

theorem sliceTo_length {α : Type} {values : List α} {stop : Int}
    (h : stop = values.length) : sliceTo values stop = values := by
  rw [h, sliceTo, if_pos (by omega), Int.toNat_natCast, List.take_length]

namespace PrefillAdder

/-- A listed request is whole, or it is the new chunked one and ends the loop. -/
theorem addOneReq_whole {cfg : Config} {heap : Nat → Req} {adder : PrefillAdder} {q : Nat}
    {req : Req} {out : AddReqResult × PrefillAdder × Req}
    (h : adder.addOneReq cfg heap q req = out) :
    (out.2.2 = req ∧ out.2.1.newBeingChunkedReq = adder.newBeingChunkedReq) ∨
      (out.1 ≠ .continue ∧ out.2.1.newBeingChunkedReq = some q) := by
  have hadd : ∀ (adder : PrefillAdder) (whole : Bool),
      let out := addOrTruncate cfg adder q req whole
      (out.2.2 = req ∧ out.2.1.newBeingChunkedReq = adder.newBeingChunkedReq) ∨
        (out.1 ≠ .continue ∧ out.2.1.newBeingChunkedReq = some q) := by
    intro adder whole
    dsimp only
    unfold addOrTruncate
    split
    next => exact Or.inl ⟨rfl, rfl⟩
    next =>
      dsimp only
      split
      next => exact Or.inl ⟨rfl, rfl⟩
      next hpos =>
        refine Or.inr ⟨?_, rfl⟩
        obtain ⟨rem, hrem⟩ : ∃ rem, adder.remChunkTokens = some rem := by
          cases hrem : adder.remChunkTokens with
          | none => simp [hrem] at hpos
          | some rem => exact ⟨rem, rfl⟩
        unfold budgetState
        split
        next => simp
        next => simp [prefillOneReq, hrem]
  rw [← h]
  unfold addOneReq
  split
  next =>
    unfold addOneReqIgnoreEosSafe
    dsimp only
    split
    next => exact Or.inl ⟨rfl, rfl⟩
    next =>
      have hsafe := hadd { adder with reqStates := some (adder.nextReqStates cfg heap req) }
        (adder.remChunkTokens.all (req.extendInputLen ≤ ·))
      exact hsafe
  next =>
    dsimp only
    split
    next => exact Or.inl ⟨rfl, rfl⟩
    next =>
      split
      next => exact Or.inl ⟨rfl, rfl⟩
      next =>
        split
        next => exact Or.inl ⟨rfl, rfl⟩
        next => exact hadd adder _

end PrefillAdder

namespace Sched

variable {M : Type}

/-- The carried chunked request is whole, or it stays recorded. -/
theorem addCarriedChunk_filled {cfg : Config} {S S' : Sched M} {adder adder' : PrefillAdder}
    (h : S.addCarriedChunk cfg adder = some (S', adder')) {q : Nat}
    (hq : S.stage.beingChunkedReq = some q) :
    (S'.heap q).Filled ∨ S'.stage.beingChunkedReq = some q := by
  unfold addCarriedChunk at h
  rw [hq] at h
  obtain ⟨added, hadd, h⟩ := Option.bind_eq_some_iff.mp h
  obtain ⟨rfl, _⟩ := Prod.mk.inj (Option.some.inj h)
  obtain ⟨rem, hrem, hadd⟩ := Option.bind_eq_some_iff.mp hadd
  cases Option.some.inj hadd
  by_cases htruncated : rem < ((S.heap q).initNextRoundInput none).extendInputLen
  · exact Or.inr (by rw [setStage_stage]; simp [htruncated])
  · refine Or.inl ?_
    have hmin : min ((S.heap q).initNextRoundInput none).extendInputLen rem =
        ((S.heap q).initNextRoundInput none).extendInputLen := by omega
    change (Function.update S.heap q _ q).Filled
    rw [Function.update_self, hmin]
    exact sliceTo_length (by simp only [Req.initNextRoundInput]; omega)

variable [MemoryPools M]

/-- The admission loop leaves every listed request whole but for the new chunked one. -/
theorem addWaitingReqs_filled {cfg : Config} {runningReqs queue : List Nat} {S S' : Sched M}
    {adder adder' : PrefillAdder} {chunk : Option Nat}
    (h : addWaitingReqs cfg runningReqs queue S adder = (S', adder'))
    (hnodup : (adder.canRunList ++ queue).Nodup) (hnew : adder.newBeingChunkedReq = none)
    (hold : ∀ q ∈ adder.canRunList, chunk ≠ some q → (S.heap q).Filled) :
    ∀ q ∈ adder'.canRunList, chunk ≠ some q → adder'.newBeingChunkedReq ≠ some q →
      (S'.heap q).Filled := by
  induction queue generalizing S adder with
  | nil =>
    obtain ⟨rfl, rfl⟩ := Prod.mk.inj h
    exact fun q hq hchunk _ => hold q hq hchunk
  | cons p queue ih =>
    unfold addWaitingReqs at h
    split at h
    next => obtain ⟨rfl, rfl⟩ := Prod.mk.inj h; exact fun q hq hchunk _ => hold q hq hchunk
    next =>
      split at h
      next => obtain ⟨rfl, rfl⟩ := Prod.mk.inj h; exact fun q hq hchunk _ => hold q hq hchunk
      next =>
        dsimp only at h
        generalize hout : adder.addOneReq cfg (S.initNextRoundInput p).heap p
          ((S.initNextRoundInput p).heap p) = out at h
        have hlists := (PrefillAdder.addOneReq_admitted cfg (S.initNextRoundInput p).heap adder p
          ((S.initNextRoundInput p).heap p)).lists
        have hwhole := PrefillAdder.addOneReq_whole hout
        rw [hout] at hlists
        have hp : p ∉ adder.canRunList := fun hmem =>
          (List.nodup_append.mp hnodup).2.2 p hmem p (by simp) rfl
        have hother : ∀ q, q ≠ p →
            ((S.initNextRoundInput p).setReq p out.2.2).heap q = S.heap q := fun q hne => by
          simp [setReq, initNextRoundInput, hne]
        have hself : ((S.initNextRoundInput p).setReq p out.2.2).heap p = out.2.2 := by
          simp [setReq]
        have hfilled : ((S.initNextRoundInput p).heap p).Filled := by
          simp only [initNextRoundInput, setReq, Function.update_self]
          exact Req.filled_initNextRoundInput _ _
        have hone : ∀ q ∈ out.2.1.canRunList, chunk ≠ some q →
            out.2.1.newBeingChunkedReq ≠ some q →
            (((S.initNextRoundInput p).setReq p out.2.2).heap q).Filled := by
          intro q hq hchunk hnot
          rcases eq_or_ne q p with rfl | hne
          · rw [hself]
            rcases hwhole with ⟨hreq, _⟩ | ⟨_, hsome⟩
            · rw [hreq]
              exact hfilled
            · exact absurd hsome hnot
          · rw [hother q hne]
            refine hold q ?_ hchunk
            rcases hlists with ⟨hsame, _⟩ | ⟨hmore, _⟩
            · exact hsame ▸ hq
            · rw [hmore] at hq
              simpa [hne] using hq
        split at h
        next hcontinue =>
          rcases hwhole with ⟨_, hsame⟩ | ⟨hstop, _⟩
          · have hnone : out.2.1.newBeingChunkedReq = none := hsame.trans hnew
            refine ih h ?_ hnone fun q hq hchunk => hone q hq hchunk (by simp [hnone])
            rcases hlists with ⟨hsame', _⟩ | ⟨hmore, _⟩
            · rw [hsame']
              exact hnodup.sublist ((List.sublist_cons_self _ _).append_left _)
            · rw [hmore]
              simpa using hnodup
          · exact absurd hcontinue hstop
        next => obtain ⟨rfl, rfl⟩ := Prod.mk.inj h; exact hone
        next => obtain ⟨rfl, rfl⟩ := Prod.mk.inj h; exact hone

/-- A listed request is whole unless it is the carried or the new chunked one. -/
theorem selectPrefill_filled {cfg : Config} {S S' : Sched M} {adder : PrefillAdder}
    (h : S.selectPrefill cfg = some (S', adder))
    (hnodup : (S.stage.beingChunkedReq.toList ++ S.waitingQueue).Nodup) :
    ∀ q ∈ adder.canRunList, S'.stage.beingChunkedReq ≠ some q →
      adder.newBeingChunkedReq ≠ some q → (S'.heap q).Filled := by
  obtain ⟨⟨S₁, adder₁⟩, hcarried, h⟩ := Option.bind_eq_some_iff.mp h
  obtain ⟨queue, rng, hqueue, hperm⟩ := calcPriority_spec cfg S
  rw [hqueue] at hcarried h
  obtain ⟨_, _, _, _, _, hlist, hnew⟩ := addCarriedChunk_spec hcarried
  have hloop := Option.some.inj h
  have hstage := (addWaitingReqs_spec hloop).1.stage
  have hlist' : adder₁.canRunList = S.stage.beingChunkedReq.toList := by
    rw [hlist]
    rfl
  rw [hstage]
  refine addWaitingReqs_filled hloop ?_ (by rw [hnew]; rfl) fun q hq hchunk => ?_
  · rw [hlist']
    exact (hperm.append_left _).nodup_iff.mpr hnodup
  · rw [hlist', Option.mem_toList] at hq
    exact (addCarriedChunk_filled hcarried hq).resolve_right hchunk

end Sched

end FastPP
