import FastPP.Selection
import Mathlib.Data.List.Perm.Basic

namespace FastPP

namespace Sched

variable {M : Type} [MemoryPools M]

theorem placeReq_quiet {S S' : Sched M} {q row : Nat} (h : S.placeReq q row = some S') :
    Quiet S S' := by
  unfold placeReq at h
  dsimp only at h
  split at h
  next =>
    cases Option.some.inj h
    exact (quiet_setReq (Req.prepared_prepareForExtend _)).trans (quiet_setMem _ _)
  next => simp at h

theorem placeReqs_quiet {S S' : Sched M} {rows : List (Nat × Nat)}
    (h : S.placeReqs rows = some S') : Quiet S S' := by
  induction rows generalizing S with
  | nil => cases Option.some.inj h; exact .refl _
  | cons row rows ih =>
    obtain ⟨S₁, hplace, h⟩ := Option.bind_eq_some_iff.mp h
    exact (placeReq_quiet hplace).trans (ih h)

theorem prepareForExtend_spec {S S' : Sched M} {reqs : List Nat} {batch : ScheduleBatch}
    (h : S.prepareForExtend reqs = some (S', batch)) :
    Quiet S S' ∧ batch.reqs = reqs ∧ batch.forwardMode = .extend := by
  obtain ⟨slots, _, h⟩ := Option.bind_eq_some_iff.mp h
  obtain ⟨locs, _, h⟩ := Option.bind_eq_some_iff.mp h
  obtain ⟨S₁, hplace, h⟩ := Option.bind_eq_some_iff.mp h
  obtain ⟨mem, _, h⟩ := Option.bind_eq_some_iff.mp h
  obtain ⟨rfl, rfl⟩ := Prod.mk.inj (Option.some.inj h)
  exact ⟨((quiet_setMem S _).trans (placeReqs_quiet hplace)).trans (quiet_setMem _ _), rfl, rfl⟩

theorem prepareForDecode_spec {S S' : Sched M} {batch out : ScheduleBatch}
    (h : S.prepareForDecode batch = some (S', out)) :
    Quiet S S' ∧ out.reqs = batch.reqs ∧ out.forwardMode = .decode := by
  obtain ⟨locs, _, h⟩ := Option.bind_eq_some_iff.mp h
  obtain ⟨mem, _, h⟩ := Option.bind_eq_some_iff.mp h
  obtain ⟨rfl, rfl⟩ := Prod.mk.inj (Option.some.inj h)
  exact ⟨quiet_setMem S _, rfl, rfl⟩

omit [MemoryPools M] in
theorem mixWithRunning_spec {S S' : Sched M} {batch running out : ScheduleBatch}
    (h : S.mixWithRunning batch running = some (S', out)) :
    Quiet S S' ∧ out.reqs = batch.reqs ++ running.reqs ∧ out.forwardMode = .mixed := by
  obtain ⟨_, _, h⟩ := Option.bind_eq_some_iff.mp h
  obtain ⟨_, _, h⟩ := Option.bind_eq_some_iff.mp h
  obtain ⟨_, _, h⟩ := Option.bind_eq_some_iff.mp h
  obtain ⟨_, _, h⟩ := Option.bind_eq_some_iff.mp h
  obtain ⟨merged, hmerge, h⟩ := Option.bind_eq_some_iff.mp h
  obtain ⟨rfl, rfl⟩ := Prod.mk.inj (Option.some.inj h)
  exact ⟨quiet_modifyReqs S _ Req.prepared_mixWithRunning,
    (ScheduleBatch.mergeBatch_reqs hmerge).1, rfl⟩

theorem mixUnfinished_spec {S S' : Sched M} {batch running out : ScheduleBatch}
    (hmode : batch.forwardMode.isExtend = true)
    (h : S.mixUnfinished batch running = some (S', out)) :
    Quiet S S' ∧ out.reqs = batch.reqs ++ running.reqs ∧ out.forwardMode.isExtend = true := by
  unfold mixUnfinished at h
  split at h
  next he =>
    obtain ⟨rfl, rfl⟩ := Prod.mk.inj (Option.some.inj h)
    have hnil : running.reqs = [] := by simpa [ScheduleBatch.isEmpty] using he
    exact ⟨.refl _, by simp [hnil], hmode⟩
  next =>
    obtain ⟨⟨S₁, decode⟩, hdecode, h⟩ := Option.bind_eq_some_iff.mp h
    obtain ⟨hquiet, hreqs, _⟩ := prepareForDecode_spec hdecode
    obtain ⟨hquiet', hreqs', hmixed⟩ := mixWithRunning_spec h
    exact ⟨hquiet.trans hquiet', by rw [hreqs', hreqs], by rw [hmixed]; rfl⟩

omit [MemoryPools M] in
theorem frame_setRunningBatch (S : Sched M) (batch : Option ScheduleBatch) :
    Frame S (S.setRunningBatch batch) := frame_setStage S _

/-- The running requests join the new batch, all unfinished ones, or stay behind. -/
structure Mixed (S S' : Sched M) (batch out : ScheduleBatch) : Prop extends Frame S S' where
  waitingQueue : S'.waitingQueue = S.waitingQueue
  pendingBatch : S'.pendingBatch = S.pendingBatch
  beingChunkedReq : S'.stage.beingChunkedReq = S.stage.beingChunkedReq
  mode : out.forwardMode.isExtend = true
  reqs : (out.reqs = batch.reqs ∧ S'.stage = S.stage) ∨
    (out.reqs = batch.reqs ++ S.unfinishedRunning ∧ S'.stage.runningBatch = none)

theorem mixChunk_spec {cfg : Config} {S S' : Sched M} {batch out : ScheduleBatch}
    (hmode : batch.forwardMode.isExtend = true)
    (h : S.mixChunk cfg batch = some (S', out)) : Mixed S S' batch out := by
  unfold mixChunk at h
  split at h
  next =>
    obtain ⟨rfl, rfl⟩ := Prod.mk.inj (Option.some.inj h)
    exact ⟨.refl _, rfl, rfl, rfl, hmode, Or.inl ⟨rfl, rfl⟩⟩
  next running hrunning =>
    split at h
    next =>
      obtain ⟨filtered, hfilter, h⟩ := Option.bind_eq_some_iff.mp h
      obtain ⟨⟨S₁, mixed⟩, hmixed, h⟩ := Option.bind_eq_some_iff.mp h
      obtain ⟨rfl, rfl⟩ := Prod.mk.inj (Option.some.inj h)
      obtain ⟨hquiet, hreqs, hmode'⟩ := mixUnfinished_spec hmode hmixed
      refine ⟨hquiet.toFrame.trans (frame_setRunningBatch _ _), hquiet.waitingQueue,
        hquiet.pendingBatch, ?_, hmode', Or.inr ⟨?_, setRunningBatch_stage _ _⟩⟩
      · rw [setRunningBatch, setStage_stage, Stage.rebindRunning_beingChunkedReq, hquiet.stage]
      · rw [hreqs, ScheduleBatch.filterBatch_reqs hfilter, unfinishedRunning, hrunning]
        congr 1
        exact List.filter_congr fun q _ => by simp [ScheduleBatch.keeps]
    next =>
      obtain ⟨rfl, rfl⟩ := Prod.mk.inj (Option.some.inj h)
      exact ⟨.refl _, rfl, rfl, rfl, hmode, Or.inl ⟨rfl, rfl⟩⟩

/-- A request after it was listed for the new batch of micro-batch `idx`. -/
def listed (canRunList : List Nat) (chunk : Option Nat) (idx q : Nat) (r : Req) : Req :=
  { r with
    ppIdx := if q ∈ canRunList then some idx else r.ppIdx
    isBeingChunked := if chunk = some q then r.isBeingChunked + 1 else r.isBeingChunked }

/-- The new prefill batch and the state that is left without its requests. -/
structure Formed (S S' : Sched M) (adder : PrefillAdder) (batch : ScheduleBatch) : Prop where
  curPP : S'.curPP = S.curPP
  nextReq : S'.nextReq = S.nextReq
  stages : ∀ j, j ≠ S.cur → S'.stages j = S.stages j
  waitingQueue : S'.waitingQueue = S.waitingQueue.filter (· ∉ adder.canRunList)
  pendingBatch : S'.pendingBatch = S.pendingBatch
  chunk : chunkAfter S.stage.beingChunkedReq adder.newBeingChunkedReq =
    some S'.stage.beingChunkedReq
  heap : ∀ q, (listed adder.canRunList S'.stage.beingChunkedReq S.cur q (S.heap q)).Prepared
    (S'.heap q)
  mode : batch.forwardMode.isExtend = true
  reqs : (batch.reqs = adder.canRunList ∧ S'.stage.runningBatch = S.stage.runningBatch) ∨
    (batch.reqs = adder.canRunList ++ S.unfinishedRunning ∧ S'.stage.runningBatch = none)

omit [MemoryPools M] in
theorem countChunk_eq (S : Sched M) : S.countChunk = { S with heap := fun q => { S.heap q with
    isBeingChunked := if S.stage.beingChunkedReq = some q then (S.heap q).isBeingChunked + 1
      else (S.heap q).isBeingChunked } } := by
  unfold countChunk
  split
  next hnone => simp [hnone]
  next p hsome =>
    simp only [setReq, hsome, Option.some.injEq]
    congr 1
    funext q
    rcases eq_or_ne q p with rfl | hne
    · simp
    · simp [hne, hne.symm]

omit [MemoryPools M] in
theorem takeListed_eq (S : Sched M) (canRunList : List Nat) (chunk : Option Nat) :
    S.takeListed canRunList chunk =
      { S.setStage { S.stage with beingChunkedReq := chunk } with
        heap := fun q => listed canRunList chunk S.cur q (S.heap q)
        waitingQueue := S.waitingQueue.filter (· ∉ canRunList) } := by
  unfold takeListed
  dsimp only
  rw [countChunk_eq, setStage_stage]
  simp only [setStage, modifyReqs]
  congr 1
  funext q
  by_cases hq : q ∈ canRunList <;> simp [listed, hq]

/-- Either nothing was listed, or the listed requests form the new batch. -/
theorem formPrefill_spec {cfg : Config} {S S' : Sched M} {adder : PrefillAdder}
    {batch : Option ScheduleBatch} (h : S.formPrefill cfg adder = some (S', batch)) :
    (adder.canRunList = [] ∧ batch = none ∧ S' = S) ∨
      (adder.canRunList ≠ [] ∧ ∃ b, batch = some b ∧ Formed S S' adder b) := by
  unfold formPrefill at h
  split at h
  next hnil =>
    obtain ⟨rfl, rfl⟩ := Prod.mk.inj (Option.some.inj h)
    exact Or.inl ⟨hnil, rfl, rfl⟩
  next hne =>
    obtain ⟨chunk, hchunk, h⟩ := Option.bind_eq_some_iff.mp h
    obtain ⟨⟨S₂, b₂⟩, hformed, h⟩ := Option.bind_eq_some_iff.mp h
    obtain ⟨⟨S₃, b₃⟩, hmixed, h⟩ := Option.bind_eq_some_iff.mp h
    obtain ⟨rfl, rfl⟩ := Prod.mk.inj (Option.some.inj h)
    rw [takeListed_eq] at hformed
    obtain ⟨hquiet, hreqs, hmode⟩ := prepareForExtend_spec hformed
    have hmix := mixChunk_spec (by rw [hmode]; rfl) hmixed
    have hstage : S₂.stage = { S.stage with beingChunkedReq := chunk } :=
      hquiet.stage.trans (setStage_stage S { S.stage with beingChunkedReq := chunk })
    have hchunk' : S₃.stage.beingChunkedReq = chunk := by rw [hmix.beingChunkedReq, hstage]
    have hcur : S₂.cur = S.cur := hquiet.cur
    have hunf : S₂.unfinishedRunning = S.unfinishedRunning := by
      unfold unfinishedRunning
      rw [hstage]
      exact List.filter_congr fun q _ => by rw [hquiet.finished]; rfl
    refine Or.inr ⟨hne, b₃, rfl, ?_⟩
    exact {
      curPP := hmix.curPP.trans hquiet.curPP
      nextReq := hmix.nextReq.trans hquiet.nextReq
      stages := fun j hj => (hmix.stages j (hcur ▸ hj)).trans
        ((hquiet.stages j hj).trans (Function.update_of_ne hj _ _))
      waitingQueue := hmix.waitingQueue.trans hquiet.waitingQueue
      pendingBatch := hmix.pendingBatch.trans hquiet.pendingBatch
      chunk := by rw [hchunk', hchunk]
      heap := fun q => by
        rw [hchunk']
        exact (hquiet.heap q).trans (hmix.heap q)
      mode := hmix.mode
      reqs := by
        rw [← hreqs, ← hunf]
        rcases hmix.reqs with ⟨hreqs', hstage'⟩ | h'
        · exact Or.inl ⟨hreqs', by rw [hstage', hstage]⟩
        · exact Or.inr h' }

end Sched

theorem gather_eq_some_iff {α : Type} {values result : List α} {indices : List Nat} :
    gather values indices = some result ↔
      (indices.map fun i => values[i]?) = result.map some := by
  induction indices generalizing result with
  | nil => cases result <;> simp [gather_nil]
  | cons i indices ih =>
    rw [gather_cons, Option.bind_eq_bind, Option.bind_eq_some_iff]
    constructor
    · rintro ⟨value, hv, h⟩
      obtain ⟨rest, hrest, h⟩ := Option.bind_eq_some_iff.mp h
      cases Option.some.inj h
      rw [List.map_cons, List.map_cons, hv, ih.mp hrest]
    · intro h
      cases result with
      | nil => simp at h
      | cons value rest =>
        obtain ⟨hv, hrest⟩ := List.cons.inj h
        exact ⟨value, hv, Option.bind_eq_some_iff.mpr ⟨rest, ih.mpr hrest, rfl⟩⟩

theorem gather_perm {α : Type} {values a b : List α} {is js : List Nat} (h : is.Perm js)
    (ha : gather values is = some a) (hb : gather values js = some b) : a.Perm b := by
  have hmap : (a.map some).Perm (b.map some) := by
    rw [← gather_eq_some_iff.mp ha, ← gather_eq_some_iff.mp hb]
    exact h.map _
  exact (List.map_perm_map_iff (Option.some_injective α)).mp hmap

theorem exists_gather {α : Type} {values : List α} {indices : List Nat}
    (h : ∀ i ∈ indices, i < values.length) : ∃ result, gather values indices = some result := by
  induction indices with
  | nil => exact ⟨[], rfl⟩
  | cons i indices ih =>
    obtain ⟨rest, hrest⟩ := ih fun j hj => h j (List.mem_cons_of_mem i hj)
    refine ⟨values.get ⟨i, h i (by simp)⟩ :: rest, ?_⟩
    rw [gather_cons, List.getElem?_eq_getElem (h i (by simp)), hrest]
    rfl

/-- When all rows are kept the batch stays in its own order. -/
theorem ScheduleBatch.filterIndices_perm {heap : Nat → Req} {indices kept : List Nat}
    {batch out : ScheduleBatch} (hk : gather batch.reqs indices = some kept)
    (hfull : indices.length = batch.reqs.length → kept.Perm batch.reqs)
    (h : batch.filterIndices heap indices = some out) : out.reqs.Perm kept := by
  rcases eq_or_ne indices.length batch.reqs.length with hlen | hlen
  · refine List.Perm.trans ?_ (hfull hlen).symm
    unfold ScheduleBatch.filterIndices at h
    split at h
    next hnil =>
      cases Option.some.inj h
      rw [hnil] at hlen
      rw [List.length_eq_zero_iff.mp hlen.symm]
    next =>
      rw [Option.some.inj h]
  · rw [filterIndices_reqs hk (fun heq => absurd heq hlen) h]

namespace Sched

variable {M : Type}

theorem retractOrder_perm (S : Sched M) (batch : ScheduleBatch) :
    (S.retractOrder batch).Perm (List.range batch.reqs.length) :=
  (List.reverse_perm _).trans (List.mergeSort_perm _ _)

variable [MemoryPools M]

theorem retractReq_spec {S S' : Sched M} {batch : ScheduleBatch} {idx q seqLen : Nat}
    (h : S.retractReq batch idx = some (S', q, seqLen)) :
    Quiet S S' ∧ batch.reqs[idx]? = some q := by
  obtain ⟨q', hq, h⟩ := Option.bind_eq_some_iff.mp h
  obtain ⟨_, _, h⟩ := Option.bind_eq_some_iff.mp h
  obtain ⟨_, _, h⟩ := Option.bind_eq_some_iff.mp h
  obtain ⟨_, _, h⟩ := Option.bind_eq_some_iff.mp h
  obtain ⟨hS, h⟩ := Prod.mk.inj (Option.some.inj h)
  obtain ⟨rfl, rfl⟩ := Prod.mk.inj h
  subst hS
  exact ⟨⟨⟨rfl, rfl, fun _ _ => rfl, (Req.prepared_resetForRetract _).update⟩, rfl, rfl, rfl⟩, hq⟩

/-- The loop pops a part of the order and returns the requests at these indices. -/
theorem retractLoop_spec {cfg : Config} {batch : ScheduleBatch} {order kept retracted : List Nat}
    {first : Bool} {available : Int} {S S' : Sched M}
    (h : retractLoop cfg batch order first available S = some (S', retracted, kept)) :
    Quiet S S' ∧ (order ≠ [] → kept ≠ []) ∧
      ∃ popped, order = popped ++ kept ∧ gather batch.reqs popped = some retracted := by
  induction order generalizing first available S retracted with
  | nil =>
    unfold retractLoop at h
    split at h
    next => simp at h
    next =>
      obtain ⟨rfl, hpair⟩ := Prod.mk.inj (Option.some.inj h)
      obtain ⟨rfl, rfl⟩ := Prod.mk.inj hpair
      exact ⟨.refl _, fun h => h, [], rfl, rfl⟩
  | cons idx order ih =>
    unfold retractLoop at h
    split at h
    next =>
      split at h
      next hlast =>
        split at h
        next =>
          obtain ⟨rfl, hpair⟩ := Prod.mk.inj (Option.some.inj h)
          obtain ⟨rfl, rfl⟩ := Prod.mk.inj hpair
          exact ⟨.refl _, by simp, [], by simp [hlast], rfl⟩
        next => simp at h
      next hlast =>
        obtain ⟨⟨S₁, q, seqLen⟩, hone, h⟩ := Option.bind_eq_some_iff.mp h
        obtain ⟨⟨S₂, more, kept'⟩, hrest, h⟩ := Option.bind_eq_some_iff.mp h
        obtain ⟨rfl, hpair⟩ := Prod.mk.inj (Option.some.inj h)
        obtain ⟨rfl, rfl⟩ := Prod.mk.inj hpair
        obtain ⟨hquiet, hq⟩ := retractReq_spec hone
        obtain ⟨hquiet', hkept, popped, horder, hpopped⟩ := ih hrest
        refine ⟨hquiet.trans hquiet', fun _ => hkept hlast, idx :: popped, by rw [horder]; rfl, ?_⟩
        rw [gather_cons, hq, hpopped]
        rfl
    next =>
      obtain ⟨rfl, hpair⟩ := Prod.mk.inj (Option.some.inj h)
      obtain ⟨rfl, rfl⟩ := Prod.mk.inj hpair
      exact ⟨.refl _, fun h => h, [], rfl, rfl⟩

/-- The batch left and the retracted requests share out the batch before. -/
theorem retractDecode_spec {cfg : Config} {S S' : Sched M} {batch out : ScheduleBatch}
    {retracted : List Nat} {ratio : Rat}
    (h : S.retractDecode cfg batch = some (S', out, retracted, ratio)) :
    Quiet S S' ∧ (batch.reqs ≠ [] → out.reqs ≠ []) ∧ (out.reqs ++ retracted).Perm batch.reqs := by
  obtain ⟨⟨S₁, retracted', kept⟩, hloop, h⟩ := Option.bind_eq_some_iff.mp h
  obtain ⟨out', hfilter, h⟩ := Option.bind_eq_some_iff.mp h
  obtain ⟨_, _, h⟩ := Option.bind_eq_some_iff.mp h
  obtain ⟨rfl, hpair⟩ := Prod.mk.inj (Option.some.inj h)
  obtain ⟨rfl, hlast⟩ := Prod.mk.inj hpair
  obtain ⟨rfl, rfl⟩ := Prod.mk.inj hlast
  obtain ⟨hquiet, hkeep, popped, horder, hpopped⟩ := retractLoop_spec hloop
  have hperm : (kept.reverse ++ popped).Perm (List.range batch.reqs.length) := by
    refine List.Perm.trans ?_ (horder ▸ retractOrder_perm S batch)
    exact (List.perm_append_comm.trans ((List.reverse_perm kept).append_left popped))
  have hall : gather batch.reqs (List.range batch.reqs.length) = some batch.reqs := by
    rw [gather_range le_rfl, List.take_length]
  obtain ⟨keptReqs, hkept⟩ : ∃ keptReqs, gather batch.reqs kept.reverse = some keptReqs :=
    exists_gather fun i hi => List.mem_range.mp (hperm.subset (List.mem_append_left _ hi))
  have hreqs := gather_perm hperm (gather_append hkept hpopped) hall
  have hout : out'.reqs.Perm keptReqs := by
    refine ScheduleBatch.filterIndices_perm hkept (fun hlen => ?_) hfilter
    have hnone : retracted' = [] := by
      have hsum := hreqs.length_eq
      rw [List.length_append, gather_length hkept, hlen] at hsum
      exact List.length_eq_zero_iff.mp (by omega)
    simpa [hnone] using hreqs
  refine ⟨hquiet, fun hne => ?_, (hout.append_right _).trans hreqs⟩
  have horderne : S.retractOrder batch ≠ [] := fun hnil => by
    have hlen := (retractOrder_perm S batch).length_eq
    rw [hnil, List.length_range] at hlen
    exact hne (List.length_eq_zero_iff.mp hlen.symm)
  have hpos := List.length_pos_iff.mpr (hkeep horderne)
  have hlen := hout.length_eq.trans (gather_length hkept)
  rw [List.length_reverse] at hlen
  exact List.length_pos_iff.mp (by omega)

/-- A running batch decodes with its unfinished requests, less the retracted ones,
which wait again. -/
theorem updateRunningBatch_spec {cfg : Config} {S S' : Sched M} {running : ScheduleBatch}
    {out : Option ScheduleBatch} (h : S.updateRunningBatch cfg running = some (S', out)) :
    Frame S S' ∧ S'.stages = S.stages ∧ S'.pendingBatch = S.pendingBatch ∧
      (∀ b, out = some b → b.forwardMode = .decode ∧ b.reqs ≠ []) ∧
      ∃ retracted, S'.waitingQueue = S.waitingQueue ++ retracted ∧
        (reqsOf out ++ retracted).Perm (running.reqs.filter fun q => !(S.heap q).finished) := by
  obtain ⟨filtered, hfilter, h⟩ := Option.bind_eq_some_iff.mp h
  have hreqs : filtered.reqs = running.reqs.filter fun q => !(S.heap q).finished := by
    rw [ScheduleBatch.filterBatch_reqs hfilter]
    exact List.filter_congr fun q _ => by simp [ScheduleBatch.keeps]
  split at h
  next hempty =>
    obtain ⟨rfl, rfl⟩ := Prod.mk.inj (Option.some.inj h)
    have hnil : filtered.reqs = [] := by simpa [ScheduleBatch.isEmpty] using hempty
    exact ⟨(quiet_setFull S false).toFrame, rfl, rfl, by simp, [], by simp, by simp [reqsOf, ← hreqs, hnil]⟩
  next hempty =>
    obtain ⟨⟨S₁, checked⟩, hcheck, h⟩ := Option.bind_eq_some_iff.mp h
    obtain ⟨⟨S₂, decode⟩, hdecode, h⟩ := Option.bind_eq_some_iff.mp h
    obtain ⟨rfl, rfl⟩ := Prod.mk.inj (Option.some.inj h)
    obtain ⟨hquiet, hout, hmode⟩ := prepareForDecode_spec hdecode
    have hchecked : Frame S S₁ ∧ S₁.stages = S.stages ∧ S₁.pendingBatch = S.pendingBatch ∧
        (filtered.reqs ≠ [] → checked.reqs ≠ []) ∧
        ∃ retracted, S₁.waitingQueue = S.waitingQueue ++ retracted ∧
          (checked.reqs ++ retracted).Perm filtered.reqs := by
      unfold retractOrDecay at hcheck
      split at hcheck
      next =>
        obtain ⟨⟨S₃, left, retracted, ratio⟩, hretract, hcheck⟩ :=
          Option.bind_eq_some_iff.mp hcheck
        obtain ⟨rfl, rfl⟩ := Prod.mk.inj (Option.some.inj hcheck)
        obtain ⟨hquiet', hkeep, hperm⟩ := retractDecode_spec hretract
        exact ⟨⟨hquiet'.curPP, hquiet'.nextReq, hquiet'.stages, hquiet'.heap⟩, hquiet'.allStages,
          hquiet'.pendingBatch, hkeep, retracted, by rw [← hquiet'.waitingQueue], hperm⟩
      next =>
        obtain ⟨rfl, rfl⟩ := Prod.mk.inj (Option.some.inj hcheck)
        exact ⟨⟨rfl, rfl, fun _ _ => rfl, fun _ => .refl _⟩, rfl, rfl, fun h => h, [], by simp, by simp⟩
    obtain ⟨hframe, hstages, hpending, hkeep, retracted, hwaiting, hperm⟩ := hchecked
    refine ⟨hframe.trans ((quiet_setFull _ _).toFrame.trans hquiet.toFrame),
      hquiet.allStages.trans hstages, hquiet.pendingBatch.trans hpending, ?_, retracted,
      hquiet.waitingQueue.trans hwaiting, ?_⟩
    · intro b hb
      rw [← Option.some.inj hb, hmode, hout]
      exact ⟨rfl, hkeep (by simpa [ScheduleBatch.isEmpty] using hempty)⟩
    · rw [← hreqs]
      simpa [reqsOf, hout] using hperm

/-- The batch that runs: the new prefill batch, or else the running batch. -/
structure Decoded (S S' : Sched M) (out : Option ScheduleBatch) : Prop extends Frame S S' where
  pendingBatch : S'.pendingBatch = S.pendingBatch
  beingChunkedReq : S'.stage.beingChunkedReq = S.stage.beingChunkedReq
  running : S'.stage.runningBatch = out
  mode : ∀ b, out = some b → b.forwardMode = .decode ∧ b.reqs ≠ []
  retracted : ∃ retracted, S'.waitingQueue = S.waitingQueue ++ retracted ∧
    (reqsOf out ++ retracted).Perm S.unfinishedRunning

theorem orDecode_spec {cfg : Config} {S S' : Sched M} {newBatch out : Option ScheduleBatch}
    (h : S.orDecode cfg newBatch = some (S', out)) :
    (newBatch.isSome ∧ out = newBatch ∧ S' = S) ∨ (newBatch = none ∧ Decoded S S' out) := by
  unfold orDecode at h
  split at h
  next =>
    obtain ⟨rfl, rfl⟩ := Prod.mk.inj (Option.some.inj h)
    exact Or.inl ⟨rfl, rfl, rfl⟩
  next hrun =>
    obtain ⟨rfl, rfl⟩ := Prod.mk.inj (Option.some.inj h)
    exact Or.inr ⟨rfl, .refl S, rfl, rfl, hrun, by simp, [], by simp,
      by simp [unfinishedRunning, hrun, reqsOf]⟩
  next running hrun =>
    obtain ⟨⟨S₁, updated⟩, hupdate, h⟩ := Option.bind_eq_some_iff.mp h
    obtain ⟨rfl, rfl⟩ := Prod.mk.inj (Option.some.inj h)
    obtain ⟨hframe, hstages, hpending, hmode, retracted, hwaiting, hperm⟩ :=
      updateRunningBatch_spec hupdate
    have hstage : S₁.stage = S.stage := by rw [stage, hstages, hframe.cur, stage]
    have hunf : S.unfinishedRunning = running.reqs.filter fun q => !(S.heap q).finished := by
      simp [unfinishedRunning, hrun, reqsOf]
    refine Or.inr ⟨rfl, ?_⟩
    unfold replaceRunning
    cases updated with
    | none =>
      exact ⟨hframe.trans (frame_setRunningBatch _ _), hpending,
        by rw [setRunningBatch, setStage_stage, Stage.rebindRunning_beingChunkedReq, hstage],
        setRunningBatch_stage _ _, hmode, retracted, hwaiting, hunf ▸ hperm⟩
    | some b =>
      exact ⟨hframe.trans (frame_setStage _ _), hpending, by rw [setStage_stage, hstage],
        by rw [setStage_stage], hmode, retracted, hwaiting, hunf ▸ hperm⟩

end Sched

end FastPP
