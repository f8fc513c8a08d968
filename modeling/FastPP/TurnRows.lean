import FastPP.RequestRows

namespace FastPP

namespace Sched

variable {cfg : Config} {S S' : Sched Memory}

/-- The requests of a new prefill batch get rows. -/
theorem PrefillPhases.takes {fetched selected : Sched Memory} {adder : PrefillAdder}
    {batch : ScheduleBatch} (h : PrefillPhases cfg S fetched selected S' adder batch)
    (hnodup : adder.canRunList.Nodup) : selected.mem.Takes adder.canRunList S'.mem := by
  have hform := h.form
  unfold formPrefill at hform
  split at hform
  next => simp at hform
  next =>
    obtain ⟨chunk, _, hform⟩ := Option.bind_eq_some_iff.mp hform
    obtain ⟨⟨S₁, b₁⟩, hextend, hform⟩ := Option.bind_eq_some_iff.mp hform
    obtain ⟨⟨S₂, b₂⟩, hmixed, hform⟩ := Option.bind_eq_some_iff.mp hform
    obtain ⟨rfl, _⟩ := Prod.mk.inj (Option.some.inj hform)
    rw [takeListed_eq] at hextend
    have htake := prepareForExtend_rows hnodup hextend
    exact htake.trans_sameRows (mixChunk_rows hmixed)

/-- A prefill turn puts the row of the fetched request back and hands out new ones. -/
theorem PrefillPhases.rows {fetched selected : Sched Memory} {adder : PrefillAdder}
    {batch : ScheduleBatch} (hone : cfg.ppSize ≠ 1)
    (h : PrefillPhases cfg S fetched selected S' adder batch) (hnodup : adder.canRunList.Nodup) :
    ∃ mem, S.mem.Frees (S.stages (cfg.prev S.cur)).beingChunkedReq.toList mem ∧
      mem.Takes adder.canRunList S'.mem := by
  refine ⟨selected.mem, ?_, h.takes hnodup⟩
  have hfetch := fetchChunkedPrefill_rows hone h.fetch
  have hselect := Memory.frees_nil_iff.mpr (selectPrefill_rows h.select)
  simpa using hfetch.trans hselect

/-- Without a carried chunked request and a new batch no row changes hands. -/
theorem getNewBatchPrefill_rows
    (hnone : cfg.ppSize = 1 ∨ (S.stages (cfg.prev S.cur)).beingChunkedReq = none)
    (h : S.getNewBatchPrefill cfg = some (S', none)) : S.mem.SameRows S'.mem := by
  obtain ⟨S₁, hfetch, h⟩ := Option.bind_eq_some_iff.mp h
  have hrows : S.mem.SameRows S₁.mem := by
    by_cases hone : cfg.ppSize = 1
    · rw [fetchChunkedPrefill_sole hone hfetch]
      exact .refl _
    · have hrows := fetchChunkedPrefill_rows hone hfetch
      rwa [hnone.resolve_left hone, Option.toList_none, Memory.frees_nil_iff] at hrows
  unfold prefillFetched at h
  split at h
  next => obtain ⟨rfl, _⟩ := Prod.mk.inj (Option.some.inj h); exact hrows
  next =>
    split at h
    next => obtain ⟨rfl, _⟩ := Prod.mk.inj (Option.some.inj h); exact hrows
    next =>
      obtain ⟨⟨S₂, adder⟩, hselect, h⟩ := Option.bind_eq_some_iff.mp h
      rcases formPrefill_spec h with ⟨_, _, rfl⟩ | ⟨_, batch, hsome, _⟩
      · exact hrows.trans (selectPrefill_rows hselect)
      · simp at hsome

theorem retractReq_rows {batch : ScheduleBatch} {idx q seqLen : Nat}
    (h : S.retractReq batch idx = some (S', q, seqLen)) : S.mem.Frees [q] S'.mem := by
  obtain ⟨_, _, h⟩ := Option.bind_eq_some_iff.mp h
  obtain ⟨_, _, h⟩ := Option.bind_eq_some_iff.mp h
  obtain ⟨mem, hretract, h⟩ := Option.bind_eq_some_iff.mp h
  obtain ⟨_, _, h⟩ := Option.bind_eq_some_iff.mp h
  obtain ⟨hS, hpair⟩ := Prod.mk.inj (Option.some.inj h)
  obtain ⟨rfl, rfl⟩ := Prod.mk.inj hpair
  subst hS
  exact Memory.retractReq_frees hretract

theorem retractLoop_rows {batch : ScheduleBatch} {order kept retracted : List Nat}
    {first : Bool} {available : Int}
    (h : retractLoop cfg batch order first available S = some (S', retracted, kept)) :
    S.mem.Frees retracted S'.mem := by
  induction order generalizing first available S retracted with
  | nil =>
    unfold retractLoop at h
    split at h
    next => simp at h
    next =>
      obtain ⟨rfl, hpair⟩ := Prod.mk.inj (Option.some.inj h)
      obtain ⟨rfl, _⟩ := Prod.mk.inj hpair
      exact .refl _
  | cons idx order ih =>
    unfold retractLoop at h
    split at h
    next =>
      split at h
      next =>
        split at h
        next =>
          obtain ⟨rfl, hpair⟩ := Prod.mk.inj (Option.some.inj h)
          obtain ⟨rfl, _⟩ := Prod.mk.inj hpair
          exact .refl _
        next => simp at h
      next =>
        obtain ⟨⟨S₁, q, seqLen⟩, hone, h⟩ := Option.bind_eq_some_iff.mp h
        obtain ⟨⟨S₂, more, kept'⟩, hrest, h⟩ := Option.bind_eq_some_iff.mp h
        obtain ⟨rfl, hpair⟩ := Prod.mk.inj (Option.some.inj h)
        obtain ⟨rfl, rfl⟩ := Prod.mk.inj hpair
        exact (retractReq_rows hone).trans (ih hrest)
    next =>
      obtain ⟨rfl, hpair⟩ := Prod.mk.inj (Option.some.inj h)
      obtain ⟨rfl, _⟩ := Prod.mk.inj hpair
      exact .refl _

/-- The requests that go back to the waiting queue put their rows back. -/
theorem orDecode_rows {out : Option ScheduleBatch}
    (h : S.orDecode cfg none = some (S', out)) :
    ∃ retracted, S'.waitingQueue = S.waitingQueue ++ retracted ∧ S.mem.Frees retracted S'.mem := by
  unfold orDecode at h
  split at h
  next hsome => simp at hsome
  next =>
    obtain ⟨rfl, _⟩ := Prod.mk.inj (Option.some.inj h)
    exact ⟨[], by simp, .refl _⟩
  next running hrun =>
    obtain ⟨⟨S₁, updated⟩, hupdate, h⟩ := Option.bind_eq_some_iff.mp h
    obtain ⟨rfl, _⟩ := Prod.mk.inj (Option.some.inj h)
    have hsame : (S₁.replaceRunning updated).waitingQueue = S₁.waitingQueue ∧
        (S₁.replaceRunning updated).mem = S₁.mem := by
      cases updated <;> exact ⟨rfl, rfl⟩
    rw [hsame.1, hsame.2]
    obtain ⟨filtered, _, hupdate⟩ := Option.bind_eq_some_iff.mp hupdate
    split at hupdate
    next =>
      obtain ⟨rfl, _⟩ := Prod.mk.inj (Option.some.inj hupdate)
      exact ⟨[], by simp, .refl _⟩
    next =>
      obtain ⟨⟨S₂, checked⟩, hcheck, hupdate⟩ := Option.bind_eq_some_iff.mp hupdate
      obtain ⟨⟨S₃, decode⟩, hdecode, hupdate⟩ := Option.bind_eq_some_iff.mp hupdate
      obtain ⟨rfl, _⟩ := Prod.mk.inj (Option.some.inj hupdate)
      have hwaiting := (prepareForDecode_spec hdecode).1.waitingQueue
      have hrows := prepareForDecode_rows hdecode
      unfold retractOrDecay at hcheck
      split at hcheck
      next =>
        obtain ⟨⟨S₄, left, retracted, ratio⟩, hretract, hcheck⟩ :=
          Option.bind_eq_some_iff.mp hcheck
        obtain ⟨rfl, rfl⟩ := Prod.mk.inj (Option.some.inj hcheck)
        have hqueue := (retractDecode_spec hretract).1.waitingQueue
        obtain ⟨⟨S₅, retracted', kept⟩, hloop, hretract⟩ := Option.bind_eq_some_iff.mp hretract
        obtain ⟨_, _, hretract⟩ := Option.bind_eq_some_iff.mp hretract
        obtain ⟨_, _, hretract⟩ := Option.bind_eq_some_iff.mp hretract
        obtain ⟨rfl, hpair⟩ := Prod.mk.inj (Option.some.inj hretract)
        obtain ⟨_, hlast⟩ := Prod.mk.inj hpair
        obtain ⟨rfl, _⟩ := Prod.mk.inj hlast
        refine ⟨retracted', ?_, ?_⟩
        · rw [hwaiting, ← hqueue]
        · simpa using (retractLoop_rows hloop).trans (Memory.frees_nil_iff.mpr hrows)
      next =>
        obtain ⟨rfl, rfl⟩ := Prod.mk.inj (Option.some.inj hcheck)
        exact ⟨[], by rw [hwaiting]; simp, Memory.frees_nil_iff.mpr hrows⟩

/-- Appending a token puts no row back. -/
theorem appendToken_mem {q token : Nat} (h : S.appendToken cfg q token = some S') :
    S'.mem = S.mem := by
  obtain ⟨_, _, h⟩ := Option.bind_eq_some_iff.mp h
  rw [← Option.some.inj h]
  rfl

/-- A request puts its row back when its last result is processed and it is finished. -/
theorem processPrefillReq_rows {decodingReqs : List Nat} {q token : Nat}
    (h : S.processPrefillReq cfg decodingReqs q token = some S') :
    S.mem.Frees (if (S.heap q).isBeingChunked ≤ 0 ∧ (S'.heap q).finished then [q] else [])
      S'.mem := by
  unfold processPrefillReq at h
  split at h
  next hcount =>
    obtain ⟨S₁, happend, h⟩ := Option.bind_eq_some_iff.mp h
    obtain ⟨S₂, hcache, h⟩ := Option.bind_eq_some_iff.mp h
    cases Option.some.inj h
    have hlogprob : (S₂.addLogprobReturnValues q).mem = S₂.mem ∧
        ((S₂.addLogprobReturnValues q).heap q).finished = (S₂.heap q).finished := by
      unfold addLogprobReturnValues
      split
      next => exact ⟨rfl, by simp only [setReq, Function.update_self]; rfl⟩
      next => exact ⟨rfl, rfl⟩
    rw [hlogprob.1, hlogprob.2, ← appendToken_mem happend]
    unfold cachePrefilledReq at hcache
    split at hcache
    next hfinished =>
      obtain ⟨hrows, hheap⟩ := cacheFinishedReq_rows hcache
      rw [hheap, if_pos ⟨hcount, hfinished⟩]
      exact hrows
    next hfinished =>
      split at hcache
      next =>
        cases Option.some.inj hcache
        rw [if_neg fun h => hfinished h.2]
        exact .refl _
      next =>
        have hrows := cacheUnfinishedReq_rows hcache
        have hsame : (S₂.heap q).finished = (S₁.heap q).finished := by
          obtain ⟨_, _, hcache⟩ := Option.bind_eq_some_iff.mp hcache
          rw [← Option.some.inj hcache]
          simp only [setReq, Function.update_self]
          rfl
        rw [hsame, if_neg fun h => hfinished h.2]
        exact Memory.frees_nil_iff.mpr hrows
  next hcount =>
    cases Option.some.inj h
    rw [if_neg fun h => hcount h.1]
    exact .refl _

theorem processDecodeReq_rows {q token : Nat} (h : S.processDecodeReq cfg q token = some S') :
    S.mem.Frees (if (S'.heap q).finished then [q] else []) S'.mem := by
  obtain ⟨S₁, happend, h⟩ := Option.bind_eq_some_iff.mp h
  rw [← appendToken_mem happend]
  split at h
  next hfinished =>
    obtain ⟨hrows, hheap⟩ := cacheFinishedReq_rows h
    rw [hheap, if_pos hfinished]
    exact hrows
  next hfinished =>
    cases Option.some.inj h
    rw [if_neg hfinished]
    exact .refl _

/-- The rows that a whole batch of results puts back. -/
theorem processReqs_rows {process : Sched Memory → Nat → Nat → Option (Sched Memory)}
    (count : Int → Int) (due : Int → Bool)
    (hone : ∀ {S S' q token}, process S q token = some S' →
      Resulted S S' q (count (S.heap q).isBeingChunked))
    (hrows : ∀ {S S' : Sched Memory} {q token}, process S q token = some S' →
      S.mem.Frees (if due (S.heap q).isBeingChunked = true ∧ (S'.heap q).finished then [q] else [])
        S'.mem)
    {results : List (Nat × Nat)} (h : processReqs process results S = some S')
    (hnodup : (results.map Prod.fst).Nodup) :
    S.mem.Frees ((results.map Prod.fst).filter fun q =>
      due (S.heap q).isBeingChunked && (S'.heap q).finished) S'.mem := by
  induction results generalizing S with
  | nil => cases Option.some.inj h; exact .refl _
  | cons result results ih =>
    obtain ⟨q, token⟩ := result
    obtain ⟨S₁, hfirst, h⟩ := Option.bind_eq_some_iff.mp h
    rw [List.map_cons, List.nodup_cons] at hnodup
    have hrest := ih h hnodup.2
    have hspec := processReqs_spec count hone h hnodup.2
    have hsame : (S'.heap q) = S₁.heap q := hspec.other q hnodup.1
    have hfilter : (results.map Prod.fst).filter (fun q =>
        due (S₁.heap q).isBeingChunked && (S'.heap q).finished) =
        (results.map Prod.fst).filter fun q =>
          due (S.heap q).isBeingChunked && (S'.heap q).finished := by
      refine List.filter_congr fun q' hq' => ?_
      have hne : q' ≠ q := fun heq => hnodup.1 (heq ▸ hq')
      rw [(hone hfirst).other hne]
    have hcons := (hrows hfirst).trans hrest
    rw [hfilter, ← hsame] at hcons
    rw [List.map_cons, List.filter_cons]
    split
    next htrue =>
      rw [if_pos (by simpa using htrue)] at hcons
      exact hcons
    next hfalse =>
      rw [if_neg (by simpa using hfalse)] at hcons
      exact hcons

/-- A chunk that is not the last one finishes nothing. -/
theorem processReqs_undue {process : Sched Memory → Nat → Nat → Option (Sched Memory)}
    (count : Int → Int) (due : Int → Bool)
    (hone : ∀ {S S' q token}, process S q token = some S' →
      Resulted S S' q (count (S.heap q).isBeingChunked))
    (hundue : ∀ {S S' : Sched Memory} {q token}, process S q token = some S' →
      due (S.heap q).isBeingChunked = false → (S'.heap q).finished = (S.heap q).finished)
    {results : List (Nat × Nat)} (h : processReqs process results S = some S')
    (hnodup : (results.map Prod.fst).Nodup) {q : Nat} (hq : q ∈ results.map Prod.fst)
    (hdue : due (S.heap q).isBeingChunked = false) :
    (S'.heap q).finished = (S.heap q).finished := by
  induction results generalizing S with
  | nil => simp at hq
  | cons result results ih =>
    obtain ⟨q', token⟩ := result
    obtain ⟨S₁, hfirst, hrest⟩ := Option.bind_eq_some_iff.mp h
    rw [List.map_cons, List.nodup_cons] at hnodup
    rcases eq_or_ne q q' with rfl | hne
    · have hsame := (processReqs_spec count hone hrest hnodup.2).other q hnodup.1
      rw [hsame]
      exact hundue hfirst hdue
    · have hother := (hone hfirst).other hne
      rw [← hother] at hdue ⊢
      exact ih hrest hnodup.2 (by simpa [hne] using hq) hdue

/-- Which chunk counters let a result take effect. -/
def dueOf (batch : ScheduleBatch) (n : Int) : Bool :=
  batch.forwardMode.isDecode || decide (n ≤ 0)

theorem deliver_rows {idx : Nat} {batch : ScheduleBatch} {nextTokenIds : List Nat}
    (h : S.deliver cfg idx batch nextTokenIds = some S') (hnodup : batch.reqs.Nodup) :
    S.mem.Frees ((reached batch nextTokenIds).filter fun q =>
      dueOf batch (S.heap q).isBeingChunked && (S'.heap q).finished) S'.mem := by
  unfold deliver processBatchResult at h
  dsimp only at h
  have hfst := zip_fst batch nextTokenIds
  have hnodup' := hnodup.sublist (reached_sublist batch nextTokenIds)
  split at h
  next hmode =>
    obtain ⟨S₁, hprocess, h⟩ := Option.bind_eq_some_iff.mp h
    have hloop := processReqs_rows id (fun _ => true) processDecodeReq_spec
      (fun hone => by simpa using processDecodeReq_rows hone) hprocess (by rwa [hfst])
    rw [hfst] at hloop
    have hsame : S'.heap = S₁.heap ∧ S'.mem.reqToTokenPool = S₁.mem.reqToTokenPool ∧
        S'.mem.reqPoolIdx = S₁.mem.reqPoolIdx := by
      rw [← Option.some.inj h]
      split <;> exact ⟨rfl, rfl, rfl⟩
    obtain ⟨hidx, hfree⟩ := hloop
    rw [hsame.1]
    refine ⟨hsame.2.2.trans hidx, ?_⟩
    rw [hsame.2.1, hfree]
    simp only [dueOf, hmode, Bool.true_or]
    rfl
  next hmode =>
    have hdue : ∀ {S S' : Sched Memory} {q token : Nat},
        S.processPrefillReq cfg (batch.decodingReqs.getD []) q token = some S' →
        S.mem.Frees (if decide ((S.heap q).isBeingChunked ≤ 0) = true ∧ (S'.heap q).finished
          then [q] else []) S'.mem := fun hone => by
      simpa using processPrefillReq_rows hone
    have hloop := processReqs_rows countedDown (fun n => decide (n ≤ 0)) processPrefillReq_spec
      hdue h (by rwa [hfst])
    rw [hfst] at hloop
    simpa [dueOf, hmode] using hloop

theorem deliver_undue {idx : Nat} {batch : ScheduleBatch} {nextTokenIds : List Nat}
    (h : S.deliver cfg idx batch nextTokenIds = some S') (hnodup : batch.reqs.Nodup) {q : Nat}
    (hq : q ∈ reached batch nextTokenIds) (hdue : dueOf batch (S.heap q).isBeingChunked = false) :
    (S'.heap q).finished = (S.heap q).finished := by
  unfold deliver processBatchResult at h
  dsimp only at h
  have hfst := zip_fst batch nextTokenIds
  have hnodup' := hnodup.sublist (reached_sublist batch nextTokenIds)
  split at h
  next hmode => simp [dueOf, hmode] at hdue
  next hmode =>
    have hcount : decide ((S.heap q).isBeingChunked ≤ 0) = false := by
      simpa [dueOf, hmode] using hdue
    refine processReqs_undue countedDown (fun n => decide (n ≤ 0)) processPrefillReq_spec
      (fun {S S' q token} hone hlate => ?_) h (by rwa [hfst]) (by rwa [hfst]) hcount
    unfold processPrefillReq at hone
    rw [if_neg (by simpa using hlate)] at hone
    cases Option.some.inj hone
    simp only [setReq, Function.update_self]
    rfl

end Sched

end FastPP
