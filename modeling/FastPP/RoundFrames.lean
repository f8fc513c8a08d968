import FastPP.Rounds
import FastPP.AlignedRun

namespace FastPP

namespace Sched

variable {M : Type} [MemoryPools M] {cfg : Config} {S S' : Sched M}

theorem placeReqs_rangeKept {pairs : List (Nat × Nat)} (h : S.placeReqs pairs = some S')
    (q : Nat) : RangeKept S S' q := by
  induction pairs generalizing S with
  | nil =>
    cases Option.some.inj h
    exact .of_eq rfl
  | cons pair pairs ih =>
    obtain ⟨S₁, hplace, h⟩ := Option.bind_eq_some_iff.mp h
    refine RangeKept.trans ?_ (ih h)
    unfold placeReq at hplace
    dsimp only at hplace
    split at hplace
    next =>
      cases Option.some.inj hplace
      by_cases hq : q = pair.1
      · subst hq
        exact ⟨⟨by simp [setReq, Req.prepareForExtend],
          by simp [setReq, Req.prepareForExtend, Req.target]⟩,
          by simp [setReq, Req.prepareForExtend]⟩
      · exact .of_eq (by simp [setReq, hq])
    next => simp at hplace

theorem prepareForExtend_rangeKept {reqs : List Nat} {batch : ScheduleBatch}
    (h : S.prepareForExtend reqs = some (S', batch)) (q : Nat) : RangeKept S S' q := by
  obtain ⟨_, _, h⟩ := Option.bind_eq_some_iff.mp h
  obtain ⟨locs, _, h⟩ := Option.bind_eq_some_iff.mp h
  obtain ⟨S₁, hplace, h⟩ := Option.bind_eq_some_iff.mp h
  obtain ⟨_, _, h⟩ := Option.bind_eq_some_iff.mp h
  obtain ⟨rfl, _⟩ := Prod.mk.inj (Option.some.inj h)
  have hkept := placeReqs_rangeKept hplace q
  exact ⟨⟨hkept.fillIds, hkept.target⟩, hkept.prefixLen⟩

theorem prepareForDecode_heap {batch out : ScheduleBatch}
    (h : S.prepareForDecode batch = some (S', out)) : S'.heap = S.heap := by
  obtain ⟨_, _, h⟩ := Option.bind_eq_some_iff.mp h
  obtain ⟨_, _, h⟩ := Option.bind_eq_some_iff.mp h
  obtain ⟨rfl, _⟩ := Prod.mk.inj (Option.some.inj h)
  rfl

/-- Mixing changes the running requests only. -/
theorem mixChunk_other {batch out : ScheduleBatch} (h : S.mixChunk cfg batch = some (S', out))
    {q : Nat} (hq : q ∉ reqsOf S.stage.runningBatch) : S'.heap q = S.heap q := by
  unfold mixChunk at h
  split at h
  next =>
    obtain ⟨rfl, _⟩ := Prod.mk.inj (Option.some.inj h)
    rfl
  next running hrun =>
    split at h
    next =>
      obtain ⟨filtered, hfilter, h⟩ := Option.bind_eq_some_iff.mp h
      obtain ⟨⟨S₁, mixed⟩, hmixed, h⟩ := Option.bind_eq_some_iff.mp h
      obtain ⟨rfl, _⟩ := Prod.mk.inj (Option.some.inj h)
      change S₁.heap q = S.heap q
      have hnot : q ∉ filtered.reqs := by
        rw [ScheduleBatch.filterBatch_reqs hfilter]
        intro hmem
        exact hq (by simpa [reqsOf, hrun] using (List.mem_filter.mp hmem).1)
      unfold mixUnfinished at hmixed
      split at hmixed
      next =>
        obtain ⟨rfl, _⟩ := Prod.mk.inj (Option.some.inj hmixed)
        rfl
      next =>
        obtain ⟨⟨S₂, decode⟩, hdecode, hmixed⟩ := Option.bind_eq_some_iff.mp hmixed
        have hreqs := (prepareForDecode_spec hdecode).2.1
        rw [← congrFun (prepareForDecode_heap hdecode) q]
        obtain ⟨_, _, hmixed⟩ := Option.bind_eq_some_iff.mp hmixed
        obtain ⟨_, _, hmixed⟩ := Option.bind_eq_some_iff.mp hmixed
        obtain ⟨_, _, hmixed⟩ := Option.bind_eq_some_iff.mp hmixed
        obtain ⟨_, _, hmixed⟩ := Option.bind_eq_some_iff.mp hmixed
        obtain ⟨_, _, hmixed⟩ := Option.bind_eq_some_iff.mp hmixed
        obtain ⟨rfl, _⟩ := Prod.mk.inj (Option.some.inj hmixed)
        have hnot' : q ∉ decode.reqs := hreqs ▸ hnot
        simp [modifyReqs, hnot']
    next =>
      obtain ⟨rfl, _⟩ := Prod.mk.inj (Option.some.inj h)
      rfl

theorem retractLoop_other {batch : ScheduleBatch} {order kept retracted : List Nat}
    {first : Bool} {available : Int}
    (h : retractLoop cfg batch order first available S = some (S', retracted, kept)) {q : Nat}
    (hq : q ∉ batch.reqs) : S'.heap q = S.heap q := by
  induction order generalizing first available S retracted with
  | nil =>
    unfold retractLoop at h
    split at h
    next => simp at h
    next =>
      obtain ⟨rfl, _⟩ := Prod.mk.inj (Option.some.inj h)
      rfl
  | cons idx order ih =>
    unfold retractLoop at h
    split at h
    next =>
      split at h
      next =>
        split at h
        next =>
          obtain ⟨rfl, _⟩ := Prod.mk.inj (Option.some.inj h)
          rfl
        next => simp at h
      next =>
        obtain ⟨⟨S₁, p, seqLen⟩, hone, h⟩ := Option.bind_eq_some_iff.mp h
        obtain ⟨⟨S₂, more, kept'⟩, hrest, h⟩ := Option.bind_eq_some_iff.mp h
        obtain ⟨rfl, hpair⟩ := Prod.mk.inj (Option.some.inj h)
        obtain ⟨_, rfl⟩ := Prod.mk.inj hpair
        have hp := List.mem_of_getElem? (retractReq_spec hone).2
        have hne : q ≠ p := fun heq => hq (heq ▸ hp)
        refine (ih hrest).trans ?_
        obtain ⟨p', hp', hone⟩ := Option.bind_eq_some_iff.mp hone
        obtain ⟨_, _, hone⟩ := Option.bind_eq_some_iff.mp hone
        obtain ⟨_, _, hone⟩ := Option.bind_eq_some_iff.mp hone
        obtain ⟨_, _, hone⟩ := Option.bind_eq_some_iff.mp hone
        obtain ⟨hS, hpair⟩ := Prod.mk.inj (Option.some.inj hone)
        obtain ⟨rfl, _⟩ := Prod.mk.inj hpair
        rw [← hS]
        simp [setReq, hne]
    next =>
      obtain ⟨rfl, _⟩ := Prod.mk.inj (Option.some.inj h)
      rfl

/-- Decoding changes the running requests only. -/
theorem orDecode_other {out : Option ScheduleBatch} (h : S.orDecode cfg none = some (S', out))
    {q : Nat} (hq : q ∉ reqsOf S.stage.runningBatch) : S'.heap q = S.heap q := by
  rcases orDecode_call h with ⟨rfl, hheap, _⟩ |
    ⟨running, S₁, checked, S₂, decode, hrun, hcall, hdecode, rfl, hheap, _⟩
  · rw [hheap]
  · rw [hheap, prepareForDecode_heap hdecode]
    obtain ⟨filtered, hfilter, hcall⟩ := Option.bind_eq_some_iff.mp hcall
    have hnot : q ∉ filtered.reqs := by
      rw [ScheduleBatch.filterBatch_reqs hfilter]
      intro hmem
      exact hq (by simpa [reqsOf, hrun] using (List.mem_filter.mp hmem).1)
    split at hcall
    next => simp at hcall
    next =>
      obtain ⟨⟨S₃, checked'⟩, hcheck, hcall⟩ := Option.bind_eq_some_iff.mp hcall
      obtain ⟨rfl, rfl⟩ := Prod.mk.inj (Option.some.inj hcall)
      change S₃.heap q = S.heap q
      unfold retractOrDecay at hcheck
      split at hcheck
      next =>
        obtain ⟨⟨S₄, left, retracted, ratio⟩, hretract, hcheck⟩ := Option.bind_eq_some_iff.mp hcheck
        obtain ⟨rfl, _⟩ := Prod.mk.inj (Option.some.inj hcheck)
        obtain ⟨⟨S₅, retracted', kept⟩, hloop, hretract⟩ := Option.bind_eq_some_iff.mp hretract
        obtain ⟨_, _, hretract⟩ := Option.bind_eq_some_iff.mp hretract
        obtain ⟨_, _, hretract⟩ := Option.bind_eq_some_iff.mp hretract
        obtain ⟨rfl, _⟩ := Prod.mk.inj (Option.some.inj hretract)
        exact retractLoop_other hloop hnot
      next =>
        obtain ⟨rfl, _⟩ := Prod.mk.inj (Option.some.inj hcheck)
        rfl

omit [MemoryPools M] in
theorem processReqs_rangeKept {process : Sched M → Nat → Nat → Option (Sched M)}
    (count : Int → Int) (due : Int → Bool)
    (hone : ∀ {S S' q token}, process S q token = some S' →
      Resulted S S' q (count (S.heap q).isBeingChunked))
    (hundue : ∀ {S S' : Sched M} {q token}, process S q token = some S' →
      due (S.heap q).isBeingChunked = false → RangeKept S S' q)
    {results : List (Nat × Nat)} (h : processReqs process results S = some S')
    (hnodup : (results.map Prod.fst).Nodup) {q : Nat}
    (hq : due (S.heap q).isBeingChunked = false) : RangeKept S S' q := by
  induction results generalizing S with
  | nil =>
    cases Option.some.inj h
    exact .of_eq rfl
  | cons result results ih =>
    obtain ⟨p, token⟩ := result
    obtain ⟨S₁, hfirst, hrest⟩ := Option.bind_eq_some_iff.mp h
    rw [List.map_cons, List.nodup_cons] at hnodup
    by_cases hp : q = p
    · subst hp
      refine (hundue hfirst hq).trans (.of_eq ?_)
      exact (processReqs_spec count hone hrest hnodup.2).other q hnodup.1
    · have hsame := (hone hfirst).other hp
      exact (RangeKept.of_eq hsame).trans (ih hrest hnodup.2 (hsame ▸ hq))

/-- The result of a chunk that goes on changes its counter only. -/
theorem deliver_rangeKept {idx : Nat} {batch : ScheduleBatch} {nextTokenIds : List Nat}
    (h : S.deliver cfg idx batch nextTokenIds = some S') (hnodup : batch.reqs.Nodup) {q : Nat}
    (hq : dueOf batch (S.heap q).isBeingChunked = false) : RangeKept S S' q := by
  unfold deliver processBatchResult at h
  dsimp only at h
  have hfst := zip_fst batch nextTokenIds
  have hnodup' := hnodup.sublist (reached_sublist batch nextTokenIds)
  have hmode : batch.forwardMode.isDecode = false := (Bool.or_eq_false_iff.mp hq).1
  rw [if_neg (by simp [hmode])] at h
  have hkept := processReqs_rangeKept countedDown (fun n => decide (n ≤ 0)) processPrefillReq_spec
    (fun {S S' q token} hone hundue => ?_) h (by rwa [hfst]) (q := q)
    (by simpa [dueOf, hmode] using hq)
  · exact ⟨⟨hkept.fillIds, hkept.target⟩, hkept.prefixLen⟩
  · unfold processPrefillReq at hone
    rw [if_neg (by simpa using hundue)] at hone
    cases Option.some.inj hone
    exact ⟨⟨by simp [setReq], by simp [setReq, Req.target]⟩, by simp [setReq]⟩

end Sched

end FastPP
