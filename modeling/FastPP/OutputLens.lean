import FastPP.RoundsRun

namespace FastPP

namespace PrefillAdder

theorem addOrTruncate_outputIdsLen (cfg : Config) (adder : PrefillAdder) (q : Nat) (req : Req)
    (whole : Bool) : (addOrTruncate cfg adder q req whole).2.2.outputIdsLen = req.outputIdsLen := by
  unfold addOrTruncate
  split
  next => rfl
  next =>
    dsimp only
    split
    next => rfl
    next => rfl

theorem addOneReq_outputIdsLen (cfg : Config) (heap : Nat → Req) (adder : PrefillAdder) (q : Nat)
    (req : Req) : (addOneReq cfg heap adder q req).2.2.outputIdsLen = req.outputIdsLen := by
  unfold addOneReq addOneReqIgnoreEosSafe
  split
  next =>
    dsimp only
    split
    next => rfl
    next => exact addOrTruncate_outputIdsLen ..
  next =>
    dsimp only
    split
    next => rfl
    next =>
      split
      next => rfl
      next =>
        split
        next => rfl
        next => exact addOrTruncate_outputIdsLen ..

end PrefillAdder

namespace Sched

variable {M : Type} {cfg : Config} {S S' S'' : Sched M}

/-- Every request keeps its `output_ids_len`. -/
def LensKept (S S' : Sched M) : Prop :=
  ∀ q, (S'.heap q).outputIdsLen = (S.heap q).outputIdsLen

theorem LensKept.of_heap (h : S'.heap = S.heap) : LensKept S S' := fun q => by rw [h]

theorem LensKept.trans (h : LensKept S S') (h' : LensKept S' S'') : LensKept S S'' :=
  fun q => (h' q).trans (h q)

theorem lensKept_setReq {q : Nat} {r : Req} (h : r.outputIdsLen = (S.heap q).outputIdsLen) :
    LensKept S (S.setReq q r) := by
  intro p
  by_cases hp : p = q
  · subst hp
    simpa only [setReq, Function.update_self] using h
  · simp only [setReq, Function.update_of_ne hp]

theorem lensKept_modifyReqs (S : Sched M) (qs : List Nat) {f : Req → Req}
    (h : ∀ r, (f r).outputIdsLen = r.outputIdsLen) : LensKept S (S.modifyReqs qs f) := by
  intro p
  show (if p ∈ qs then f (S.heap p) else S.heap p).outputIdsLen = _
  split
  next => exact h _
  next => rfl

theorem bumpOutputLens_len (S : Sched M) (reqs : List Nat) (q : Nat) :
    ((S.bumpOutputLens reqs).heap q).outputIdsLen =
      (S.heap q).outputIdsLen + if q ∈ reqs then 1 else 0 := by
  show (if q ∈ reqs then _ else S.heap q).outputIdsLen = _
  split
  next => rfl
  next => rfl

theorem mergeIntoRunning_len {last : ScheduleBatch} (h : S.mergeIntoRunning last = some S')
    (q : Nat) : (S'.heap q).outputIdsLen =
      (S.heap q).outputIdsLen + if q ∈ last.reqs then 1 else 0 := by
  unfold mergeIntoRunning at h
  split at h
  next hempty =>
    obtain rfl := Option.some.inj h
    have hnil : last.reqs = [] := by simpa [ScheduleBatch.isEmpty] using hempty
    rw [hnil, if_neg (by simp), Nat.add_zero]
  next =>
    dsimp only at h
    rw [← bumpOutputLens_len]
    split at h
    next =>
      obtain rfl := Option.some.inj h
      rfl
    next =>
      obtain ⟨_, _, h⟩ := Option.bind_eq_some_iff.mp h
      obtain rfl := Option.some.inj h
      rfl

theorem takeListed_lens (S : Sched M) (list : List Nat) (chunk : Option Nat) :
    LensKept S (S.takeListed list chunk) := by
  have htaken : LensKept S (S.modifyReqs list fun req => { req with ppIdx := some S.cur }) :=
    lensKept_modifyReqs S list fun _ => rfl
  unfold takeListed countChunk
  dsimp only
  split
  next => exact htaken
  next => exact htaken.trans (lensKept_setReq rfl)

variable [MemoryPools M]

theorem cacheUnfinishedReq_lens {q : Nat} (h : S.cacheUnfinishedReq q = some S') :
    LensKept S S' := by
  obtain ⟨view, _, h⟩ := Option.bind_eq_some_iff.mp h
  obtain rfl := Option.some.inj h
  have hset := @lensKept_setReq M S q
    { S.heap q with prefixLen := (S.heap q).fillIds.length } rfl
  exact hset

theorem freeReqSlot_lens {q : Nat} (h : S.freeReqSlot q = some S') : LensKept S S' := by
  obtain ⟨_, _, h⟩ := Option.bind_eq_some_iff.mp h
  obtain rfl := Option.some.inj h
  exact .of_heap rfl

theorem moveChunkOut_lens {last out : ScheduleBatch} (h : S.moveChunkOut last = some (S', out)) :
    LensKept S S' := by
  unfold moveChunkOut at h
  split at h
  next =>
    obtain ⟨rfl, _⟩ := Prod.mk.inj (Option.some.inj h)
    exact .of_heap rfl
  next =>
    obtain ⟨_, _, h⟩ := Option.bind_eq_some_iff.mp h
    split at h
    next =>
      obtain ⟨S₁, hcache, h⟩ := Option.bind_eq_some_iff.mp h
      obtain ⟨S₂, hfree, h⟩ := Option.bind_eq_some_iff.mp h
      obtain ⟨rfl, _⟩ := Prod.mk.inj (Option.some.inj h)
      have hfreed := freeReqSlot_lens hfree
      exact (cacheUnfinishedReq_lens hcache).trans hfreed
    next =>
      obtain ⟨rfl, _⟩ := Prod.mk.inj (Option.some.inj h)
      exact .of_heap rfl

/-- The requests whose `output_ids_len` grows at the merge: those of a prefill batch that join
the running ones, or all of a decode batch. -/
def counting (S : Sched M) : List Nat :=
  match S.stage.last with
  | none => []
  | some last => if last.forwardMode.isExtend then S.joining last else last.reqs

theorem mergeLastBatch_len (h : S.mergeLastBatch = some S') (q : Nat) :
    (S'.heap q).outputIdsLen =
      (S.heap q).outputIdsLen + if q ∈ S.counting then 1 else 0 := by
  unfold mergeLastBatch at h
  split at h
  next hnone =>
    obtain rfl := Option.some.inj h
    have hcounting : S.counting = [] := by rw [counting, hnone]
    rw [hcounting, if_neg (by simp), Nat.add_zero]
  next last hlast =>
    split at h
    next hmode =>
      have hcounting : S.counting = S.joining last := by simp only [counting, hlast, if_pos hmode]
      obtain ⟨⟨S₁, moved⟩, hmove, h⟩ := Option.bind_eq_some_iff.mp h
      have hreqs : moved.reqs = S.joining last := (moveChunkOut_spec hmove).2.2.2.2.2
      have hlen := mergeIntoRunning_len h q
      rw [hreqs] at hlen
      rw [hcounting, hlen]
      congr 1
      exact moveChunkOut_lens hmove q
    next hmode =>
      have hcounting : S.counting = last.reqs := by simp only [counting, hlast, if_neg hmode]
      obtain rfl := Option.some.inj h
      rw [hcounting, bumpOutputLens_len]

theorem fetchChunkedPrefill_lens (h : S.fetchChunkedPrefill cfg = some S') : LensKept S S' := by
  unfold fetchChunkedPrefill at h
  split at h
  next =>
    obtain rfl := Option.some.inj h
    exact .of_heap rfl
  next =>
    split at h
    next =>
      obtain rfl := Option.some.inj h
      exact .of_heap rfl
    next =>
      obtain ⟨S₁, hcache, hfree⟩ := Option.bind_eq_some_iff.mp h
      have hcached : LensKept S S₁ := fun q => cacheUnfinishedReq_lens hcache q
      exact hcached.trans (freeReqSlot_lens hfree)

omit [MemoryPools M] in
theorem addCarriedChunk_lens {adder adder' : PrefillAdder}
    (h : S.addCarriedChunk cfg adder = some (S', adder')) : LensKept S S' := by
  unfold addCarriedChunk at h
  split at h
  next =>
    obtain ⟨rfl, _⟩ := Prod.mk.inj (Option.some.inj h)
    exact .of_heap rfl
  next q _ =>
    obtain ⟨added, hadd, h⟩ := Option.bind_eq_some_iff.mp h
    obtain ⟨rfl, _⟩ := Prod.mk.inj (Option.some.inj h)
    obtain ⟨rem, _, hadd⟩ := Option.bind_eq_some_iff.mp hadd
    obtain rfl := Option.some.inj hadd
    have hset : LensKept S (S.setReq q (PrefillAdder.truncate ((S.heap q).initNextRoundInput none)
        (min ((S.heap q).initNextRoundInput none).extendInputLen rem))) := lensKept_setReq rfl
    exact hset

theorem addWaitingReqs_lens {runningReqs queue : List Nat} {adder adder' : PrefillAdder}
    (h : addWaitingReqs cfg runningReqs queue S adder = (S', adder')) : LensKept S S' := by
  induction queue generalizing S adder with
  | nil =>
    obtain ⟨rfl, _⟩ := Prod.mk.inj h
    exact .of_heap rfl
  | cons q queue ih =>
    unfold addWaitingReqs at h
    split at h
    next =>
      obtain ⟨rfl, _⟩ := Prod.mk.inj h
      exact .of_heap rfl
    next =>
      split at h
      next =>
        obtain ⟨rfl, _⟩ := Prod.mk.inj h
        exact .of_heap rfl
      next =>
        dsimp only at h
        have hinit : LensKept S (S.initNextRoundInput q) := by
          have hset := @lensKept_setReq M S q ((S.heap q).initNextRoundInput
            (some fun keyLen => (S.matchPrefix (S.heap q).rid keyLen).2)) rfl
          exact hset
        have hadded : LensKept S ((S.initNextRoundInput q).setReq q
            (adder.addOneReq cfg (S.initNextRoundInput q).heap q
              ((S.initNextRoundInput q).heap q)).2.2) :=
          hinit.trans (lensKept_setReq (PrefillAdder.addOneReq_outputIdsLen ..))
        split at h
        next => exact hadded.trans (ih h)
        next =>
          obtain ⟨rfl, _⟩ := Prod.mk.inj h
          exact hadded
        next =>
          obtain ⟨rfl, _⟩ := Prod.mk.inj h
          exact hadded

theorem selectPrefill_lens {adder : PrefillAdder} (h : S.selectPrefill cfg = some (S', adder)) :
    LensKept S S' := by
  obtain ⟨⟨S₁, adder₁⟩, hcarried, h⟩ := Option.bind_eq_some_iff.mp h
  obtain ⟨queue, rng, hqueue, _⟩ := calcPriority_spec cfg S
  rw [hqueue] at hcarried
  have hsorted : LensKept S { S with waitingQueue := queue, rng := rng } := .of_heap rfl
  exact (hsorted.trans (addCarriedChunk_lens hcarried)).trans
    (addWaitingReqs_lens (Option.some.inj h))

theorem placeReqs_lens {pairs : List (Nat × Nat)} (h : S.placeReqs pairs = some S') :
    LensKept S S' := by
  induction pairs generalizing S with
  | nil =>
    obtain rfl := Option.some.inj h
    exact .of_heap rfl
  | cons pair pairs ih =>
    obtain ⟨S₁, hplace, h⟩ := Option.bind_eq_some_iff.mp h
    refine LensKept.trans ?_ (ih h)
    unfold placeReq at hplace
    dsimp only at hplace
    split at hplace
    next =>
      obtain rfl := Option.some.inj hplace
      have hset := @lensKept_setReq M S pair.1 (S.heap pair.1).prepareForExtend rfl
      exact hset
    next => simp at hplace

theorem prepareForExtend_lens {reqs : List Nat} {batch : ScheduleBatch}
    (h : S.prepareForExtend reqs = some (S', batch)) : LensKept S S' := by
  obtain ⟨_, _, h⟩ := Option.bind_eq_some_iff.mp h
  obtain ⟨_, _, h⟩ := Option.bind_eq_some_iff.mp h
  obtain ⟨S₁, hplace, h⟩ := Option.bind_eq_some_iff.mp h
  obtain ⟨_, _, h⟩ := Option.bind_eq_some_iff.mp h
  obtain ⟨rfl, _⟩ := Prod.mk.inj (Option.some.inj h)
  have hplaced := placeReqs_lens hplace
  exact hplaced

theorem mixUnfinished_lens {batch running out : ScheduleBatch}
    (h : S.mixUnfinished batch running = some (S', out)) : LensKept S S' := by
  unfold mixUnfinished at h
  split at h
  next =>
    obtain ⟨rfl, _⟩ := Prod.mk.inj (Option.some.inj h)
    exact .of_heap rfl
  next =>
    obtain ⟨⟨S₁, decode⟩, hdecode, h⟩ := Option.bind_eq_some_iff.mp h
    have hdecoded : LensKept S S₁ := .of_heap (prepareForDecode_heap hdecode)
    obtain ⟨_, _, h⟩ := Option.bind_eq_some_iff.mp h
    obtain ⟨_, _, h⟩ := Option.bind_eq_some_iff.mp h
    obtain ⟨_, _, h⟩ := Option.bind_eq_some_iff.mp h
    obtain ⟨_, _, h⟩ := Option.bind_eq_some_iff.mp h
    obtain ⟨_, _, h⟩ := Option.bind_eq_some_iff.mp h
    obtain ⟨rfl, _⟩ := Prod.mk.inj (Option.some.inj h)
    exact hdecoded.trans (lensKept_modifyReqs S₁ decode.reqs fun _ => rfl)

theorem mixChunk_lens {batch out : ScheduleBatch} (h : S.mixChunk cfg batch = some (S', out)) :
    LensKept S S' := by
  unfold mixChunk at h
  split at h
  next =>
    obtain ⟨rfl, _⟩ := Prod.mk.inj (Option.some.inj h)
    exact .of_heap rfl
  next =>
    split at h
    next =>
      obtain ⟨filtered, _, h⟩ := Option.bind_eq_some_iff.mp h
      obtain ⟨⟨S₁, mixed⟩, hmixed, h⟩ := Option.bind_eq_some_iff.mp h
      obtain ⟨rfl, _⟩ := Prod.mk.inj (Option.some.inj h)
      have hmix := mixUnfinished_lens hmixed
      exact hmix
    next =>
      obtain ⟨rfl, _⟩ := Prod.mk.inj (Option.some.inj h)
      exact .of_heap rfl

theorem formPrefill_lens {adder : PrefillAdder} {out : Option ScheduleBatch}
    (h : S.formPrefill cfg adder = some (S', out)) : LensKept S S' := by
  unfold formPrefill at h
  split at h
  next =>
    obtain ⟨rfl, _⟩ := Prod.mk.inj (Option.some.inj h)
    exact .of_heap rfl
  next =>
    obtain ⟨chunk, _, h⟩ := Option.bind_eq_some_iff.mp h
    obtain ⟨⟨S₁, formed⟩, hextend, h⟩ := Option.bind_eq_some_iff.mp h
    obtain ⟨⟨S₂, mixed⟩, hmix, h⟩ := Option.bind_eq_some_iff.mp h
    obtain ⟨rfl, _⟩ := Prod.mk.inj (Option.some.inj h)
    exact ((takeListed_lens S adder.canRunList chunk).trans
      (prepareForExtend_lens hextend)).trans (mixChunk_lens hmix)

theorem getNewBatchPrefill_lens {out : Option ScheduleBatch}
    (h : S.getNewBatchPrefill cfg = some (S', out)) : LensKept S S' := by
  obtain ⟨S₁, hfetch, h⟩ := Option.bind_eq_some_iff.mp h
  have hfetched := fetchChunkedPrefill_lens hfetch
  unfold prefillFetched at h
  split at h
  next =>
    obtain ⟨rfl, _⟩ := Prod.mk.inj (Option.some.inj h)
    exact hfetched
  next =>
    split at h
    next =>
      obtain ⟨rfl, _⟩ := Prod.mk.inj (Option.some.inj h)
      exact hfetched
    next =>
      obtain ⟨⟨S₂, adder⟩, hselect, hform⟩ := Option.bind_eq_some_iff.mp h
      exact (hfetched.trans (selectPrefill_lens hselect)).trans (formPrefill_lens hform)

theorem retractLoop_lens {batch : ScheduleBatch} {order kept retracted : List Nat}
    {first : Bool} {available : Int}
    (h : retractLoop cfg batch order first available S = some (S', retracted, kept)) :
    LensKept S S' := by
  induction order generalizing S first available retracted with
  | nil =>
    unfold retractLoop at h
    split at h
    next => simp at h
    next =>
      obtain ⟨rfl, _⟩ := Prod.mk.inj (Option.some.inj h)
      exact .of_heap rfl
  | cons idx order ih =>
    unfold retractLoop at h
    split at h
    next =>
      split at h
      next =>
        split at h
        next =>
          obtain ⟨rfl, _⟩ := Prod.mk.inj (Option.some.inj h)
          exact .of_heap rfl
        next => simp at h
      next =>
        obtain ⟨⟨S₁, p, seqLen⟩, hone, h⟩ := Option.bind_eq_some_iff.mp h
        obtain ⟨⟨S₂, more, kept'⟩, hrest, h⟩ := Option.bind_eq_some_iff.mp h
        obtain ⟨rfl, hpair⟩ := Prod.mk.inj (Option.some.inj h)
        obtain ⟨_, rfl⟩ := Prod.mk.inj hpair
        refine LensKept.trans ?_ (ih hrest)
        obtain ⟨p', _, hone⟩ := Option.bind_eq_some_iff.mp hone
        obtain ⟨_, _, hone⟩ := Option.bind_eq_some_iff.mp hone
        obtain ⟨_, _, hone⟩ := Option.bind_eq_some_iff.mp hone
        obtain ⟨_, _, hone⟩ := Option.bind_eq_some_iff.mp hone
        obtain ⟨hS, _⟩ := Prod.mk.inj (Option.some.inj hone)
        rw [← hS]
        have hset := @lensKept_setReq M S p' (S.heap p').resetForRetract rfl
        exact hset
    next =>
      obtain ⟨rfl, _⟩ := Prod.mk.inj (Option.some.inj h)
      exact .of_heap rfl

theorem orDecode_lens {newBatch out : Option ScheduleBatch}
    (h : S.orDecode cfg newBatch = some (S', out)) : LensKept S S' := by
  cases newBatch with
  | some batch =>
    obtain ⟨rfl, _⟩ := Prod.mk.inj (Option.some.inj h)
    exact .of_heap rfl
  | none =>
    rcases orDecode_call h with ⟨_, hheap, _⟩ |
      ⟨running, S₁, checked, S₂, decode, _, hcall, hdecode, _, hheap, _⟩
    · exact .of_heap hheap
    · have hend : LensKept S₁ S' := .of_heap (hheap.trans (prepareForDecode_heap hdecode))
      refine LensKept.trans ?_ hend
      obtain ⟨_, _, hcall⟩ := Option.bind_eq_some_iff.mp hcall
      split at hcall
      next => simp at hcall
      next =>
        obtain ⟨⟨S₃, checked'⟩, hcheck, hcall⟩ := Option.bind_eq_some_iff.mp hcall
        obtain ⟨rfl, _⟩ := Prod.mk.inj (Option.some.inj hcall)
        show LensKept S S₃
        unfold retractOrDecay at hcheck
        split at hcheck
        next =>
          obtain ⟨⟨S₄, left, retracted, ratio⟩, hretract, hcheck⟩ :=
            Option.bind_eq_some_iff.mp hcheck
          obtain ⟨rfl, _⟩ := Prod.mk.inj (Option.some.inj hcheck)
          obtain ⟨⟨S₅, retracted', kept⟩, hloop, hretract⟩ := Option.bind_eq_some_iff.mp hretract
          obtain ⟨_, _, hretract⟩ := Option.bind_eq_some_iff.mp hretract
          obtain ⟨_, _, hretract⟩ := Option.bind_eq_some_iff.mp hretract
          obtain ⟨rfl, _⟩ := Prod.mk.inj (Option.some.inj hretract)
          have hretracted := retractLoop_lens hloop
          exact hretracted
        next =>
          obtain ⟨rfl, _⟩ := Prod.mk.inj (Option.some.inj hcheck)
          exact .of_heap rfl

/-- After the merge a step moves no `output_ids_len` any more. -/
theorem SchedulePhases.lens {input : StepInput} {merged balanced prefilled decoded : Sched M}
    {newBatch out : Option ScheduleBatch}
    (p : SchedulePhases cfg input S merged balanced prefilled decoded newBatch out) :
    LensKept merged (decoded.setLastBatch out) := by
  have hbalanced : LensKept merged balanced := .of_heap (rebalanceIfEnabled_heap p.rebalance)
  have hdecoded := orDecode_lens p.decode
  exact (hbalanced.trans (getNewBatchPrefill_lens p.prefill)).trans hdecoded

end Sched

end FastPP
