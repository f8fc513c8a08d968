import FastPP.TurnRows
import FastPP.AlignedStep
import FastPP.SlotCalls

namespace FastPP

namespace Sched

variable {M : Type} [MemoryPools M] {cfg : Config} {complete : Prop} {S S' : Sched M}

omit [MemoryPools M] in
theorem appendToken_outputs {q token : Nat} (h : S.appendToken cfg q token = some S') :
    (S'.heap q).outputIds = (S.heap q).outputIds ++ [token] := by
  obtain ⟨r, happend, h⟩ := Option.bind_eq_some_iff.mp h
  cases Option.some.inj h
  obtain ⟨_, _, rfl⟩ := Req.appendToken_spec happend
  simp [setReq]

theorem cachePrefilledReq_outputs {decodingReqs : List Nat} {q : Nat}
    (h : S.cachePrefilledReq decodingReqs q = some S') :
    (S'.heap q).outputIds = (S.heap q).outputIds := by
  unfold cachePrefilledReq at h
  split at h
  next =>
    obtain ⟨_, _, h⟩ := Option.bind_eq_some_iff.mp h
    cases Option.some.inj h
    rfl
  next =>
    split at h
    next => cases Option.some.inj h; rfl
    next =>
      obtain ⟨_, _, h⟩ := Option.bind_eq_some_iff.mp h
      cases Option.some.inj h
      simp [setReq]

/-- The token of a chunk that is not the last one is dropped. -/
theorem processPrefillReq_outputs {decodingReqs : List Nat} {q token : Nat}
    (h : S.processPrefillReq cfg decodingReqs q token = some S') :
    (S'.heap q).outputIds = (S.heap q).outputIds ++
      if (S.heap q).isBeingChunked ≤ 0 then [token] else [] := by
  unfold processPrefillReq at h
  split at h
  next hcount =>
    obtain ⟨S₁, happend, h⟩ := Option.bind_eq_some_iff.mp h
    obtain ⟨S₂, hcache, h⟩ := Option.bind_eq_some_iff.mp h
    cases Option.some.inj h
    have hlogprob : ((S₂.addLogprobReturnValues q).heap q).outputIds = (S₂.heap q).outputIds := by
      unfold addLogprobReturnValues
      split
      next => simp [setReq]
      next => rfl
    rw [hlogprob, cachePrefilledReq_outputs hcache, appendToken_outputs happend, if_pos hcount]
  next hcount =>
    cases Option.some.inj h
    rw [if_neg hcount]
    simp [setReq]

theorem processDecodeReq_outputs {q token : Nat} (h : S.processDecodeReq cfg q token = some S') :
    (S'.heap q).outputIds = (S.heap q).outputIds ++ [token] := by
  obtain ⟨S₁, happend, h⟩ := Option.bind_eq_some_iff.mp h
  rw [← appendToken_outputs happend]
  split at h
  next =>
    obtain ⟨_, _, h⟩ := Option.bind_eq_some_iff.mp h
    cases Option.some.inj h
    rfl
  next => rw [Option.some.inj h]

omit [MemoryPools M] in
/-- Each request of a batch gets the token of its own row, if its result is due. -/
theorem processReqs_outputs {process : Sched M → Nat → Nat → Option (Sched M)}
    (count : Int → Int) (due : Int → Bool)
    (hone : ∀ {S S' q token}, process S q token = some S' →
      Resulted S S' q (count (S.heap q).isBeingChunked))
    (houtputs : ∀ {S S' : Sched M} {q token}, process S q token = some S' →
      (S'.heap q).outputIds = (S.heap q).outputIds ++
        if due (S.heap q).isBeingChunked = true then [token] else [])
    {results : List (Nat × Nat)} (h : processReqs process results S = some S')
    (hnodup : (results.map Prod.fst).Nodup) {q token : Nat} (hq : (q, token) ∈ results) :
    (S'.heap q).outputIds = (S.heap q).outputIds ++
      if due (S.heap q).isBeingChunked = true then [token] else [] := by
  induction results generalizing S with
  | nil => simp at hq
  | cons result results ih =>
    obtain ⟨q', token'⟩ := result
    obtain ⟨S₁, hfirst, hrest⟩ := Option.bind_eq_some_iff.mp h
    rw [List.map_cons, List.nodup_cons] at hnodup
    rcases List.mem_cons.mp hq with heq | hmem
    · obtain ⟨rfl, rfl⟩ := Prod.mk.inj heq
      rw [(processReqs_spec count hone hrest hnodup.2).other q hnodup.1]
      exact houtputs hfirst
    · have hne : q ≠ q' := fun heq =>
        hnodup.1 (heq ▸ List.mem_map.mpr ⟨(q, token), hmem, rfl⟩)
      rw [ih hrest hnodup.2 hmem, (hone hfirst).other hne]

omit [MemoryPools M] in
theorem idxOf_lt_of_reached {batch : ScheduleBatch} {nextTokenIds : List Nat} {q : Nat}
    (hq : q ∈ reached batch nextTokenIds) :
    batch.reqs.idxOf q < batch.reqs.length ∧ batch.reqs.idxOf q < nextTokenIds.length := by
  have hsame : (reached batch nextTokenIds ++ batch.reqs.drop nextTokenIds.length).idxOf q =
      (reached batch nextTokenIds).idxOf q := List.idxOf_append_of_mem hq
  rw [reached, List.take_append_drop] at hsame
  have hlt := List.idxOf_lt_length_iff.mpr hq
  rw [reached, List.length_take] at hlt
  omega

omit [MemoryPools M] in
theorem mem_zip {batch : ScheduleBatch} {nextTokenIds : List Nat} {q : Nat}
    (hq : q ∈ reached batch nextTokenIds) :
    (q, nextTokenIds.getD (batch.reqs.idxOf q) 0) ∈ batch.reqs.zip nextTokenIds := by
  obtain ⟨hreqs, htokens⟩ := idxOf_lt_of_reached hq
  refine List.mem_iff_getElem?.mpr ⟨batch.reqs.idxOf q, ?_⟩
  rw [List.getElem?_zip_eq_some]
  exact ⟨List.getElem?_idxOf ((reached_sublist batch nextTokenIds).subset hq), by simp [htokens]⟩

theorem deliver_outputs {idx : Nat} {batch : ScheduleBatch} {nextTokenIds : List Nat}
    (h : S.deliver cfg idx batch nextTokenIds = some S') (hnodup : batch.reqs.Nodup) {q : Nat}
    (hq : q ∈ reached batch nextTokenIds) :
    (S'.heap q).outputIds = (S.heap q).outputIds ++
      if dueOf batch (S.heap q).isBeingChunked = true then
        [nextTokenIds.getD (batch.reqs.idxOf q) 0]
      else [] := by
  unfold deliver processBatchResult at h
  dsimp only at h
  have hfst := zip_fst batch nextTokenIds
  have hnodup' := hnodup.sublist (reached_sublist batch nextTokenIds)
  have hmem := mem_zip hq
  split at h
  next hmode =>
    obtain ⟨S₁, hprocess, h⟩ := Option.bind_eq_some_iff.mp h
    have hsame : S'.heap = S₁.heap := by
      rw [← Option.some.inj h]
      split <;> rfl
    rw [hsame, processReqs_outputs id (fun _ => true) processDecodeReq_spec
      (fun hone => by simpa using processDecodeReq_outputs hone) hprocess (by rwa [hfst]) hmem]
    simp [dueOf, hmode]
  next hmode =>
    rw [processReqs_outputs countedDown (fun n => decide (n ≤ 0)) processPrefillReq_spec
      (fun hone => by simpa using processPrefillReq_outputs hone) h (by rwa [hfst]) hmem]
    simp [dueOf, hmode]

end Sched

namespace Sched

section Phases

variable {M : Type} [MemoryPools M] {cfg : Config} {complete : Prop} {S S' : Sched M}

/-- The states on the way through `get_new_batch_prefill` when it forms a batch. -/
structure ExtendPhases (cfg : Config) (selected formed S' : Sched M) (adder : PrefillAdder)
    (chunk : Option Nat) (extended batch : ScheduleBatch) : Prop where
  carried : chunkAfter selected.stage.beingChunkedReq adder.newBeingChunkedReq = some chunk
  extend : (selected.takeListed adder.canRunList chunk).prepareForExtend adder.canRunList =
    some (formed, extended)
  mix : formed.mixChunk cfg extended = some (S', batch)

theorem PrefillPhases.extends {fetched selected : Sched M} {adder : PrefillAdder}
    {batch : ScheduleBatch} (h : PrefillPhases cfg S fetched selected S' adder batch) :
    adder.canRunList ≠ [] ∧ ∃ formed chunk extended,
      ExtendPhases cfg selected formed S' adder chunk extended batch := by
  have hform := h.form
  unfold formPrefill at hform
  split at hform
  next => simp at hform
  next hne =>
    obtain ⟨chunk, hchunk, hform⟩ := Option.bind_eq_some_iff.mp hform
    obtain ⟨⟨formed, extended⟩, hextend, hform⟩ := Option.bind_eq_some_iff.mp hform
    obtain ⟨⟨S₂, b₂⟩, hmix, hform⟩ := Option.bind_eq_some_iff.mp hform
    obtain ⟨rfl, hbatch⟩ := Prod.mk.inj (Option.some.inj hform)
    obtain rfl := Option.some.inj hbatch
    exact ⟨hne, formed, chunk, extended, hchunk, hextend, hmix⟩

/-- A prefill batch comes out of a call of `prepare_for_extend`. -/
theorem PrefillPhases.extendCall {input : StepInput} {balanced fetched selected : Sched M}
    {adder : PrefillAdder} {batch : ScheduleBatch} {chunk : Option Nat}
    (hbefore : S.beforePrefill cfg input = some balanced)
    (hprefill : balanced.getNewBatchPrefill cfg = some (S', some batch))
    (h : PrefillPhases cfg balanced fetched selected S' adder batch)
    (hchunk : chunkAfter selected.stage.beingChunkedReq adder.newBeingChunkedReq = some chunk) :
    S.extendCall cfg input =
      some (selected.takeListed adder.canRunList chunk, adder.canRunList) := by
  have hne := h.extends.1
  unfold getNewBatchPrefill at hprefill
  rw [h.fetch] at hprefill
  simp only [Option.bind_eq_bind, Option.bind_some] at hprefill
  unfold prefillFetched at hprefill
  split at hprefill
  next => simp at hprefill
  next hgoes =>
    split at hprefill
    next => simp at hprefill
    next hroom =>
      unfold Sched.extendCall
      rw [hbefore]
      simp only [Option.bind_eq_bind, Option.bind_some, h.fetch, if_neg hgoes, if_neg hroom,
        h.select, if_neg hne, hchunk]
      rfl

end Phases

variable {cfg : Config} {complete : Prop} {i idx : Nat} {flight : Nat → Bool} {S S' : Sched Memory}

theorem setLastBatch_rowKept (S : Sched Memory) (batch : Option ScheduleBatch) (q : Nat) :
    RowKept S (S.setLastBatch batch) q := ⟨⟨rfl, rfl, rfl⟩, rfl, rfl, rfl⟩

/-- The new prefill batch is aligned but for its chunked request. -/
theorem BatchesInTurn.prefill {formed : Sched Memory} {adder : PrefillAdder}
    {chunk : Option Nat} {extended batch : ScheduleBatch} (hi : i < cfg.ppSize)
    (h : InTurn complete cfg i flight S) (hk : BatchesInTurn cfg i flight S)
    (hpre : Prefilled cfg S S' batch adder.canRunList)
    (hx : Extended S formed adder.canRunList chunk extended)
    (hnew : ∀ q ∈ reqsOf S.pendingBatch ++ (reqsOf (S.stages i).runningBatch ++ S.others cfg i),
      q ∉ adder.canRunList)
    (hmix : formed.mixChunk cfg extended = some (S', batch)) :
    S'.PrefillAligned batch ∧
      BatchesKept cfg (fun j => decide (j = i) || flight j) (S'.setLastBatch (some batch)) := by
  have hstage : S.stage = S.stages i := by rw [stage, h.cur]
  have hrunning : ∀ b, formed.stage.runningBatch = some b → b.reqs ≠ [] →
      formed.AlignedAt false b := fun b hb hne => by
    rw [hx.running, hstage] at hb
    refine (hk.running b hb hne).keep fun q hq => hx.kept q (hnew q ?_)
    refine List.mem_append_right _ (List.mem_append_left _ ?_)
    simpa [reqsOf, hb] using hq
  have hdisj : ∀ q ∈ extended.reqs, q ∉ reqsOf formed.stage.runningBatch := fun q hq hmem => by
    rw [hx.running, hstage] at hmem
    exact hnew q (List.mem_append_right _ (List.mem_append_left _ hmem)) (hx.reqs ▸ hq)
  have haligned := mixChunk_aligned hmix hx.aligned hx.decodingReqs hx.mode hrunning hdisj
  have hmixed := mixChunk_spec (by rw [hx.mode]; rfl) hmix
  have hafter : ∀ q, RowKept formed S' q := fun q =>
    .of_prepared (hmixed.heap q) (by rw [(mixChunk_rows hmix).reqPoolIdx])
  have hkept : ∀ q ∉ adder.canRunList, RowKept S (S'.setLastBatch (some batch)) q := fun q hq =>
    ((hx.kept q hq).trans (hafter q)).trans (setLastBatch_rowKept S' _ q)
  have hparams : ∀ q, (S.heap q).SameParams ((S'.setLastBatch (some batch)).heap q) := fun q =>
    ⟨(hafter q).params.samplingParams.trans (hx.params q).samplingParams,
      (hafter q).params.returnLogprob.trans (hx.params q).returnLogprob,
      (hafter q).params.topLogprobsNum.trans (hx.params q).topLogprobsNum⟩
  have hchunk : S'.stage.beingChunkedReq = chunk := hmixed.beingChunkedReq.trans hx.chunkLeft
  have hcur : S'.cur = i := by rw [Sched.cur, hpre.curPP]; exact h.cur
  obtain ⟨hothers, hself⟩ := setLastBatch_stages S' (some batch)
  rw [hcur] at hothers hself
  simp only [hpre.isDecode, Bool.false_eq_true, if_false] at hself
  obtain ⟨hmixfilled, hmixreqs⟩ := mixChunk_filled hmix
  refine ⟨haligned, fun b hb hne => ?_, fun j hj => ?_⟩
  · change S'.pendingBatch = some b at hb
    rw [hpre.pendingBatch] at hb
    refine (hk.pending b hb hne).keep fun q hq => hkept q (hnew q ?_)
    exact List.mem_append_left _ (by simpa [reqsOf, hb] using hq)
  · rcases eq_or_ne j i with rfl | hne
    · rw [hself, hchunk]
      refine ⟨fun b hb hne => ?_, fun b hb => ?_⟩
      · simp only [reduceCtorEq, decide_false, Bool.and_false]
        change S'.stage.runningBatch = some b at hb
        rcases hmixed.reqs with ⟨_, hsame⟩ | ⟨_, hnone⟩
        · rw [hsame] at hb
          exact ((hrunning b hb hne).keep fun q _ => hafter q).keep fun q _ =>
            setLastBatch_rowKept S' _ q
        · simp [hnone] at hb
      · obtain rfl : batch = b := by simpa using hb
        refine ⟨S'.filledRows, haligned.toAlignedFields, fun q hq hne => ⟨rfl, ?_⟩, by simp⟩
        have hfilled : (S'.heap q).Filled := by
          rcases hmixreqs q hq with hmem | hfilled
          · exact hmixfilled q (hx.filled q (hx.reqs ▸ hmem) hne)
          · exact hfilled
        unfold Req.Filled at hfilled
        simp only [filledRows, hfilled, List.length_append, rows, decide_true, Bool.true_or,
          if_true, Nat.sub_zero]
        rfl
    · simp only [hne, decide_false, Bool.false_or]
      rw [hothers j hne, hpre.stages j (h.cur ▸ hne)]
      refine (hk.others j hj hne).keep (fun q _ => hparams q) fun q hq => hkept q (hnew q ?_)
      exact List.mem_append_right _ (List.mem_append_right _ (mem_others hj hne hq))

/-- The running batch that decodes is dispatched. -/
theorem BatchesInTurn.decode (hi : i < cfg.ppSize) (h : InTurn complete cfg i flight S)
    (hk : BatchesInTurn cfg i flight S) {S'' : Sched Memory} {out : Option ScheduleBatch}
    (hform : S.getNewBatchPrefill cfg = some (S', none)) (hn : NotPrefilled cfg S S')
    (hdec : S'.orDecode cfg none = some (S'', out)) (hd : Decoded S' S'' out) :
    (∀ b, out = some b → S''.AlignedAt true b ∧
      b.inputIds = some (b.reqs.map fun q => (S''.heap q).lastToken)) ∧
      BatchesKept cfg (fun j => decide (j = i) || flight j) (S''.setLastBatch out) := by
  have hcur' : S'.cur = i := hn.toFrame.cur.trans h.cur
  have hcur : S''.cur = i := hd.toFrame.cur.trans hcur'
  have hstage : S.stage = S.stages i := by rw [stage, h.cur]
  have hfirst := getNewBatchPrefill_rowKept hform
  obtain ⟨hthen, hout⟩ := orDecode_aligned hdec fun b hb hne => by
    rw [hn.stage, hstage] at hb
    exact (hk.running b hb hne).keep fun q _ => hfirst q
  have hkept : ∀ q, RowKept S (S''.setLastBatch out) q := fun q =>
    ((hfirst q).trans (hthen q)).trans (setLastBatch_rowKept S'' _ q)
  obtain ⟨hothers, hself⟩ := setLastBatch_stages S'' out
  rw [hcur] at hothers hself
  refine ⟨hout, fun b hb hne => ?_, fun j hj => ?_⟩
  · change S''.pendingBatch = some b at hb
    rw [hd.pendingBatch, hn.pendingBatch] at hb
    exact (hk.pending b hb hne).keep fun q _ => hkept q
  · rcases eq_or_ne j i with rfl | hne
    · rw [hself]
      refine ⟨fun b hb hne => ?_, fun b hb => ?_⟩
      · change S''.stage.runningBatch = some b at hb
        rw [hd.running] at hb
        subst hb
        simp only [(hd.mode b rfl).1, ForwardMode.isDecode, if_true, decide_true, Bool.true_or,
          Bool.and_self]
        exact (hout b rfl).1.keep fun q _ => setLastBatch_rowKept S'' _ q
      · cases hcase : out with
        | none => simp [hcase] at hb
        | some b' => simp [hcase, (hd.mode b' hcase).1, ForwardMode.isDecode] at hb
    · simp only [hne, decide_false, Bool.false_or]
      rw [hothers j hne, hd.stages j (hcur' ▸ hne), hn.stages j (h.cur ▸ hne)]
      exact (hk.others j hj hne).keep (fun q _ => (hkept q).params) fun q _ => hkept q

end Sched

end FastPP
