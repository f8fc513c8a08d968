import FastPP.Embeddings
import FastPP.RoundsRun

namespace FastPP

/-- The inputs of a run whose messages carry embeddings. -/
def embeddedInputs (inputs : Nat → StepInput) (messages : Nat → List EmbeddedReq) :
    Nat → StepInput :=
  fun k => { inputs k with recvReqs := (messages k).map EmbeddedReq.recvReq }

/-- The generation requests of the first steps. -/
def embeddedArrivals (messages : Nat → List EmbeddedReq) (n : Nat) : List EmbeddedInput :=
  (List.range n).flatMap fun k => (messages k).filterMap fun
    | .generate embedded => some embedded
    | .abort _ => none

/-- The number of embeddings of request `q` when the first `n` steps were received. -/
def arrivedEmbeds (messages : Nat → List EmbeddedReq) (n q : Nat) : Option Nat :=
  ((embeddedArrivals messages n)[q]?).bind EmbeddedInput.numEmbeds

theorem generated_recvReq (messages : List EmbeddedReq) :
    generated (messages.map EmbeddedReq.recvReq) =
      (messages.filterMap fun
        | .generate embedded => some embedded
        | .abort _ => none).map EmbeddedInput.tokenized := by
  induction messages with
  | nil => rfl
  | cons message messages ih =>
    cases message with
    | generate embedded => exact congrArg (embedded.tokenized :: ·) ih
    | abort rid => exact ih

theorem arrivals_embeddedInputs (inputs : Nat → StepInput) (messages : Nat → List EmbeddedReq)
    (n : Nat) : Sched.arrivals (embeddedInputs inputs messages) n =
      (embeddedArrivals messages n).map EmbeddedInput.tokenized := by
  unfold Sched.arrivals embeddedArrivals
  rw [List.map_flatMap]
  exact List.flatMap_congr fun k _ => generated_recvReq (messages k)

/-- A prompt is not longer than the embeddings that it is given by. -/
theorem handledReq_embeds {cfg : Config} {embedded : EmbeddedInput} {n : Nat}
    (h : embedded.numEmbeds = some n) :
    (handledReq cfg embedded.tokenized).originInputIds.length ≤ n := by
  have hids : embedded.tokenized.inputIds.length = n := by
    unfold EmbeddedInput.tokenized
    rw [h]
    exact List.length_replicate
  unfold handledReq
  dsimp only
  split
  next => exact hids.le
  next => exact (List.length_take_le' _ _).trans hids.le

namespace Sched

variable {M : Type} [MemoryPools M] {cfg : Config} {S S' : Sched M}

/-- A prefill batch, with the call of `prepare_for_extend` that it comes out of. -/
structure PrefillCall (cfg : Config) (input : StepInput) (S E : Sched M) (reqs : List Nat)
    (T : Sched M) (batch : ScheduleBatch) : Prop where
  call : S.extendCall cfg input = some (E, reqs)
  batch : (S.receive cfg input).getNextBatchToRun cfg input.tpot = some (T, some batch)

/-- Every prefill batch comes out of a call. -/
theorem exists_prefillCall {input : StepInput} {T : Sched M} {batch : ScheduleBatch}
    (h : (S.receive cfg input).getNextBatchToRun cfg input.tpot = some (T, some batch))
    (hmode : batch.forwardMode.isExtend = true) :
    ∃ E reqs, PrefillCall cfg input S E reqs T batch := by
  obtain ⟨merged, balanced, prefilled, newBatch, p⟩ := schedulePhases h
  rcases getNewBatchPrefill_spec p.prefill with ⟨rfl, _⟩ | ⟨_, _, _, _, rfl, hphases, _⟩
  · rcases orDecode_spec p.decode with ⟨hsome, _⟩ | ⟨_, hdecoded⟩
    · cases hsome
    · rw [(hdecoded.mode batch rfl).1] at hmode
      cases hmode
  · obtain ⟨_, _, _, _, hx⟩ := hphases.extends
    exact ⟨_, _, hphases.extendCall p.beforePrefill p.prefill hx.carried, h⟩

/-- Mixing adds a token for each mixed request. -/
theorem mixChunk_numTokens {batch out : ScheduleBatch} (h : S.mixChunk cfg batch = some (S', out))
    (hlogprob : batch.returnLogprob = batch.reqs.any fun q => (S.heap q).returnLogprob) :
    out.extendNumTokens = batch.extendNumTokens + (S.mixedReqs cfg batch.reqs).length := by
  unfold mixChunk at h
  split at h
  next hnone =>
    obtain ⟨_, rfl⟩ := Prod.mk.inj (Option.some.inj h)
    unfold mixedReqs
    simp only [hnone, List.length_nil, Nat.add_zero]
  next running hsome =>
    unfold mixedReqs
    simp only [hsome]
    rw [← hlogprob]
    split at h
    next hmix =>
      rw [if_pos hmix]
      obtain ⟨filtered, hfilter, h⟩ := Option.bind_eq_some_iff.mp h
      obtain ⟨⟨S₁, mixed⟩, hmixed, h⟩ := Option.bind_eq_some_iff.mp h
      obtain ⟨_, rfl⟩ := Prod.mk.inj (Option.some.inj h)
      have hreqs : filtered.reqs = S.unfinishedRunning := by
        rw [ScheduleBatch.filterBatch_reqs hfilter, unfinishedRunning, hsome]
        exact List.filter_congr fun q _ => by simp [ScheduleBatch.keeps]
      rw [← hreqs]
      unfold mixUnfinished at hmixed
      split at hmixed
      next hempty =>
        obtain ⟨_, rfl⟩ := Prod.mk.inj (Option.some.inj hmixed)
        have hnil : filtered.reqs = [] := by simpa [ScheduleBatch.isEmpty] using hempty
        rw [hnil, List.length_nil, Nat.add_zero]
      next =>
        obtain ⟨⟨S₂, decode⟩, hdecode, hmixed⟩ := Option.bind_eq_some_iff.mp hmixed
        have hdecoded := (prepareForDecode_spec hdecode).2.1
        obtain ⟨_, _, hmixed⟩ := Option.bind_eq_some_iff.mp hmixed
        obtain ⟨_, _, hmixed⟩ := Option.bind_eq_some_iff.mp hmixed
        obtain ⟨_, _, hmixed⟩ := Option.bind_eq_some_iff.mp hmixed
        obtain ⟨_, _, hmixed⟩ := Option.bind_eq_some_iff.mp hmixed
        obtain ⟨merged, hmerge, hmixed⟩ := Option.bind_eq_some_iff.mp hmixed
        obtain ⟨_, rfl⟩ := Prod.mk.inj (Option.some.inj hmixed)
        have hmerged : merged.extendNumTokens = batch.extendNumTokens := by
          obtain ⟨_, _, hmerge⟩ := Option.bind_eq_some_iff.mp hmerge
          obtain ⟨_, _, hmerge⟩ := Option.bind_eq_some_iff.mp hmerge
          rw [← Option.some.inj hmerge]
        show merged.extendNumTokens + decode.reqs.length = _
        rw [hmerged, hdecoded]
    next hmix =>
      obtain ⟨_, rfl⟩ := Prod.mk.inj (Option.some.inj h)
      rw [if_neg hmix, List.length_nil, Nat.add_zero]

omit [MemoryPools M] in
theorem mixedReqs_congr {reqs : List Nat} (hstage : S'.stage = S.stage)
    (hheap : ∀ q, (S.heap q).Prepared (S'.heap q)) : S'.mixedReqs cfg reqs = S.mixedReqs cfg reqs := by
  have hlogprob : (reqs.any fun q => (S'.heap q).returnLogprob) =
      reqs.any fun q => (S.heap q).returnLogprob := by
    congr 1
    funext q
    exact (hheap q).sameParams.returnLogprob
  have hunfinished : S'.unfinishedRunning = S.unfinishedRunning := by
    unfold unfinishedRunning
    rw [hstage]
    exact List.filter_congr fun q _ => by rw [(hheap q).finished]
  unfold mixedReqs
  rw [hstage, hlogprob, hunfinished]

/-- An extend has the tokens of its requests. -/
theorem prepareForExtend_numTokens {reqs : List Nat} {batch : ScheduleBatch}
    (h : S.prepareForExtend reqs = some (S', batch)) :
    batch.extendNumTokens = S.extendNumTokens reqs ∧
      batch.returnLogprob = batch.reqs.any fun q => (S'.heap q).returnLogprob := by
  have hkept := prepareForExtend_rangeKept h
  obtain ⟨_, _, h⟩ := Option.bind_eq_some_iff.mp h
  obtain ⟨locs, _, h⟩ := Option.bind_eq_some_iff.mp h
  obtain ⟨S₁, hplace, h⟩ := Option.bind_eq_some_iff.mp h
  obtain ⟨_, _, h⟩ := Option.bind_eq_some_iff.mp h
  obtain ⟨rfl, rfl⟩ := Prod.mk.inj (Option.some.inj h)
  refine ⟨?_, rfl⟩
  show ((reqs.map fun q => (S₁.heap q).fillIds.drop (S₁.heap q).prefixLen).map List.length).sum = _
  unfold extendNumTokens
  rw [List.map_map]
  congr 1
  refine List.map_congr_left fun q _ => ?_
  have hfill : (S₁.heap q).fillIds = (S.heap q).fillIds := (hkept q).fillIds
  have hlens : (S₁.heap q).prefixLen = (S.heap q).prefixLen := (hkept q).prefixLen
  rw [Function.comp_apply, hfill, hlens]

/-- A prefill batch has the tokens of its requests, and one for each running request that is
mixed into it. -/
theorem PrefillCall.numTokens {input : StepInput} {E T : Sched M} {reqs : List Nat}
    {batch : ScheduleBatch} (p : PrefillCall cfg input S E reqs T batch) :
    batch.extendNumTokens = E.extendNumTokens reqs + (E.mixedReqs cfg reqs).length ∧
      batch.forwardMode.isExtend = true := by
  obtain ⟨merged, balanced, prefilled, newBatch, phases⟩ := schedulePhases p.batch
  rcases getNewBatchPrefill_spec phases.prefill with ⟨rfl, _⟩ |
    ⟨formed, _, _, _, rfl, hphases, hp⟩
  · have hnone := extendCall_eq_none phases.beforePrefill phases.prefill
    rw [p.call] at hnone
    cases hnone
  · obtain ⟨_, _, _, _, hx⟩ := hphases.extends
    have hcall := hphases.extendCall phases.beforePrefill phases.prefill hx.carried
    rw [p.call] at hcall
    obtain ⟨rfl, rfl⟩ := Prod.mk.inj (Option.some.inj hcall)
    obtain ⟨hquiet, hreqs, _⟩ := prepareForExtend_spec hx.extend
    obtain ⟨htokens, hlogprob⟩ := prepareForExtend_numTokens hx.extend
    have hmix := mixChunk_numTokens hx.mix hlogprob
    rw [hreqs, mixedReqs_congr hquiet.stage hquiet.heap, htokens] at hmix
    rcases orDecode_spec phases.decode with ⟨_, hout, _⟩ | ⟨hnone, _⟩
    · obtain rfl : formed = batch := Option.some.inj hout.symm
      exact ⟨hmix, hp.mode⟩
    · cases hnone

/-- Until the call, no request arrives. -/
theorem extendCall_grown {input : StepInput} {E : Sched M} {reqs : List Nat}
    (h : S.extendCall cfg input = some (E, reqs)) :
    Grown cfg (generated input.recvReqs) S E := by
  obtain ⟨merged, balanced, fetched, selected, adder, chunk, p, _, rfl, _⟩ := extendCall_spec h
  have hbalanced := (mergeLastBatch_grown p.merge).trans (rebalanceIfEnabled_grown p.rebalance)
  have hfetched : Grown cfg [] balanced fetched := (fetchChunkedPrefill_spec p.fetch).toFrame.grown
  have hselected : Grown cfg [] fetched selected := (selectPrefill_spec p.select).toFrame.grown
  have htaken : Grown cfg [] selected (selected.takeListed reqs chunk) := by
    rw [takeListed_eq]
    exact .of_same rfl fun _ => ⟨rfl, rfl, rfl⟩
  have hgrown := (grown_receive cfg input S).trans
    (((hbalanced.trans hfetched).trans hselected).trans htaken)
  simpa using hgrown

/-- Every prefill batch of an iteration has its embeddings at its tokens. -/
def EmbedsKept (cfg : Config) (input : StepInput) (S : Sched M)
    (embeds : Nat → Option (List Embedding)) : Prop :=
  ∀ T batch, (S.receive cfg input).getNextBatchToRun cfg input.tpot = some (T, some batch) →
    batch.forwardMode.isExtend = true → ∃ E reqs, S.extendCall cfg input = some (E, reqs) ∧
      E.EmbedsAligned embeds reqs batch.extendNumTokens

/-- The counts of every prefill batch of an iteration line up. -/
def EmbedsFit (cfg : Config) (input : StepInput) (S : Sched M) (numEmbeds : Nat → Option Nat) :
    Prop :=
  ∀ E reqs T batch, PrefillCall cfg input S E reqs T batch →
    E.EmbedsLineUp numEmbeds reqs (E.extendNumTokens reqs + (E.mixedReqs cfg reqs).length)

/-- No prompt is longer than its embeddings, in any state of a run. -/
theorem run_embeds {r n q m : Nat} {mem : M} {inputs : Nat → StepInput}
    {messages : Nat → List EmbeddedReq} {samples : Nat → Nat → Nat} {E : Sched M}
    {reqs : List Nat}
    (hrun : run cfg r mem (embeddedInputs inputs messages) samples n = some S)
    (hcall : S.extendCall cfg (embeddedInputs inputs messages n) = some (E, reqs))
    (hq : arrivedEmbeds messages (n + 1) q = some m) : (E.heap q).originInputIds.length ≤ m := by
  obtain ⟨embedded, hget, hnum⟩ := Option.bind_eq_some_iff.mp hq
  have hgrown := (run_arrivals hrun).trans (extendCall_grown hcall)
  rw [← arrivals_succ, arrivals_embeddedInputs] at hgrown
  have hnew := hgrown.new q embedded.tokenized (by rw [List.getElem?_map, hget]; rfl)
  have hindex : (Sched.init cfg r mem).nextReq + q = q := Nat.zero_add q
  rw [hindex] at hnew
  rw [hnew.originInputIds]
  exact handledReq_embeds hnum

/-- In a run, all prefill batches have their embeddings at their tokens, whatever the embeddings
are, if and only if their counts line up. -/
theorem run_embedsKept_iff (cfg : Config) (r : Nat) (mem : M) (inputs : Nat → StepInput)
    (messages : Nat → List EmbeddedReq) (samples : Nat → Nat → Nat) :
    (∀ rows n S, run cfg r mem (embeddedInputs inputs messages) samples n = some S →
        S.EmbedsKept cfg (embeddedInputs inputs messages n)
          (inputEmbeds rows (arrivedEmbeds messages (n + 1)))) ↔
      ∀ n S, run cfg r mem (embeddedInputs inputs messages) samples n = some S →
        S.EmbedsFit cfg (embeddedInputs inputs messages n) (arrivedEmbeds messages (n + 1)) := by
  constructor
  · intro h n S hrun E reqs T batch p
    obtain ⟨htokens, hmode⟩ := p.numTokens
    obtain ⟨E', reqs', hcall, haligned⟩ := h labels n S hrun T batch p.batch hmode
    obtain ⟨rfl, rfl⟩ := Prod.mk.inj (Option.some.inj (p.call.symm.trans hcall))
    rw [htokens] at haligned
    exact .of_aligned haligned
  · intro h rows n S hrun T batch hbatch hmode
    obtain ⟨E, reqs, p⟩ := exists_prefillCall hbatch hmode
    have hline := h n S hrun E reqs T batch p
    rw [← p.numTokens.1] at hline
    exact ⟨E, reqs, p.call, hline.aligned (fun q _ m hm => run_embeds hrun p.call hm) rows⟩

end Sched

/-- A request that is given by six embeddings, in the first step. -/
def sixEmbeds (step : Nat) : List EmbeddedReq :=
  if step = 0 then [.generate ⟨plainInput 1 [] 1, some 6⟩] else []

def noMessages (_ : Nat) : StepInput where
  recvReqs := []
  availableSize := 100
  chunkSync := none
  tpot := 0

/-- The first chunk has four tokens, and all six embeddings. -/
theorem not_embedsKept_chunked : ¬ ∀ rows n S,
    Sched.run twoRanks 0 (Memory.clear 9 100) (embeddedInputs noMessages sixEmbeds)
        (fun _ i => i) n = some S →
      S.EmbedsKept twoRanks (embeddedInputs noMessages sixEmbeds n)
        (inputEmbeds rows (arrivedEmbeds sixEmbeds (n + 1))) := by
  intro h
  have hkept := h Sched.labels 0 _ rfl
  have hbatch : ∃ T batch, ((Sched.init twoRanks 0 (Memory.clear 9 100)).receive twoRanks
      (embeddedInputs noMessages sixEmbeds 0)).getNextBatchToRun twoRanks 0 = some (T, some batch) ∧
        batch.forwardMode.isExtend = true ∧ batch.extendNumTokens = 4 := by
    have hshape : ((((Sched.init twoRanks 0 (Memory.clear 9 100)).receive twoRanks
        (embeddedInputs noMessages sixEmbeds 0)).getNextBatchToRun twoRanks 0).any fun out =>
          out.2.any fun batch => batch.forwardMode.isExtend && batch.extendNumTokens == 4) = true := by
      decide +kernel
    obtain ⟨⟨T, out⟩, hout, hany⟩ := (Option.any_eq_true _ _).mp hshape
    obtain ⟨batch, rfl, hboth⟩ := (Option.any_eq_true _ _).mp hany
    obtain ⟨hmode, htokens⟩ := Bool.and_eq_true_iff.mp hboth
    exact ⟨T, batch, hout, hmode, by simpa using htokens⟩
  obtain ⟨T, batch, hnext, hmode, htokens⟩ := hbatch
  obtain ⟨E, reqs, hcall, haligned⟩ := hkept T batch hnext hmode
  have hreqs : ((Sched.init twoRanks 0 (Memory.clear 9 100)).extendCall twoRanks
      (embeddedInputs noMessages sixEmbeds 0)).map Prod.snd = some [0] := by decide +kernel
  rw [hcall] at hreqs
  obtain rfl : reqs = [0] := Option.some.inj hreqs
  have hsum : embedsOf (arrivedEmbeds sixEmbeds 1) [0] = 6 := by decide
  have hrows := (haligned _ (Sched.extendEmbeds_eq_some.mpr ⟨rfl, by rw [hsum]; decide⟩)).1
  rw [Sched.flatMap_length, hsum, htokens] at hrows
  cases hrows

end FastPP
