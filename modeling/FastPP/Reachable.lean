import FastPP.PlacementRun

namespace FastPP

namespace Sched

variable {M : Type} [MemoryPools M] {cfg : Config} {complete : Prop}

/-- The part of an iteration before `get_new_batch_prefill`. -/
def beforePrefill (cfg : Config) (input : StepInput) (S : Sched M) : Option (Sched M) := do
  let S ← (S.receive cfg input).mergeLastBatch
  S.rebalanceIfEnabled cfg input.tpot

/-- A carried chunked request is about to be fetched by a micro-batch that has no room
for another request. -/
def FetchesWhenFull (cfg : Config) (input : StepInput) (S : Sched M) : Prop :=
  ∃ S₁, S.beforePrefill cfg input = some S₁ ∧ cfg.ppSize ≠ 1 ∧
    (S₁.stages (cfg.prev S₁.cur)).beingChunkedReq.isSome = true ∧
    cfg.maxRunningRequests ≤ S₁.runningBs

instance (cfg : Config) (input : StepInput) (S : Sched M) :
    Decidable (S.FetchesWhenFull cfg input) :=
  decidable_of_iff ((S.beforePrefill cfg input).any fun S₁ =>
      decide (cfg.ppSize ≠ 1 ∧ (S₁.stages (cfg.prev S₁.cur)).beingChunkedReq.isSome = true ∧
        cfg.maxRunningRequests ≤ S₁.runningBs)) (by
    unfold FetchesWhenFull
    cases S.beforePrefill cfg input with
    | none => simp
    | some S₁ => simp)

/-- The sizes of the batch that an iteration dispatches without a forward pass and of the
batch whose result is due there, if both exist. -/
def fillSizes (cfg : Config) (input : StepInput) (S : Sched M) : Option (Nat × Nat) := do
  let next ← (S.receive cfg input).getNextBatchToRun cfg input.tpot
  let batch ← next.2.filter fun batch => !batch.forwards
  let pipeBatch ← ((next.1.setLastBatch (some batch)).stages next.1.curPP.getPp).last
  pure (batch.batchSize, pipeBatch.batchSize)

/-- The zeros of a batch without a forward pass are about to take the place of the result of
a batch with more requests. -/
def FillsShort (cfg : Config) (input : StepInput) (S : Sched M) : Prop :=
  ∃ sizes ∈ S.fillSizes cfg input, sizes.1 < sizes.2

instance (cfg : Config) (input : StepInput) (S : Sched M) : Decidable (S.FillsShort cfg input) :=
  inferInstanceAs (Decidable (∃ sizes ∈ S.fillSizes cfg input, sizes.1 < sizes.2))

/-- The result that arrives has a token for each request of its batch. -/
def ResultComplete (cfg : Config) (sample : Nat → Nat) (out : Option ScheduleBatch) (S : Sched M) :
    Prop :=
  ∀ batch nextTokenIds, ((S.setLastBatch out).stages S.curPP.getPp).last = some batch →
    runBatch cfg sample out (some batch) = some nextTokenIds →
      batch.reqs.length ≤ nextTokenIds.length

theorem receive_cur {input : StepInput} {S : Sched M} {r n : Nat}
    (hcount : S.curPP = .after cfg.ppSize r n) : (S.receive cfg input).cur = n % cfg.ppSize := by
  rw [Sched.cur, (receive_spec cfg input S).curPP, hcount, ← PPCounter.after, PPCounter.after_get]

/-- The states within one iteration that ends in `S'`. -/
structure Turn (cfg : Config) (input : StepInput) (sample : Nat → Nat) (S : Sched M)
    (merged balanced prefilled decoded : Sched M) (newBatch out : Option ScheduleBatch)
    (S' : Sched M) : Prop where
  merge : (S.receive cfg input).mergeLastBatch = some merged
  rebalance : merged.rebalanceIfEnabled cfg input.tpot = some balanced
  prefill : balanced.getNewBatchPrefill cfg = some (prefilled, newBatch)
  decode : prefilled.orDecode cfg newBatch = some (decoded, out)
  finish : decoded.finishStep cfg sample out = some S'

theorem exists_turn {input : StepInput} {sample : Nat → Nat} {S S' : Sched M}
    {out : Option ScheduleBatch} (h : S.step cfg input sample = some (S', out)) :
    ∃ merged balanced prefilled decoded newBatch,
      Turn cfg input sample S merged balanced prefilled decoded newBatch out S' := by
  obtain ⟨⟨decoded, out'⟩, hnext, h⟩ := Option.bind_eq_some_iff.mp h
  obtain ⟨S₁, hfinish, h⟩ := Option.bind_eq_some_iff.mp h
  obtain ⟨rfl, rfl⟩ := Prod.mk.inj (Option.some.inj h)
  obtain ⟨merged, hmerge, hnext⟩ := Option.bind_eq_some_iff.mp hnext
  obtain ⟨balanced, hbalance, hnext⟩ := Option.bind_eq_some_iff.mp hnext
  obtain ⟨⟨prefilled, newBatch⟩, hprefill, hdecode⟩ := Option.bind_eq_some_iff.mp hnext
  exact ⟨merged, balanced, prefilled, decoded, newBatch, hmerge, hbalance, hprefill, hdecode,
    hfinish⟩

omit [MemoryPools M] in
/-- The result of a batch has a token for each of its requests unless zeros of another batch
take its place. -/
theorem runBatch_length {sample : Nat → Nat} {out : Option ScheduleBatch}
    {batch : ScheduleBatch} {nextTokenIds : List Nat}
    (h : runBatch cfg sample out (some batch) = some nextTokenIds) :
    nextTokenIds.length = batch.batchSize ∨
      ∃ b, out = some b ∧ b.forwards = false ∧ nextTokenIds = List.replicate b.batchSize 0 := by
  unfold runBatch at h
  split at h
  next =>
    refine Or.inl ?_
    rw [← Option.some.inj h]
    simp [sizeOf?]
  next b hb =>
    obtain ⟨hout, hforwards⟩ := Option.filter_eq_some_iff.mp hb
    obtain ⟨_, _, rfl⟩ := Option.map_eq_some_iff.mp h
    exact Or.inr ⟨b, hout, by simpa using hforwards, rfl⟩

/-- The scheduling part of a turn: the invariant within it, and with the new batch. -/
theorem Turn.placed {input : StepInput} {sample : Nat → Nat}
    {S merged balanced prefilled decoded S' : Sched M} {newBatch out : Option ScheduleBatch}
    {r k : Nat} (hr : r < cfg.ppSize) (hcount : S.curPP = .after cfg.ppSize r k)
    (h : Placed complete cfg (k % cfg.ppSize)
      (flying cfg.ppSize (cfg.ppSize - 1 - r) (k % cfg.ppSize)) S)
    (hroom : ¬ S.FetchesWhenFull cfg input)
    (t : Turn cfg input sample S merged balanced prefilled decoded newBatch out S') :
    InTurn complete cfg (k % cfg.ppSize) (flying cfg.ppSize (cfg.ppSize - 1 - r) (k % cfg.ppSize))
        balanced ∧
      ((newBatch = none ∧ NotPrefilled cfg balanced prefilled ∧
          Decoded prefilled decoded out ∧
          (cfg.ppSize = 1 ∨
            (balanced.stages (cfg.prev (k % cfg.ppSize))).beingChunkedReq = none)) ∨
        ∃ batch fetched selected adder, newBatch = some batch ∧ out = some batch ∧
          decoded = prefilled ∧
          PrefillPhases cfg balanced fetched selected prefilled adder batch ∧
          Prefilled cfg balanced prefilled batch adder.canRunList) ∧
      Placed complete cfg ((k % cfg.ppSize + 1) % cfg.ppSize)
        (fun j => decide (j = k % cfg.ppSize) ||
          flying cfg.ppSize (cfg.ppSize - 1 - r) (k % cfg.ppSize) j)
        (decoded.setLastBatch out) := by
  have hi : k % cfg.ppSize < cfg.ppSize := Nat.mod_lt _ (by omega)
  generalize hk : k % cfg.ppSize = i at h hi ⊢
  have hreceived := receive_spec cfg input S
  have hcur : (S.receive cfg input).cur = i := (receive_cur hcount).trans hk
  have hturn := ((h.receive hreceived).merge hi hcur (not_flying_self hr i) t.merge).rebalance
    t.rebalance
  refine ⟨hturn, ?_⟩
  rcases getNewBatchPrefill_spec t.prefill with
    ⟨hnone, hnot⟩ | ⟨batch, fetched, selected, adder, hsome, hphases, hp⟩
  · rcases orDecode_spec t.decode with ⟨hsome, _, _⟩ | ⟨_, hdecoded⟩
    · rw [hnone] at hsome
      simp at hsome
    · have hfull : cfg.ppSize = 1 ∨ (balanced.stages (cfg.prev i)).beingChunkedReq = none := by
        by_contra hcon
        rw [not_or] at hcon
        refine hroom ⟨balanced, ?_, hcon.1,
          hturn.cur.symm ▸ Option.isSome_iff_ne_none.mpr hcon.2, ?_⟩
        · rw [beforePrefill, t.merge, Option.bind_eq_bind, Option.bind_some, t.rebalance]
        · refine hnot.full.resolve_left fun hfetched => ?_
          exact hcon.2 ((hturn.fetched hi).symm.trans hfetched)
      exact ⟨Or.inl ⟨hnone, hnot, hdecoded, hfull⟩, hturn.decode hi hnot hdecoded hfull⟩
  · rcases orDecode_spec t.decode with ⟨_, hout, hsame⟩ | ⟨hnone, _⟩
    · rw [hsome] at hout
      exact ⟨Or.inr ⟨batch, fetched, selected, adder, hsome, hout, hsame, hphases, hp⟩,
        hout ▸ hsame ▸ hturn.prefill hi hp⟩
    · rw [hnone] at hsome
      simp at hsome

theorem Turn.getNextBatchToRun {input : StepInput} {sample : Nat → Nat}
    {S merged balanced prefilled decoded S' : Sched M} {newBatch out : Option ScheduleBatch}
    (t : Turn cfg input sample S merged balanced prefilled decoded newBatch out S') :
    (S.receive cfg input).getNextBatchToRun cfg input.tpot = some (decoded, out) := by
  unfold Sched.getNextBatchToRun
  simp [t.merge, t.rebalance, t.prefill, t.decode]

theorem Turn.fillSizes {input : StepInput} {sample : Nat → Nat}
    {S merged balanced prefilled decoded S' : Sched M} {newBatch out : Option ScheduleBatch}
    (t : Turn cfg input sample S merged balanced prefilled decoded newBatch out S')
    {batch pipeBatch : ScheduleBatch} (hout : out = some batch) (hforwards : batch.forwards = false)
    (hlast : ((decoded.setLastBatch out).stages decoded.curPP.getPp).last = some pipeBatch) :
    S.fillSizes cfg input = some (batch.batchSize, pipeBatch.batchSize) := by
  subst hout
  have hfilter : (some batch).filter (fun batch => !batch.forwards) = some batch := by
    simp [Option.filter, hforwards]
  unfold Sched.fillSizes
  simp [t.getNextBatchToRun, hfilter, hlast]

theorem getNextBatchToRun_curPP {tpot : Rat} {S S' : Sched M} {out : Option ScheduleBatch}
    (h : S.getNextBatchToRun cfg tpot = some (S', out)) : S'.curPP = S.curPP := by
  obtain ⟨merged, hmerge, h⟩ := Option.bind_eq_some_iff.mp h
  obtain ⟨balanced, hbalance, h⟩ := Option.bind_eq_some_iff.mp h
  obtain ⟨⟨prefilled, newBatch⟩, hprefill, hdecode⟩ := Option.bind_eq_some_iff.mp h
  have hmerged : merged.curPP = S.curPP := by
    rcases mergeLastBatch_spec hmerge with ⟨_, _, _, hmerged⟩ | ⟨_, hquiet⟩
    · exact hmerged.curPP
    · exact hquiet.curPP
  have hbalanced : balanced.curPP = merged.curPP := by
    unfold rebalanceIfEnabled at hbalance
    split at hbalance
    next => exact (rebalance_moved hbalance).1.toFrame.curPP
    next => rw [Option.some.inj hbalance]
  have hprefilled : prefilled.curPP = balanced.curPP := by
    rcases getNewBatchPrefill_spec hprefill with ⟨_, hnot⟩ | ⟨_, _, _, _, _, _, hp⟩
    · exact hnot.curPP
    · exact hp.curPP
  have hdecoded : S'.curPP = prefilled.curPP := by
    rcases orDecode_spec hdecode with ⟨_, _, hsame⟩ | ⟨_, hdecoded⟩
    · rw [hsame]
    · exact hdecoded.curPP
  rw [hdecoded, hprefilled, hbalanced, hmerged]

/-- On the last rank the zeros go to their own batch. -/
theorem not_fillsShort {input : StepInput} {S : Sched M} {r k : Nat} (hlast : r + 1 = cfg.ppSize)
    (hcount : S.curPP = .after cfg.ppSize r k) : ¬ S.FillsShort cfg input := by
  rintro ⟨sizes, hsizes, hshort⟩
  obtain ⟨⟨T, out⟩, hnext, hsizes⟩ := Option.bind_eq_some_iff.mp hsizes
  obtain ⟨batch, hbatch, hsizes⟩ := Option.bind_eq_some_iff.mp hsizes
  obtain ⟨pipeBatch, hpipe, hsizes⟩ := Option.bind_eq_some_iff.mp hsizes
  obtain ⟨_, hforwards⟩ := Option.filter_eq_some_iff.mp hbatch
  obtain rfl := Option.some.inj hsizes
  have hdecode : batch.forwardMode.isDecode = false := by
    simp only [ScheduleBatch.forwards, Bool.not_or, Bool.and_eq_true] at hforwards
    simpa using hforwards.1
  have hcounter : T.curPP = .after cfg.ppSize r (k + 1) := by
    rw [getNextBatchToRun_curPP hnext, (receive_spec cfg input S).curPP, hcount]
    rfl
  have hidx : T.curPP.getPp = T.cur := by
    rw [Sched.cur, hcounter, PPCounter.after_get, PPCounter.after_getPp,
      show r + k + 1 = k + cfg.ppSize by omega, Nat.add_mod_right]
  change ((T.setLastBatch (some batch)).stages T.curPP.getPp).last = _ at hpipe
  rw [hidx, (setLastBatch_stages T (some batch)).2] at hpipe
  simp only [hdecode, Bool.false_eq_true, if_false, Stage.last, Option.some.injEq] at hpipe
  subst hpipe
  exact lt_irrefl _ hshort

theorem Turn.resultComplete {input : StepInput} {sample : Nat → Nat}
    {S merged balanced prefilled decoded S' : Sched M} {newBatch out : Option ScheduleBatch}
    (hfill : ¬ S.FillsShort cfg input)
    (t : Turn cfg input sample S merged balanced prefilled decoded newBatch out S') :
    decoded.ResultComplete cfg sample out := by
  intro batch nextTokenIds hlast hresult
  rcases runBatch_length hresult with hlength | ⟨b, hout, hforwards, rfl⟩
  · exact hlength.ge
  · by_contra hshort
    refine hfill ⟨_, t.fillSizes hout hforwards hlast, ?_⟩
    simpa [ScheduleBatch.batchSize] using hshort

/-- The end of a turn: the result that arrives belongs to a batch in flight. -/
theorem Placed.finish {sample : Nat → Nat} {S S' : Sched M} {out : Option ScheduleBatch}
    {r i : Nat} (hr : r < cfg.ppSize) (hi : i < cfg.ppSize)
    (hidx : S.curPP.getPp = (r + i + 1) % cfg.ppSize)
    (h : Placed complete cfg ((i + 1) % cfg.ppSize)
      (fun j => decide (j = i) || flying cfg.ppSize (cfg.ppSize - 1 - r) i j)
      (S.setLastBatch out))
    (hall : complete → S.ResultComplete cfg sample out)
    (hf : S.finishStep cfg sample out = some S') :
    Placed complete cfg ((i + 1) % cfg.ppSize) (flying cfg.ppSize (cfg.ppSize - 1 - r)
        ((i + 1) % cfg.ppSize)) S' ∧
      ((∃ batch nextTokenIds,
          ((S.setLastBatch out).stages ((r + i + 1) % cfg.ppSize)).last = some batch ∧
          runBatch cfg sample out (some batch) = some nextTokenIds ∧
          (S.setLastBatch out).deliver cfg ((r + i + 1) % cfg.ppSize) batch nextTokenIds =
            some S' ∧
          Delivered ((r + i + 1) % cfg.ppSize) batch nextTokenIds (S.setLastBatch out) S') ∨
        (((S.setLastBatch out).stages ((r + i + 1) % cfg.ppSize)).last = none ∧
          ∃ ratio, S' = { S.setLastBatch out with newTokenRatio := ratio })) := by
  obtain ⟨hflight, holdest, hrest⟩ := flying_next hr hi
  have hlt : (r + i + 1) % cfg.ppSize < cfg.ppSize := Nat.mod_lt _ (by omega)
  unfold ResultComplete at hall
  have hcases := finishStep_cases hf
  rw [hidx] at hall hcases
  rcases hcases with ⟨batch, nextTokenIds, hlast, hresult, hd⟩ | ⟨hlast, ratio, hS⟩
  · obtain ⟨hplaced, hdelivered⟩ :=
      h.deliver (Nat.mod_lt _ (by omega)) hlt hlast hflight holdest
        (fun hcomplete => hall hcomplete batch nextTokenIds hlast hresult) hd
    exact ⟨hplaced.congr fun j hj => (hrest j hj).symm,
      Or.inl ⟨batch, nextTokenIds, hlast, hresult, hd, hdelivered⟩⟩
  · have hplaced := (h.idle hlt hlast).congr fun j hj => (hrest j hj).symm
    refine ⟨?_, Or.inr ⟨hlast, ratio, hS⟩⟩
    rw [hS]
    exact ⟨⟨hplaced.fresh, hplaced.counted, hplaced.exact⟩, hplaced.once, hplaced.stages,
      hplaced.ppIdx, hplaced.order⟩

theorem Turn.curPP {input : StepInput} {sample : Nat → Nat}
    {S merged balanced prefilled decoded S' : Sched M} {newBatch out : Option ScheduleBatch}
    (t : Turn cfg input sample S merged balanced prefilled decoded newBatch out S') :
    decoded.curPP = S.curPP.next := by
  rw [getNextBatchToRun_curPP t.getNextBatchToRun, (receive_spec cfg input S).curPP]

/-- The index whose result arrives at the end of a turn. -/
theorem Turn.arriving {input : StepInput} {sample : Nat → Nat}
    {S merged balanced prefilled decoded S' : Sched M} {newBatch out : Option ScheduleBatch}
    {r k : Nat} (hcount : S.curPP = .after cfg.ppSize r k)
    (t : Turn cfg input sample S merged balanced prefilled decoded newBatch out S') :
    decoded.curPP.getPp = (r + k % cfg.ppSize + 1) % cfg.ppSize := by
  rw [t.curPP, hcount, ← PPCounter.after, PPCounter.after_getPp]
  simp [Nat.add_mod]

/-- One iteration keeps the invariant. -/
theorem Placed.step {input : StepInput} {sample : Nat → Nat} {S S' : Sched M}
    {out : Option ScheduleBatch} {r k : Nat} (hr : r < cfg.ppSize)
    (hcount : S.curPP = .after cfg.ppSize r k)
    (h : Placed complete cfg (k % cfg.ppSize)
      (flying cfg.ppSize (cfg.ppSize - 1 - r) (k % cfg.ppSize)) S)
    (hroom : ¬ S.FetchesWhenFull cfg input) (hfill : complete → ¬ S.FillsShort cfg input)
    (hstep : S.step cfg input sample = some (S', out)) :
    S'.curPP = .after cfg.ppSize r (k + 1) ∧ Placed complete cfg ((k + 1) % cfg.ppSize)
      (flying cfg.ppSize (cfg.ppSize - 1 - r) ((k + 1) % cfg.ppSize)) S' := by
  obtain ⟨merged, balanced, prefilled, decoded, newBatch, t⟩ := exists_turn hstep
  obtain ⟨_, _, hplaced⟩ := t.placed hr hcount h hroom
  have hcounter : decoded.curPP = .after cfg.ppSize r (k + 1) := by
    rw [t.curPP, hcount]
    rfl
  obtain ⟨hplaced', hcases⟩ := hplaced.finish hr (Nat.mod_lt _ (by omega)) (t.arriving hcount)
    (fun hcomplete => t.resultComplete (hfill hcomplete)) t.finish
  rw [show (k % cfg.ppSize + 1) % cfg.ppSize = (k + 1) % cfg.ppSize by simp] at hplaced'
  refine ⟨?_, hplaced'⟩
  rcases hcases with ⟨_, _, _, _, _, hdelivered⟩ | ⟨_, ratio, rfl⟩
  · obtain ⟨_, _, _, rfl⟩ := hdelivered.others
    exact hcounter
  · exact hcounter

omit [MemoryPools M] in
theorem placed_init (complete : Prop) (cfg : Config) (r : Nat) (mem : M) (flight : Nat → Bool) :
    Placed complete cfg 0 flight (Sched.init cfg r mem) := by
  have hplaces : (Sched.init cfg r mem).places cfg 0 = [] := by
    simp [places, others, Sched.init, reqsOf, Stage.settled, Stage.ownReqs]
  refine ⟨⟨by simp [Sched.init], fun q => ?_, fun _ q => ?_⟩, fun q => by simp [hplaces],
    fun j _ => ?_, by simp [Sched.init], by simp [Sched.init]⟩
  · simp [Sched.init, Req.blank, chunksInFlight]
  · simp [Sched.init, Req.blank, chunksInFlight]
  · exact ⟨by simp [Sched.init], by simp [Sched.init], by simp [Sched.init]⟩

/-- The invariant holds in every state that a rank reaches, as long as no iteration
fetches a chunked request into a full micro-batch; the counters are exact as long as none
leaves requests without a result. -/
theorem run_placed {r : Nat} {mem : M} {inputs : Nat → StepInput} {samples : Nat → Nat → Nat}
    {n : Nat} {S : Sched M} (hr : r < cfg.ppSize)
    (hroom : ∀ k < n, ∀ S, run cfg r mem inputs samples k = some S →
      ¬ S.FetchesWhenFull cfg (inputs k))
    (hfill : complete → ∀ k < n, ∀ S, run cfg r mem inputs samples k = some S →
      ¬ S.FillsShort cfg (inputs k))
    (hrun : run cfg r mem inputs samples n = some S) :
    S.curPP = .after cfg.ppSize r n ∧ Placed complete cfg (n % cfg.ppSize)
      (flying cfg.ppSize (cfg.ppSize - 1 - r) (n % cfg.ppSize)) S := by
  induction n generalizing S with
  | zero =>
    cases Option.some.inj hrun
    rw [Nat.zero_mod]
    exact ⟨rfl, placed_init complete cfg r mem _⟩
  | succ n ih =>
    obtain ⟨S₁, hbefore, hrun⟩ := Option.bind_eq_some_iff.mp hrun
    obtain ⟨⟨S₂, out⟩, hstep, hrun⟩ := Option.bind_eq_some_iff.mp hrun
    cases Option.some.inj hrun
    obtain ⟨hcount, hplaced⟩ := ih (fun k hk => hroom k (by omega))
      (fun hcomplete k hk => hfill hcomplete k (by omega)) hbefore
    exact hplaced.step hr hcount (hroom n (by omega) S₁ hbefore)
      (fun hcomplete => hfill hcomplete n (by omega) S₁ hbefore) hstep

/-- The invariant without exact counters. -/
theorem run_placed_any {r : Nat} {mem : M} {inputs : Nat → StepInput}
    {samples : Nat → Nat → Nat} {n : Nat} {S : Sched M} (hr : r < cfg.ppSize)
    (hroom : ∀ k < n, ∀ S, run cfg r mem inputs samples k = some S →
      ¬ S.FetchesWhenFull cfg (inputs k))
    (hrun : run cfg r mem inputs samples n = some S) :
    S.curPP = .after cfg.ppSize r n ∧ Placed False cfg (n % cfg.ppSize)
      (flying cfg.ppSize (cfg.ppSize - 1 - r) (n % cfg.ppSize)) S :=
  run_placed hr hroom (fun hfalse => hfalse.elim) hrun

end Sched

end FastPP
