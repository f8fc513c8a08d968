import FastPP.LensRun

namespace FastPP

namespace Sched

variable {M : Type} [MemoryPools M] {cfg : Config} {S S' T : Sched M} {r n : Nat} {mem : M}
  {inputs : Nat → StepInput} {samples : Nat → Nat → Nat}

omit [MemoryPools M] in
/-- The micro-batch of one of the last `pp_size` steps still holds its batch. -/
theorem Flights.at_step {batch : Nat → List Nat} {goesOn : Nat → Nat → Bool} {d : Nat}
    (hp : 0 < cfg.ppSize) (hf : Flights cfg (n % cfg.ppSize) n batch goesOn S) (hd : d < n)
    (hle : n ≤ d + cfg.ppSize) :
    reqsOf (S.stages (d % cfg.ppSize)).last = batch d ∧
      ∀ q, ((S.stages (d % cfg.ppSize)).beingChunkedReq = some q ∧
        q ∈ (S.stages (d % cfg.ppSize)).ownReqs) ↔ goesOn d q = true := by
  have hlt : d % cfg.ppSize < cfg.ppSize := Nat.mod_lt _ hp
  have hlast := hf.last _ hlt
  have hgoes := hf.goesOn _ hlt
  rw [turnsAgo_mod hp hd hle] at hlast hgoes
  have hback : n - 1 - (n - 1 - d) = d := by omega
  rw [hback] at hlast hgoes
  have hsome : n - 1 - d < n := by omega
  exact ⟨by rw [hlast, if_pos hsome], fun q => (hgoes q).trans (and_iff_right hsome)⟩

theorem not_dueAt {d q : Nat} : dueAt cfg r mem inputs samples d q = false ↔
    (q ∈ batchAt cfg r mem inputs samples d →
      goesOnAfter cfg r mem inputs samples d q = true) := by
  unfold dueAt
  by_cases hq : q ∈ batchAt cfg r mem inputs samples d
  · simp [hq]
  · simp [hq]

/-- What holds in every state that a rank reaches as long as no step fetches a chunked request
into a full micro-batch or leaves requests without a result. -/
structure RunKept (cfg : Config) (r : Nat) (mem : M) (inputs : Nat → StepInput)
    (samples : Nat → Nat → Nat) (n : Nat) (S : Sched M) : Prop where
  count : S.curPP = .after cfg.ppSize r n
  placed : Placed True cfg (n % cfg.ppSize)
    (flying cfg.ppSize (cfg.ppSize - 1 - r) (n % cfg.ppSize)) S
  flights : Flights cfg (n % cfg.ppSize) n (batchAt cfg r mem inputs samples)
    (goesOnAfter cfg r mem inputs samples) S
  tokens : TokensCounted cfg r mem inputs samples n S

theorem run_kept (hr : r < cfg.ppSize)
    (hroom : ∀ k < n, ∀ S, run cfg r mem inputs samples k = some S →
      ¬ S.FetchesWhenFull cfg (inputs k))
    (hfill : ∀ k < n, ∀ S, run cfg r mem inputs samples k = some S → ¬ S.FillsShort cfg (inputs k))
    (hrun : run cfg r mem inputs samples n = some S) : RunKept cfg r mem inputs samples n S :=
  ⟨(run_placed_any hr hroom hrun).1, (run_placed hr hroom (fun _ => hfill) hrun).2,
    run_flights hr hroom hrun, run_tokensCounted hr hroom hfill hrun⟩

/-- After the merge the running requests of the micro-batch have all their results. -/
theorem RunKept.merged_lens (hr : r < cfg.ppSize) (h : RunKept cfg r mem inputs samples n S)
    (hm : (S.receive cfg (inputs n)).mergeLastBatch = some T) {q : Nat}
    (hq : q ∈ reqsOf T.stage.runningBatch) :
    (T.heap q).outputIdsLen = (T.heap q).outputIds.length := by
  have hi : n % cfg.ppSize < cfg.ppSize := Nat.mod_lt _ (by omega)
  have hreceived := receive_spec cfg (inputs n) S
  have hframe := mergeLastBatch_frame hm
  have hcur : T.cur = n % cfg.ppSize := hframe.cur.trans (receive_cur h.count)
  have hturn := (h.placed.receive hreceived).merge hi (receive_cur h.count)
    (not_flying_self hr _) hm
  have hlens := h.tokens.merge hr h.count h.placed h.flights hm
  have hrunning : q ∈ reqsOf (T.stages (n % cfg.ppSize)).runningBatch := by
    rwa [stage, hcur] at hq
  have hplace : q ∈ T.turnPlaces cfg (n % cfg.ppSize) :=
    List.mem_append_right _ (List.mem_append_right _ (List.mem_append_left _ hrunning))
  rw [hlens.lens q (Or.inl hplace), (hframe.heap q).outputIds,
    h.tokens.receive_outputs hreceived q]
  refine (dueCount_eq (by omega) fun d hd hlt => not_dueAt.mpr fun hmem => ?_).symm
  -- the batch of step `d` is that of another micro-batch, which `q` would be settled in
  by_contra hends
  obtain ⟨hlast, hgoes⟩ := h.flights.at_step (d := d) (by omega) (by omega) (by omega)
  have hne : d % cfg.ppSize ≠ n % cfg.ppSize := by
    intro heq
    have hago := turnsAgo_mod (p := cfg.ppSize) (n := n) (d := d) (by omega) (by omega) (by omega)
    rw [heq, turnsAgo_self] at hago
    omega
  have hdlt : d % cfg.ppSize < cfg.ppSize := Nat.mod_lt _ (by omega)
  have hsettled : q ∈ (S.stages (d % cfg.ppSize)).settled :=
    h.placed.mem_settled hi hdlt (hlast ▸ hmem) fun hboth => hends ((hgoes q).mp hboth)
  have hsame : T.stages (d % cfg.ppSize) = S.stages (d % cfg.ppSize) := by
    rw [hframe.stages _ ((receive_cur h.count).symm ▸ hne), hreceived.stages]
  have hone := hturn.once.le_one q
  have hpos := List.count_pos_iff.mpr hrunning
  have hother := List.count_pos_iff.mpr (mem_others hdlt hne (hsame ▸ hsettled))
  simp only [turnPlaces, List.count_append] at hone
  omega

/-- A chunk that goes on is followed by the next one at once, and no other request of a batch
is in the next one. -/
theorem RunKept.goesOn_iff (hr : r < cfg.ppSize) (hp : cfg.ppSize ≠ 1)
    (h : RunKept cfg r mem inputs samples (n + 1) S)
    (hroom : ¬ S.FetchesWhenFull cfg (inputs (n + 1)))
    (hbefore : run cfg r mem inputs samples (n + 1) = some S)
    (hrun : run cfg r mem inputs samples (n + 2) = some S') {q : Nat}
    (hq : q ∈ batchAt cfg r mem inputs samples n) :
    goesOnAfter cfg r mem inputs samples n q = true ↔
      q ∈ batchAt cfg r mem inputs samples (n + 1) := by
  have hj : n % cfg.ppSize < cfg.ppSize := Nat.mod_lt _ (by omega)
  have hi : (n + 1) % cfg.ppSize < cfg.ppSize := Nat.mod_lt _ (by omega)
  have hprev : cfg.prev ((n + 1) % cfg.ppSize) = n % cfg.ppSize := by
    rw [show (n + 1) % cfg.ppSize = (n % cfg.ppSize + 1) % cfg.ppSize by simp, prev_succ hj]
  have hne : n % cfg.ppSize ≠ (n + 1) % cfg.ppSize := fun heq =>
    hp ((prev_self hi).mp (hprev.trans heq))
  obtain ⟨S₁, merged, balanced, prefilled, decoded, newBatch, out, hbefore', t⟩ :=
    exists_runTurn hrun
  obtain rfl : S = S₁ := Option.some.inj (hbefore.symm.trans hbefore')
  obtain ⟨hlast, hgoes⟩ := h.flights.at_step (d := n) (by omega) (by omega) (by omega)
  rw [reqsOf_batchAt hbefore t.schedulePhases, ← hgoes q]
  constructor
  · intro hboth
    obtain ⟨hturn, hcases, _⟩ := t.placed hr h.count h.placed hroom
    have hframe := mergeLastBatch_frame t.merge
    have hmerged := ((h.placed.receive (receive_spec cfg (inputs (n + 1)) S)).merge hi
      (receive_cur h.count) (not_flying_self hr _) t.merge).rebalance_moved t.rebalance
    have hcarried : (balanced.stages (cfg.prev ((n + 1) % cfg.ppSize))).beingChunkedReq =
        some q := by
      rw [hmerged.2.1, hprev, hframe.stages _ ((receive_cur h.count).symm ▸ hne),
        (receive_spec cfg (inputs (n + 1)) S).stages]
      exact hboth.1
    rcases hcases with ⟨_, _, _, hfull⟩ | ⟨batch, _, _, adder, _, rfl, rfl, _, hpre⟩
    · have hnone := hfull.resolve_left hp
      rw [hcarried] at hnone
      simp at hnone
    · obtain ⟨_, added, _, _, hlist, _⟩ := hpre.waiting
      rw [hturn.fetched hi, hcarried] at hlist
      show q ∈ batch.reqs
      rcases hpre.reqs with ⟨hreqs, _⟩ | ⟨hreqs, _⟩ <;> rw [hreqs, hlist] <;> simp
  · intro hmem
    by_contra hends
    obtain ⟨_, _, hplaced⟩ := t.placed hr h.count h.placed hroom
    have hnext : ((n + 1) % cfg.ppSize + 1) % cfg.ppSize < cfg.ppSize := Nat.mod_lt _ (by omega)
    have hsettled : q ∈ ((decoded.setLastBatch out).stages (n % cfg.ppSize)).settled := by
      rw [t.schedulePhases.stages ((receive_cur h.count).symm ▸ hne)]
      exact h.placed.mem_settled hi hj (hlast.symm ▸ hq) hends
    have hone := hplaced.once.le_one q
    have hother := List.count_pos_iff.mpr (mem_others hj hne hsettled)
    rw [places_count cfg _ hnext hi, prev_succ hi] at hone
    have hlast' := t.last hr h.count h.placed hroom
    rw [← hlast'] at hmem
    by_cases hgoes' : ((decoded.setLastBatch out).stages ((n + 1) % cfg.ppSize)).beingChunkedReq =
        some q ∧ q ∈ ((decoded.setLastBatch out).stages ((n + 1) % cfg.ppSize)).ownReqs
    · rw [hgoes'.1, Option.toList_some, List.count_singleton_self] at hone
      omega
    · have hpos := List.count_pos_iff.mpr (hplaced.mem_settled hnext hi hmem hgoes')
      omega

end Sched

namespace Sched

variable {M : Type} [MemoryPools M] {cfg : Config} {complete : Prop} {S T U : Sched M}
  {input : StepInput}

/-- The state that `PrefillAdder.__init__` reads in a step. -/
def estimating (cfg : Config) (input : StepInput) (S : Sched M) : Option (Sched M) := do
  let S ← S.beforePrefill cfg input
  let S ← S.fetchChunkedPrefill cfg
  pure (S.calcPriority cfg)

/-- The state and the batch that `update_running_batch` may pass to `retract_decode` in a
step. -/
def retracting (cfg : Config) (input : StepInput) (S : Sched M) :
    Option (Sched M × ScheduleBatch) := do
  let S ← S.beforePrefill cfg input
  let formed ← S.getNewBatchPrefill cfg
  if formed.2.isSome then none
  else do
    let running ← formed.1.stage.runningBatch
    let running ← running.filterBatch formed.1.heap none
    pure (formed.1, running)

/-- How many tokens `PrefillAdder` expects a running request to generate at most. -/
def remainingTokens (cfg : Config) (S : Sched M) (q : Nat) : Rat :=
  min (((S.heap q).samplingParams.maxNewTokens : Int) - (S.heap q).outputIdsLen)
    cfg.clipMaxNewTokens

/-- A request that has a place on the rank, or that the rank has not finished. -/
def InPlay (cfg : Config) (S : Sched M) (q : Nat) : Prop :=
  q ∈ S.turnPlaces cfg S.cur ∨ (S.heap q).finished = false

/-- `output_ids_len` does not depend on the rank in a step that two ranks start in `S` and `S'`:
neither after the merge nor where the admission and the retraction read it. -/
structure CountersAgree (cfg : Config) (input input' : StepInput) (S S' : Sched M) : Prop where
  merged : ∀ T T', (S.receive cfg input).mergeLastBatch = some T →
    (S'.receive cfg input').mergeLastBatch = some T' → ∀ q, T.InPlay cfg q → T'.InPlay cfg q →
      (T.heap q).outputIdsLen = (T'.heap q).outputIdsLen
  remaining : ∀ U U', S.estimating cfg input = some U → S'.estimating cfg input' = some U' →
    ∀ q ∈ U.allRunningReqs cfg, q ∈ U'.allRunningReqs cfg →
      U.remainingTokens cfg q = U'.remainingTokens cfg q
  estimate : ∀ U U', S.estimating cfg input = some U → S'.estimating cfg input' = some U' →
    U.allRunningReqs cfg = U'.allRunningReqs cfg → U.newTokenRatio = U'.newTokenRatio →
      U.availableSize = U'.availableSize → ∀ mixed,
        (PrefillAdder.init cfg U mixed).remTotalTokens =
          (PrefillAdder.init cfg U' mixed).remTotalTokens
  order : ∀ U batch U' batch', S.retracting cfg input = some (U, batch) →
    S'.retracting cfg input' = some (U', batch') → batch.reqs = batch'.reqs →
      U.retractOrder batch = U'.retractOrder batch'

/-- In step `n` `output_ids_len` is the number of output tokens of every unfinished running
request of the micro-batch, and the same on all ranks if they formed the same batches. -/
structure LensTracked (cfg : Config) (mem : Nat → M) (inputs : Nat → Nat → StepInput)
    (samples : Nat → Nat → Nat → Nat) (n : Nat) : Prop where
  counted : ∀ r < cfg.ppSize, ∀ S, run cfg r (mem r) (inputs r) (samples r) n = some S →
    ∀ T, (S.receive cfg (inputs r n)).mergeLastBatch = some T →
      ∀ q ∈ reqsOf T.stage.runningBatch, (T.heap q).finished = false →
        (T.heap q).outputIdsLen = (T.heap q).outputIds.length
  agrees : (∀ k < n, ∀ r < cfg.ppSize, ∀ r' < cfg.ppSize,
      batchAt cfg r (mem r) (inputs r) (samples r) k =
        batchAt cfg r' (mem r') (inputs r') (samples r') k) →
    ∀ r < cfg.ppSize, ∀ r' < cfg.ppSize, ∀ S S',
      run cfg r (mem r) (inputs r) (samples r) n = some S →
        run cfg r' (mem r') (inputs r') (samples r') n = some S' →
          CountersAgree cfg (inputs r n) (inputs r' n) S S'

omit [MemoryPools M] in
/-- The estimate of all running requests in the budget of the admission. -/
theorem init_remTotalTokens (cfg : Config) (S : Sched M) (mixed : Nat) :
    (PrefillAdder.init cfg S mixed).remTotalTokens = (S.availableSize - mixed : Int) -
      ((S.allRunningReqs cfg).map fun q => S.remainingTokens cfg q * S.newTokenRatio).sum := rfl

/-- What a state of the step has from the merge: the counters, the requests and their places. -/
structure FromMerged (cfg : Config) (T U : Sched M) (reqs : List Nat) : Prop where
  lens : LensKept T U
  grown : Grown cfg [] T U
  places : ∀ q ∈ reqs, q ∈ T.turnPlaces cfg T.cur

omit [MemoryPools M] in
theorem calcPriority_heap (cfg : Config) (S : Sched M) :
    (S.calcPriority cfg).heap = S.heap ∧ (S.calcPriority cfg).stages = S.stages ∧
      (S.calcPriority cfg).nextReq = S.nextReq := by
  obtain ⟨queue, rng, hS, _⟩ := calcPriority_spec cfg S
  rw [hS]
  exact ⟨rfl, rfl, rfl⟩

theorem exists_merged {B : Sched M} (h : S.beforePrefill cfg input = some B) :
    ∃ T, (S.receive cfg input).mergeLastBatch = some T ∧
      T.rebalanceIfEnabled cfg input.tpot = some B := by
  obtain ⟨T, hm, hr⟩ := Option.bind_eq_some_iff.mp h
  exact ⟨T, hm, hr⟩

variable {i : Nat} {flight : Nat → Bool}

omit [MemoryPools M] in
/-- The running requests of all micro-batches have places. -/
theorem mem_turnPlaces_of_running {j q : Nat} (hj : j < cfg.ppSize)
    (hq : q ∈ reqsOf (S.stages j).runningBatch) : q ∈ S.turnPlaces cfg i := by
  by_cases hne : j = i
  · subst hne
    exact List.mem_append_right _ (List.mem_append_right _ (List.mem_append_left _ hq))
  · have hother := mem_others hj hne (List.mem_append_left _ hq)
    exact List.mem_append_right _ (List.mem_append_right _ (List.mem_append_right _
      (List.mem_append_left _ hother)))

theorem InTurn.of_balanced {B : Sched M} (h : InTurn complete cfg i flight T)
    (hr : T.rebalanceIfEnabled cfg input.tpot = some B) {j q : Nat} (hj : j < cfg.ppSize)
    (hq : q ∈ reqsOf (B.stages j).runningBatch) : q ∈ T.turnPlaces cfg T.cur := by
  have hpos := List.count_pos_iff.mpr (mem_turnPlaces_of_running (i := i) hj hq)
  have hle := (h.rebalance_moved hr).2.2 q
  rw [h.cur]
  exact List.count_pos_iff.mp (by omega)

/-- The state of the admission estimate. -/
theorem InTurn.estimating (h : InTurn complete cfg i flight T)
    (hm : (S.receive cfg input).mergeLastBatch = some T)
    (hU : S.estimating cfg input = some U) : FromMerged cfg T U (U.allRunningReqs cfg) := by
  obtain ⟨B, hbefore, hU⟩ := Option.bind_eq_some_iff.mp hU
  obtain ⟨F, hfetch, hU⟩ := Option.bind_eq_some_iff.mp hU
  obtain rfl := Option.some.inj hU
  obtain ⟨T', hm', hr⟩ := exists_merged hbefore
  obtain rfl : T = T' := Option.some.inj (hm.symm.trans hm')
  have hfetched := fetchChunkedPrefill_spec hfetch
  obtain ⟨hheap, hstages, hnext⟩ := calcPriority_heap cfg F
  have hbalanced : LensKept T B := .of_heap (rebalanceIfEnabled_heap hr)
  refine ⟨(hbalanced.trans (fetchChunkedPrefill_lens hfetch)).trans (.of_heap hheap), ?_,
    fun q hq => ?_⟩
  · have hgrown := ((rebalanceIfEnabled_grown hr).trans hfetched.toFrame.grown).trans
      (Grown.of_same hnext fun q => by rw [hheap]; exact .refl _)
    exact hgrown
  · obtain ⟨j, hj, hq⟩ := List.mem_flatMap.mp hq
    have hlt : j < cfg.ppSize := List.mem_range.mp hj
    rw [hstages] at hq
    refine h.of_balanced hr hlt ?_
    by_cases hcur : j = B.cur
    · have hsame : F.stages j = F.stage := by rw [hcur, stage, hfetched.toFrame.cur]
      rw [hsame, hfetched.stage] at hq
      rw [hcur]
      exact hq
    · rwa [hfetched.stages j hcur] at hq

/-- The state and the batch of the retraction. -/
theorem InTurn.retracting {batch : ScheduleBatch} (hi : i < cfg.ppSize)
    (h : InTurn complete cfg i flight T)
    (hm : (S.receive cfg input).mergeLastBatch = some T)
    (hU : S.retracting cfg input = some (U, batch)) : FromMerged cfg T U batch.reqs := by
  obtain ⟨B, hbefore, hU⟩ := Option.bind_eq_some_iff.mp hU
  obtain ⟨⟨P, newBatch⟩, hprefill, hU⟩ := Option.bind_eq_some_iff.mp hU
  split at hU
  next => simp at hU
  next hnone =>
    obtain ⟨running, hrun, hU⟩ := Option.bind_eq_some_iff.mp hU
    obtain ⟨filtered, hfilter, hU⟩ := Option.bind_eq_some_iff.mp hU
    obtain ⟨rfl, rfl⟩ := Prod.mk.inj (Option.some.inj hU)
    obtain ⟨T', hm', hr⟩ := exists_merged hbefore
    obtain rfl : T = T' := Option.some.inj (hm.symm.trans hm')
    have hbalanced : LensKept T B := .of_heap (rebalanceIfEnabled_heap hr)
    have hnot : NotPrefilled cfg B P := by
      rcases getNewBatchPrefill_spec hprefill with ⟨_, hnot⟩ | ⟨_, _, _, _, hsome, _⟩
      · exact hnot
      · rw [hsome] at hnone
        simp at hnone
    refine ⟨hbalanced.trans (getNewBatchPrefill_lens hprefill), ?_, fun q hq => ?_⟩
    · have hgrown := (rebalanceIfEnabled_grown hr).trans hnot.toFrame.grown
      exact hgrown
    · rw [ScheduleBatch.filterBatch_reqs hfilter] at hq
      have hstage : B.stage = B.stages i := by
        rw [stage, (h.rebalance_moved hr).1.cur, h.cur]
      refine h.of_balanced hr hi ?_
      have hmem : q ∈ reqsOf P.stage.runningBatch := by
        have hrun' : P.stage.runningBatch = some running := hrun
        simpa [reqsOf, hrun'] using (List.mem_filter.mp hq).1
      rw [hnot.stage, hstage] at hmem
      exact hmem

end Sched

end FastPP
