import FastPP.LensRanks
import FastPP.SlotSafety

namespace FastPP

namespace Sched

variable {M : Type} [MemoryPools M] {cfg : Config} {S S' T T' : Sched M} {r r' n : Nat}
  {mem mem' : M} {inputs inputs' : Nat → StepInput} {samples samples' : Nat → Nat → Nat}

/-- A run has all its earlier states. -/
theorem exists_run_before (hrun : run cfg r mem inputs samples n = some S) {k : Nat} (hk : k ≤ n) :
    ∃ T, run cfg r mem inputs samples k = some T := by
  induction n generalizing S with
  | zero => exact ⟨S, by rwa [Nat.le_zero.mp hk]⟩
  | succ n ih =>
    by_cases hlast : k = n + 1
    · exact ⟨S, hlast ▸ hrun⟩
    · obtain ⟨S₁, hbefore, _⟩ := Option.bind_eq_some_iff.mp hrun
      exact ih hbefore (by omega)

/-- Two ranks that formed the same batches agree on the tokens that are due, but for the last
batch. -/
theorem dueAt_agree (hr : r < cfg.ppSize) (hr' : r' < cfg.ppSize) (hp : cfg.ppSize ≠ 1)
    (hroom : ∀ k < n, ∀ S, run cfg r mem inputs samples k = some S →
      ¬ S.FetchesWhenFull cfg (inputs k))
    (hroom' : ∀ k < n, ∀ S, run cfg r' mem' inputs' samples' k = some S →
      ¬ S.FetchesWhenFull cfg (inputs' k))
    (hfill : ∀ k < n, ∀ S, run cfg r mem inputs samples k = some S → ¬ S.FillsShort cfg (inputs k))
    (hfill' : ∀ k < n, ∀ S, run cfg r' mem' inputs' samples' k = some S →
      ¬ S.FillsShort cfg (inputs' k))
    (hrun : run cfg r mem inputs samples n = some S)
    (hrun' : run cfg r' mem' inputs' samples' n = some S')
    (hbatch : ∀ k < n, batchAt cfg r mem inputs samples k = batchAt cfg r' mem' inputs' samples' k)
    {d : Nat} (hd : d + 1 < n) (q : Nat) :
    dueAt cfg r mem inputs samples d q = dueAt cfg r' mem' inputs' samples' d q := by
  unfold dueAt
  rw [hbatch d (by omega)]
  by_cases hq : q ∈ batchAt cfg r' mem' inputs' samples' d
  · have hgoes : goesOnAfter cfg r mem inputs samples d q =
        goesOnAfter cfg r' mem' inputs' samples' d q := by
      obtain ⟨U, hU⟩ := exists_run_before hrun (show d + 1 ≤ n by omega)
      obtain ⟨V, hV⟩ := exists_run_before hrun (show d + 2 ≤ n by omega)
      obtain ⟨U', hU'⟩ := exists_run_before hrun' (show d + 1 ≤ n by omega)
      obtain ⟨V', hV'⟩ := exists_run_before hrun' (show d + 2 ≤ n by omega)
      have hkept := run_kept hr (fun k hk => hroom k (by omega)) (fun k hk => hfill k (by omega)) hU
      have hkept' := run_kept hr' (fun k hk => hroom' k (by omega))
        (fun k hk => hfill' k (by omega)) hU'
      have hiff := hkept.goesOn_iff hr hp (hroom _ hd U hU) hU hV
        (show q ∈ batchAt cfg r mem inputs samples d by rw [hbatch d (by omega)]; exact hq)
      have hiff' := hkept'.goesOn_iff hr' hp (hroom' _ hd U' hU') hU' hV' hq
      rw [hbatch (d + 1) hd] at hiff
      rw [Bool.eq_iff_iff, hiff, hiff']
    rw [hgoes]
  · simp [hq]

theorem dueCount_agree {m q : Nat}
    (h : ∀ d < m, dueAt cfg r mem inputs samples d q = dueAt cfg r' mem' inputs' samples' d q) :
    dueCount cfg r mem inputs samples m q = dueCount cfg r' mem' inputs' samples' m q := by
  unfold dueCount
  refine List.countP_congr fun d hd => ?_
  rw [h d (List.mem_range.mp hd)]

/-- Two ranks with the same messages made their requests with the same inputs. -/
theorem merged_sameInput (hrun : run cfg r mem inputs samples n = some S)
    (hrun' : run cfg r' mem' inputs' samples' n = some S')
    (hrecv : ∀ k ≤ n, (inputs k).recvReqs = (inputs' k).recvReqs)
    (hm : (S.receive cfg (inputs n)).mergeLastBatch = some T)
    (hm' : (S'.receive cfg (inputs' n)).mergeLastBatch = some T') {q : Nat} (hq : q < T.nextReq) :
    (T'.heap q).originInputIds = (T.heap q).originInputIds ∧
      (T'.heap q).samplingParams = (T.heap q).samplingParams := by
  have hgrown := ((run_arrivals hrun).trans (grown_receive cfg (inputs n) S)).trans
    (mergeLastBatch_grown hm)
  have hgrown' := ((run_arrivals hrun').trans (grown_receive cfg (inputs' n) S')).trans
    (mergeLastBatch_grown hm')
  have hsame : arrivals inputs' n ++ generated (inputs' n).recvReqs =
      arrivals inputs n ++ generated (inputs n).recvReqs := by
    rw [← arrivals_succ, ← arrivals_succ]
    unfold arrivals
    rw [List.flatMap_def, List.flatMap_def]
    refine congrArg List.flatten (List.map_congr_left fun k hk => ?_)
    rw [hrecv k (by have := List.mem_range.mp hk; omega)]
  rw [hsame] at hgrown'
  have hlt : q < (arrivals inputs n ++ generated (inputs n).recvReqs ++ []).length := by
    have hnext := hgrown.nextReq
    have hzero : (Sched.init cfg r mem).nextReq = 0 := rfl
    omega
  have hget := List.getElem?_eq_getElem hlt
  have hnew := hgrown.new q _ hget
  have hnew' := hgrown'.new q _ hget
  have hindex : (Sched.init cfg r mem).nextReq + q = q := Nat.zero_add q
  have hindex' : (Sched.init cfg r' mem').nextReq + q = q := Nat.zero_add q
  rw [hindex] at hnew
  rw [hindex'] at hnew'
  exact ⟨hnew'.originInputIds.trans hnew.originInputIds.symm,
    hnew'.samplingParams.trans hnew.samplingParams.symm⟩

omit [MemoryPools M] in
/-- The sort of the retraction reads `output_ids_len` and the prompt lengths only. -/
theorem retractOrder_congr {batch batch' : ScheduleBatch} (hreqs : batch.reqs = batch'.reqs)
    (h : ∀ q ∈ batch.reqs, (S.heap q).outputIdsLen = (S'.heap q).outputIdsLen ∧
      (S.heap q).originInputIds = (S'.heap q).originInputIds) :
    S.retractOrder batch = S'.retractOrder batch' := by
  unfold retractOrder
  dsimp only
  rw [← hreqs]
  congr 2
  funext i j
  refine decide_eq_decide.mpr ?_
  cases hi : batch.reqs[i]? with
  | none =>
    cases hj : batch.reqs[j]? with
    | none => exact Iff.rfl
    | some q => simp only [h q (List.mem_of_getElem? hj)]
  | some p =>
    cases hj : batch.reqs[j]? with
    | none => simp only [h p (List.mem_of_getElem? hi)]
    | some q => simp only [h p (List.mem_of_getElem? hi), h q (List.mem_of_getElem? hj)]

/-- A rank agrees with itself. -/
theorem CountersAgree.refl (cfg : Config) (input : StepInput) (S : Sched M) :
    CountersAgree cfg input input S S := by
  refine ⟨fun T T' hm hm' q _ _ => ?_, fun U U' hU hU' q _ _ => ?_,
    fun U U' hU hU' _ _ _ mixed => ?_, fun U batch U' batch' hU hU' _ => ?_⟩
  · rw [Option.some.inj (hm.symm.trans hm')]
  · rw [Option.some.inj (hU.symm.trans hU')]
  · rw [Option.some.inj (hU.symm.trans hU')]
  · obtain ⟨rfl, rfl⟩ := Prod.mk.inj (Option.some.inj (hU.symm.trans hU'))
    rfl

theorem RunKept.inTurn (hr : r < cfg.ppSize) (h : RunKept cfg r mem inputs samples n S)
    (hm : (S.receive cfg (inputs n)).mergeLastBatch = some T) :
    InTurn True cfg (n % cfg.ppSize)
      (flying cfg.ppSize (cfg.ppSize - 1 - r) (n % cfg.ppSize)) T :=
  (h.placed.receive (receive_spec cfg (inputs n) S)).merge (Nat.mod_lt _ (by omega))
    (receive_cur h.count) (not_flying_self hr _) hm

/-- Two ranks that formed the same batches have the same counters. -/
theorem counters_agree (hr : r < cfg.ppSize) (hr' : r' < cfg.ppSize) (hp : cfg.ppSize ≠ 1)
    (hroom : ∀ k < n, ∀ S, run cfg r mem inputs samples k = some S →
      ¬ S.FetchesWhenFull cfg (inputs k))
    (hroom' : ∀ k < n, ∀ S, run cfg r' mem' inputs' samples' k = some S →
      ¬ S.FetchesWhenFull cfg (inputs' k))
    (hfill : ∀ k < n, ∀ S, run cfg r mem inputs samples k = some S → ¬ S.FillsShort cfg (inputs k))
    (hfill' : ∀ k < n, ∀ S, run cfg r' mem' inputs' samples' k = some S →
      ¬ S.FillsShort cfg (inputs' k))
    (hrun : run cfg r mem inputs samples n = some S)
    (hrun' : run cfg r' mem' inputs' samples' n = some S')
    (hrecv : ∀ k ≤ n, (inputs k).recvReqs = (inputs' k).recvReqs)
    (hbatch : ∀ k < n, batchAt cfg r mem inputs samples k =
      batchAt cfg r' mem' inputs' samples' k) :
    CountersAgree cfg (inputs n) (inputs' n) S S' := by
  have hi : n % cfg.ppSize < cfg.ppSize := Nat.mod_lt _ (by omega)
  have hkept := run_kept hr hroom hfill hrun
  have hkept' := run_kept hr' hroom' hfill' hrun'
  have hlens : ∀ T T', (S.receive cfg (inputs n)).mergeLastBatch = some T →
      (S'.receive cfg (inputs' n)).mergeLastBatch = some T' → ∀ q, T.InPlay cfg q →
        T'.InPlay cfg q → (T.heap q).outputIdsLen = (T'.heap q).outputIdsLen := by
    intro T T' hm hm' q hq hq'
    have hcounted := hkept.tokens.merge hr hkept.count hkept.placed hkept.flights hm
    have hcounted' := hkept'.tokens.merge hr' hkept'.count hkept'.placed hkept'.flights hm'
    unfold InPlay at hq hq'
    rw [(hkept.inTurn hr hm).cur] at hq
    rw [(hkept'.inTurn hr' hm').cur] at hq'
    rw [hcounted.lens q hq, hcounted'.lens q hq']
    exact dueCount_agree fun d hd =>
      dueAt_agree hr hr' hp hroom hroom' hfill hfill' hrun hrun' hbatch (by omega) q
  -- what the later states of the step have in common for requests with places on both ranks
  have hshared : ∀ T T' U U' qs qs', (S.receive cfg (inputs n)).mergeLastBatch = some T →
      (S'.receive cfg (inputs' n)).mergeLastBatch = some T' → FromMerged cfg T U qs →
        FromMerged cfg T' U' qs' → ∀ q ∈ qs, q ∈ qs' →
          (U.heap q).outputIdsLen = (U'.heap q).outputIdsLen ∧
          (U.heap q).originInputIds = (U'.heap q).originInputIds ∧
          (U.heap q).samplingParams = (U'.heap q).samplingParams := by
    intro T T' U U' qs qs' hm hm' hU hU' q hq hq'
    have hplace := hU.places q hq
    have hplace' := hU'.places q hq'
    have hturn := hkept.inTurn hr hm
    have hturn' := hkept'.inTurn hr' hm'
    have hlt : q < T.nextReq := hturn.once.lt (hturn.cur ▸ hplace)
    have hlt' : q < T'.nextReq := hturn'.once.lt (hturn'.cur ▸ hplace')
    have hsame := hU.grown.old q hlt
    have hsame' := hU'.grown.old q hlt'
    obtain ⟨horigin, hparams⟩ := merged_sameInput hrun hrun' hrecv hm hm' hlt
    refine ⟨?_, ?_, ?_⟩
    · rw [hU.lens q, hU'.lens q, hlens T T' hm hm' q (Or.inl hplace) (Or.inl hplace')]
    · rw [hsame.originInputIds, hsame'.originInputIds, horigin]
    · rw [hsame.samplingParams, hsame'.samplingParams, hparams]
  have hremaining : ∀ U U', S.estimating cfg (inputs n) = some U →
      S'.estimating cfg (inputs' n) = some U' → ∀ q ∈ U.allRunningReqs cfg,
        q ∈ U'.allRunningReqs cfg → U.remainingTokens cfg q = U'.remainingTokens cfg q := by
    intro U U' hU hU' q hq hq'
    obtain ⟨B, hbefore, _⟩ := Option.bind_eq_some_iff.mp hU
    obtain ⟨B', hbefore', _⟩ := Option.bind_eq_some_iff.mp hU'
    obtain ⟨T, hm, _⟩ := exists_merged hbefore
    obtain ⟨T', hm', _⟩ := exists_merged hbefore'
    obtain ⟨hlen, _, hparams⟩ := hshared T T' U U' _ _ hm hm'
      ((hkept.inTurn hr hm).estimating hm hU) ((hkept'.inTurn hr' hm').estimating hm' hU') q hq hq'
    unfold remainingTokens
    rw [hlen, hparams]
  refine ⟨hlens, hremaining, fun U U' hU hU' hrunning hratio havailable mixed => ?_,
    fun U batch U' batch' hU hU' hreqs => ?_⟩
  · rw [init_remTotalTokens, init_remTotalTokens, havailable, hratio, ← hrunning]
    congr 2
    refine List.map_congr_left fun q hq => ?_
    rw [hremaining U U' hU hU' q hq (hrunning ▸ hq)]
  · obtain ⟨B, hbefore, _⟩ := Option.bind_eq_some_iff.mp hU
    obtain ⟨B', hbefore', _⟩ := Option.bind_eq_some_iff.mp hU'
    obtain ⟨T, hm, _⟩ := exists_merged hbefore
    obtain ⟨T', hm', _⟩ := exists_merged hbefore'
    refine retractOrder_congr hreqs fun q hq => ?_
    obtain ⟨hlen, horigin, _⟩ := hshared T T' U U' _ _ hm hm'
      ((hkept.inTurn hr hm).retracting hi hm hU) ((hkept'.inTurn hr' hm').retracting hi hm' hU')
      q hq (hreqs ▸ hq)
    exact ⟨hlen, horigin⟩

/-- In every run in which no rank fetches a chunked request into a full micro-batch or leaves
requests without a result, `output_ids_len` tracks the generated tokens, on all ranks alike. -/
theorem run_lensTracked {mem : Nat → M} {inputs : Nat → Nat → StepInput}
    {samples : Nat → Nat → Nat → Nat}
    (hrecv : ∀ r < cfg.ppSize, ∀ r' < cfg.ppSize, ∀ k ≤ n,
      (inputs r k).recvReqs = (inputs r' k).recvReqs)
    (hroom : ∀ r < cfg.ppSize, ∀ k < n, ∀ S,
      run cfg r (mem r) (inputs r) (samples r) k = some S →
        ¬ S.FetchesWhenFull cfg (inputs r k))
    (hfill : ∀ r < cfg.ppSize, ∀ k < n, ∀ S,
      run cfg r (mem r) (inputs r) (samples r) k = some S → ¬ S.FillsShort cfg (inputs r k)) :
    LensTracked cfg mem inputs samples n := by
  refine ⟨fun r hr S hrun T hm q hq _ => ?_, fun hbatch r hr r' hr' S S' hrun hrun' => ?_⟩
  · exact (run_kept hr (hroom r hr) (hfill r hr) hrun).merged_lens hr hm hq
  · by_cases hp : cfg.ppSize = 1
    · obtain rfl : r = r' := by omega
      obtain rfl : S = S' := Option.some.inj (hrun.symm.trans hrun')
      exact .refl cfg _ S
    · exact counters_agree hr hr' hp (hroom r hr) (hroom r' hr') (hfill r hr) (hfill r' hr') hrun
        hrun' (hrecv r hr r' hr') fun k hk => hbatch k hk r hr r' hr'

end Sched

/-- A run of a rank on its pools. -/
def rankRun (cfg : Config) (inputs : Nat → StepInput) (r : Nat) : Nat → Option (Sched Memory) :=
  Sched.run cfg r (Memory.clear 4 100) inputs fun _ i => i

/-- Both ranks prefill the long request in chunks while the short one decodes. -/
theorem run_lensTracked_longSecond :
    (∀ r < 2, (rankRun twoRanks longSecond r 4).isSome = true) ∧
      Sched.LensTracked twoRanks (fun _ => Memory.clear 4 100) (fun _ => longSecond)
        (fun _ _ i => i) 4 := by
  have hsome : ∀ r < 2, (rankRun twoRanks longSecond r 4).isSome = true := by decide +kernel
  have hsteps : ∀ r < 2, ∀ k < 4, ((rankRun twoRanks longSecond r k).all fun S =>
      !decide (S.FetchesWhenFull twoRanks (longSecond k)) &&
        !decide (S.FillsShort twoRanks (longSecond k))) = true := by
    decide +kernel
  have hnow : ∀ r < 2, ∀ k < 4, ∀ S, rankRun twoRanks longSecond r k = some S →
      ¬ S.FetchesWhenFull twoRanks (longSecond k) ∧ ¬ S.FillsShort twoRanks (longSecond k) := by
    intro r hr k hk S hrun
    have hstep := hsteps r hr k hk
    rw [hrun] at hstep
    simpa using hstep
  exact ⟨hsome, Sched.run_lensTracked (fun _ _ _ _ _ _ => rfl)
    (fun r hr k hk S hrun => (hnow r hr k hk S hrun).1)
    fun r hr k hk S hrun => (hnow r hr k hk S hrun).2⟩

/-- A request for one token and one in two chunks, for eight tokens. -/
def chunkedAfterShort (step : Nat) : StepInput where
  recvReqs := if step = 0 then [.generate (plainInput 1 [5] 1)]
    else if step = 1 then [.generate (plainInput 2 [0, 1, 2, 3, 4] 8)] else []
  availableSize := 100
  chunkSync := none
  tpot := 0

/-- The full micro-batch of the short request fetches the chunked one, which is then prefilled
only a step later. On the last rank `output_ids_len` is behind when it decodes. -/
theorem not_lensTracked_fullStage :
    ¬ Sched.LensTracked fullStage (fun _ => Memory.clear 4 100) (fun _ => chunkedAfterShort)
      (fun _ _ i => i) 5 := by
  intro h
  have hview : ((rankRun fullStage chunkedAfterShort 1 5).bind fun S =>
      (S.receive fullStage (chunkedAfterShort 5)).mergeLastBatch).map (fun T =>
        (reqsOf T.stage.runningBatch, (T.heap 1).finished, (T.heap 1).outputIdsLen,
          (T.heap 1).outputIds.length)) = some ([1], false, 1, 2) := by
    decide +kernel
  obtain ⟨T, hT, hview⟩ := Option.map_eq_some_iff.mp hview
  obtain ⟨S, hS, hm⟩ := Option.bind_eq_some_iff.mp hT
  obtain ⟨hreqs, hview⟩ := Prod.mk.inj hview
  obtain ⟨hfinished, hview⟩ := Prod.mk.inj hview
  obtain ⟨hlen, houtputs⟩ := Prod.mk.inj hview
  have hcounted := h.counted 1 (by decide) S hS T hm 1 (by simp [hreqs]) hfinished
  omega

end FastPP
