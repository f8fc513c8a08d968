import FastPP.RoundsRun
import FastPP.SlotSafety

namespace FastPP

namespace Sched

variable {M : Type} [MemoryPools M] {cfg : Config} {complete : Prop} {S S' : Sched M}

/-- In the iteration `chunked_prefill_size` is larger than the number of decode requests that
may be mixed in. -/
def ChunksFit (cfg : Config) (input : StepInput) (S : Sched M) : Prop :=
  ∀ B, S.beforePrefill cfg input = some B → B.ChunkBudget cfg

instance (cfg : Config) (S : Sched M) : Decidable (S.ChunkBudget cfg) :=
  decidable_of_iff (S.chunkedPrefillSize.all fun size =>
      decide ((if cfg.isMixedChunk then S.runningBs else 0) < size)) (by
    unfold ChunkBudget
    cases S.chunkedPrefillSize <;> simp)

instance (cfg : Config) (input : StepInput) (S : Sched M) : Decidable (S.ChunksFit cfg input) :=
  decidable_of_iff ((S.beforePrefill cfg input).all fun B => decide (B.ChunkBudget cfg)) (by
    unfold ChunksFit
    cases S.beforePrefill cfg input <;> simp)

/-- The requests of the batch that a rank dispatches in step `d`. -/
def batchAt (cfg : Config) (ppRank : Nat) (mem : M) (inputs : Nat → StepInput)
    (samples : Nat → Nat → Nat) (d : Nat) : List Nat :=
  reqsOf ((run cfg ppRank mem inputs samples d).bind fun S =>
    ((S.receive cfg (inputs d)).getNextBatchToRun cfg (inputs d).tpot).bind (·.2))

/-- In step `d` the batch has a chunk of `q` that is not the last one. -/
def goesOnAt (cfg : Config) (ppRank : Nat) (mem : M) (inputs : Nat → StepInput)
    (samples : Nat → Nat → Nat) (d q : Nat) : Bool :=
  ((run cfg ppRank mem inputs samples d).bind fun S => S.chunkOf cfg (inputs d) q).any
    fun c => !c.isLast

/-- The token that the result of step `d` appends to `output_ids` of `q`, if any. -/
def tokenAt (cfg : Config) (ppRank : Nat) (mem : M) (inputs : Nat → StepInput)
    (samples : Nat → Nat → Nat) (nextTokenIds : List Nat) (d q : Nat) : List Nat :=
  if q ∈ batchAt cfg ppRank mem inputs samples d ∧
      goesOnAt cfg ppRank mem inputs samples d q = false then
    [nextTokenIds.getD ((batchAt cfg ppRank mem inputs samples d).idxOf q) 0]
  else []

/-- Chunked prefill in step `n`, which dispatches `out` from `T` and ends in `S'`: the extend
ranges of every request so far cover its tokens round by round, a request decodes only after
its last chunk, and the result that arrives appends a token to every request of its batch but
the one whose chunk goes on, which alone is still counted as chunked. -/
structure PrefilledOnce (cfg : Config) (ppRank : Nat) (mem : M) (inputs : Nat → StepInput)
    (samples : Nat → Nat → Nat) (n : Nat) (T : Sched M) (out : Option ScheduleBatch)
    (S' : Sched M) : Prop where
  rounds : ∀ q, InRounds (chunks cfg ppRank mem inputs samples q (n + 1))
  covers : ∀ q before c round after,
    chunks cfg ppRank mem inputs samples q (n + 1) = before ++ c :: (round ++ after) →
      (∀ d ∈ round, d.fresh = false) → ∀ last, (c :: round).getLast? = some last →
        last.isLast = true → (c :: round).flatMap (fun d => d.toSpan.cells) =
          List.range' c.start (c.target - c.start)
  once : (reqsOf out).Nodup
  decodes : ∀ b, out = some b → ∀ q ∈ b.decodes, ∃ c,
    (chunks cfg ppRank mem inputs samples q n).getLast? = some c ∧ c.isLast = true
  appends : ∀ q, (S'.heap q).outputIds = (T.heap q).outputIds ++
    if cfg.ppSize - 1 - ppRank ≤ n then
      tokenAt cfg ppRank mem inputs samples
        (T.arrivingTokens cfg (samples (n - (cfg.ppSize - 1 - ppRank))) out)
        (n - (cfg.ppSize - 1 - ppRank)) q
    else []
  counted : cfg.ppSize - 1 - ppRank ≤ n →
    ∀ q ∈ batchAt cfg ppRank mem inputs samples (n - (cfg.ppSize - 1 - ppRank)),
      ((T.heap q).isBeingChunked = 0 ↔
        goesOnAt cfg ppRank mem inputs samples (n - (cfg.ppSize - 1 - ppRank)) q = false)

theorem SchedulePhases.stages {input : StepInput} {merged balanced prefilled decoded : Sched M}
    {newBatch out : Option ScheduleBatch}
    (p : SchedulePhases cfg input S merged balanced prefilled decoded newBatch out) {j : Nat}
    (hj : j ≠ (S.receive cfg input).cur) :
    (decoded.setLastBatch out).stages j = S.stages j := by
  have hmerge : merged.cur = (S.receive cfg input).cur ∧
      merged.stages j = (S.receive cfg input).stages j := by
    rcases mergeLastBatch_spec p.merge with ⟨_, _, _, hmerged⟩ | ⟨_, hquiet⟩
    · exact ⟨hmerged.cur, hmerged.stages j hj⟩
    · exact ⟨hquiet.cur, hquiet.stages j hj⟩
  have hbalance : balanced.cur = merged.cur ∧ balanced.stages j = merged.stages j := by
    have hr := p.rebalance
    unfold rebalanceIfEnabled at hr
    split at hr
    next =>
      have hframe := (rebalance_moved hr).1.toFrame
      exact ⟨hframe.cur, hframe.stages j (hmerge.1 ▸ hj)⟩
    next => rw [Option.some.inj hr]; exact ⟨rfl, rfl⟩
  have hcur := hbalance.1.trans hmerge.1
  have hprefill : prefilled.cur = balanced.cur ∧ prefilled.stages j = balanced.stages j := by
    rcases getNewBatchPrefill_spec p.prefill with ⟨_, hnot⟩ | ⟨_, _, _, _, _, _, hp⟩
    · exact ⟨hnot.toFrame.cur, hnot.toFrame.stages j (hcur ▸ hj)⟩
    · exact ⟨by rw [Sched.cur, hp.curPP, Sched.cur], hp.stages j (hcur ▸ hj)⟩
  have hcur' := hprefill.1.trans hcur
  have hdecode : decoded.cur = prefilled.cur ∧ decoded.stages j = prefilled.stages j := by
    rcases orDecode_spec p.decode with ⟨_, _, hsame⟩ | ⟨_, hdecoded⟩
    · rw [hsame]
      exact ⟨rfl, rfl⟩
    · exact ⟨hdecoded.toFrame.cur, hdecoded.toFrame.stages j (hcur' ▸ hj)⟩
  have hcur'' := hdecode.1.trans hcur'
  rw [(setLastBatch_stages decoded out).1 j (hcur'' ▸ hj), hdecode.2, hprefill.2, hbalance.2,
    hmerge.2, (receive_spec cfg input S).stages]

theorem chunks_succ {r n : Nat} {mem : M} {inputs : Nat → StepInput} {samples : Nat → Nat → Nat}
    (hrun : run cfg r mem inputs samples n = some S) (q : Nat) :
    chunks cfg r mem inputs samples q (n + 1) =
      chunks cfg r mem inputs samples q n ++ (S.chunkOf cfg (inputs n) q).toList := by
  unfold chunks
  rw [List.range_succ, List.filterMap_append, List.filterMap_cons, hrun, Option.bind_some]
  cases S.chunkOf cfg (inputs n) q <;> rfl

variable {r n : Nat} {mem : M} {inputs : Nat → StepInput} {samples : Nat → Nat → Nat}

/-- What scheduling in step `n` does to the invariants. -/
theorem Turn.dispatches {sample : Nat → Nat} {merged balanced prefilled decoded : Sched M}
    {newBatch out : Option ScheduleBatch} (hr : r < cfg.ppSize)
    (hcount : S.curPP = .after cfg.ppSize r n)
    (h : Placed complete cfg (n % cfg.ppSize)
      (flying cfg.ppSize (cfg.ppSize - 1 - r) (n % cfg.ppSize)) S)
    (hk : RoundsKept cfg (n % cfg.ppSize) (fun q => chunks cfg r mem inputs samples q n) S)
    (hf : Flights cfg (n % cfg.ppSize) n (batchAt cfg r mem inputs samples)
      (goesOnAt cfg r mem inputs samples) S)
    (hroom : ¬ S.FetchesWhenFull cfg (inputs n)) (hbudget : S.ChunksFit cfg (inputs n))
    (hrun : run cfg r mem inputs samples n = some S)
    (t : Turn cfg (inputs n) sample S merged balanced prefilled decoded newBatch out S') :
    Dispatched cfg (inputs n) (n % cfg.ppSize) (fun q => chunks cfg r mem inputs samples q n) S
        decoded out ∧
      Flights cfg ((n % cfg.ppSize + 1) % cfg.ppSize) (n + 1) (batchAt cfg r mem inputs samples)
        (goesOnAt cfg r mem inputs samples) (decoded.setLastBatch out) := by
  have hi : n % cfg.ppSize < cfg.ppSize := Nat.mod_lt _ (by omega)
  have hcur : (S.receive cfg (inputs n)).cur = n % cfg.ppSize := receive_cur hcount
  have hlanded := not_flying_self hr (n % cfg.ppSize)
  have p : SchedulePhases cfg (inputs n) S merged balanced prefilled decoded newBatch out :=
    ⟨t.merge, t.rebalance, t.prefill, t.decode⟩
  have hd := hk.schedule hi h hcur hlanded hroom (hbudget balanced p.beforePrefill) p
  refine ⟨hd, hf.dispatch hi (fun j hj => p.stages (hcur.symm ▸ hj)) ?_ fun q => ?_⟩
  · rw [hd.last, batchAt, hrun, Option.bind_some, t.getNextBatchToRun, Option.bind_some]
  · rw [hd.goesOn q, goesOnAt, hrun, Option.bind_some]

/-- The extend ranges of all requests stay in rounds, and every rank knows what each micro-batch
dispatched last. -/
theorem run_rounds (hr : r < cfg.ppSize)
    (hroom : ∀ k < n, ∀ S, run cfg r mem inputs samples k = some S →
      ¬ S.FetchesWhenFull cfg (inputs k))
    (hbudget : ∀ k < n, ∀ S, run cfg r mem inputs samples k = some S →
      S.ChunksFit cfg (inputs k))
    (hrun : run cfg r mem inputs samples n = some S) :
    RoundsKept cfg (n % cfg.ppSize) (fun q => chunks cfg r mem inputs samples q n) S ∧
      Flights cfg (n % cfg.ppSize) n (batchAt cfg r mem inputs samples)
        (goesOnAt cfg r mem inputs samples) S := by
  induction n generalizing S with
  | zero =>
    cases Option.some.inj hrun
    rw [Nat.zero_mod]
    refine ⟨⟨fun _ => .nil, by simp [Sched.init], fun q _ c hc => ?_, by simp [Sched.init, reqsOf],
      by simp [Sched.init, Stage.settled, reqsOf, Stage.ownReqs]⟩, flights_init cfg r mem⟩
    simp [chunks] at hc
  | succ n ih =>
    obtain ⟨S₁, hbefore, hrun⟩ := Option.bind_eq_some_iff.mp hrun
    obtain ⟨⟨S₂, out⟩, hstep, hrun⟩ := Option.bind_eq_some_iff.mp hrun
    cases Option.some.inj hrun
    obtain ⟨hcount, hplaced⟩ := run_placed_any hr (fun k hk => hroom k (by omega)) hbefore
    obtain ⟨hkept, hflights⟩ := ih (fun k hk => hroom k (by omega))
      (fun k hk => hbudget k (by omega)) hbefore
    obtain ⟨merged, balanced, prefilled, decoded, newBatch, t⟩ := exists_turn hstep
    have hnow := hroom n (by omega) S₁ hbefore
    obtain ⟨hd, hf⟩ := t.dispatches hr hcount hplaced hkept hflights hnow
      (hbudget n (by omega) S₁ hbefore) hbefore
    obtain ⟨_, _, hplaced'⟩ := t.placed hr hcount hplaced hnow
    have hi : n % cfg.ppSize < cfg.ppSize := Nat.mod_lt _ (by omega)
    have hidx := t.arriving hcount
    have hchunks := chunks_succ hbefore
    have hkept' := hd.kept.congr fun q => hchunks q
    rw [show (n + 1) % cfg.ppSize = (n % cfg.ppSize + 1) % cfg.ppSize by simp]
    obtain ⟨hflight, holdest, _⟩ := flying_next hr hi
    have hlt : (r + n % cfg.ppSize + 1) % cfg.ppSize < cfg.ppSize := Nat.mod_lt _ (by omega)
    have hnext : (n % cfg.ppSize + 1) % cfg.ppSize < cfg.ppSize := Nat.mod_lt _ (by omega)
    rcases (hplaced'.finish hr hi hidx (fun hfalse => hfalse.elim) t.finish).2 with
      ⟨batch, _, hlast, _, hdeliver, hdelivered⟩ | ⟨_, ratio, rfl⟩
    · refine ⟨hkept'.deliver hnext hplaced' hlt hlast hflight holdest (fun hfalse => hfalse.elim)
          hdeliver,
        hf.congr (fun j => ?_) (fun j => (hdelivered.stages j).2.1)
          fun j => (hdelivered.stages j).2.2⟩
      obtain ⟨_, _, _, rfl⟩ := hdelivered.others
      by_cases hj : j = (r + n % cfg.ppSize + 1) % cfg.ppSize
      · subst hj
        simp only [Function.update_self]
        exact Stage.modifyLast_last_reqs _ fun _ => rfl
      · simp [hj]
    · exact ⟨⟨hkept'.rounds, hkept'.carried, hkept'.settled, hkept'.pending, hkept'.begun⟩,
        hf.last, hf.goesOn⟩

/-- On every rank, in every run in which each chunk budget is larger than the number of decode
requests mixed in, no chunked request is fetched into a full micro-batch and no request is left
without its result, chunked prefill covers the tokens of every request exactly once. -/
theorem run_prefilledOnce (hr : r < cfg.ppSize)
    (hroom : ∀ k ≤ n, ∀ S, run cfg r mem inputs samples k = some S →
      ¬ S.FetchesWhenFull cfg (inputs k))
    (hbudget : ∀ k ≤ n, ∀ S, run cfg r mem inputs samples k = some S →
      S.ChunksFit cfg (inputs k))
    (hfill : ∀ k ≤ n, ∀ S, run cfg r mem inputs samples k = some S →
      ¬ S.FillsShort cfg (inputs k))
    (hrun : run cfg r mem inputs samples n = some S) {T : Sched M} {out : Option ScheduleBatch}
    (hnext : (S.receive cfg (inputs n)).getNextBatchToRun cfg (inputs n).tpot = some (T, out))
    (hfinish : T.finishStep cfg (samples (n - (cfg.ppSize - 1 - r))) out = some S') :
    PrefilledOnce cfg r mem inputs samples n T out S' := by
  obtain ⟨hcount, hplaced⟩ := run_placed hr (fun k hk => hroom k (by omega))
    (fun (_ : True) k hk => hfill k (by omega)) hrun
  obtain ⟨hkept, hflights⟩ := run_rounds hr (fun k hk => hroom k (by omega))
    (fun k hk => hbudget k (by omega)) hrun
  obtain ⟨merged, balanced, prefilled, newBatch, p⟩ := schedulePhases hnext
  have t : Turn cfg (inputs n) (samples (n - (cfg.ppSize - 1 - r))) S merged balanced prefilled T
      newBatch out S' := ⟨p.merge, p.rebalance, p.prefill, p.decode, hfinish⟩
  have hnow := hroom n le_rfl S hrun
  obtain ⟨hd, hf⟩ := t.dispatches hr hcount hplaced hkept hflights hnow
    (hbudget n le_rfl S hrun) hrun
  obtain ⟨_, _, hplaced'⟩ := t.placed hr hcount hplaced hnow
  have hrounds : ∀ q, InRounds (chunks cfg r mem inputs samples q (n + 1)) := fun q => by
    rw [chunks_succ hrun]
    exact hd.kept.rounds q
  have hi : n % cfg.ppSize < cfg.ppSize := Nat.mod_lt _ (by omega)
  have hnext' : (n % cfg.ppSize + 1) % cfg.ppSize < cfg.ppSize := Nat.mod_lt _ (by omega)
  have happends := hf.appends hr hi (t.arriving hcount) hplaced'
    (t.resultComplete (hfill n le_rfl S hrun)) t.finish
  refine ⟨hrounds, fun q before c round after hsplit hround last hlast hends =>
      (hrounds q).covers_all hsplit hround hlast hends, ?_, hd.decodes, fun q => ?_,
    fun hle q hq => ?_⟩
  · cases hout : out with
    | none => simp [reqsOf]
    | some b =>
      have hlast : ((T.setLastBatch out).stages (n % cfg.ppSize)).last = some b :=
        hd.last.trans hout
      exact (hplaced'.last_cases hnext' hi hlast).1
  · rw [happends q]
    unfold tokenAt
    by_cases hle : cfg.ppSize - 1 - r ≤ n
    · simp only [hle, true_and, if_true]
    · simp only [hle, false_and, if_false]
  · have hmem : q ∈ reqsOf ((T.setLastBatch out).stages ((r + n % cfg.ppSize + 1) %
        cfg.ppSize)).last := by
      rw [(hf.arriving hr hi).1, if_pos hle]
      exact hq
    cases hlast : ((T.setLastBatch out).stages ((r + n % cfg.ppSize + 1) % cfg.ppSize)).last with
    | none => simp [hlast, reqsOf] at hmem
    | some b => exact (hf.arrives hr hi hplaced' hlast (by simpa [reqsOf, hlast] using hmem)).2

end Sched

/-- The first rank dispatches the last chunk of the long request while the results of the two
before it are on their way. -/
theorem run_prefilledOnce_longSecond : ∃ S T out S', chunkedRun twoRanks 3 = some S ∧
    (S.receive twoRanks (longSecond 3)).getNextBatchToRun twoRanks (longSecond 3).tpot =
      some (T, out) ∧
    Sched.PrefilledOnce twoRanks 0 (Memory.clear 4 100) longSecond (fun _ i => i) 3 T out S' := by
  have hroom : ∀ k ≤ 3, ((chunkedRun twoRanks k).all fun S =>
      !decide (S.FetchesWhenFull twoRanks (longSecond k))) = true := by
    decide +kernel
  have hbudget : ∀ k ≤ 3, ((chunkedRun twoRanks k).all fun S =>
      decide (S.ChunksFit twoRanks (longSecond k))) = true := by
    decide +kernel
  have hfill : ∀ k ≤ 3, ((chunkedRun twoRanks k).all fun S =>
      !decide (S.FillsShort twoRanks (longSecond k))) = true := by
    decide +kernel
  have hsome : (chunkedRun twoRanks 4).isSome = true := by decide +kernel
  obtain ⟨S₄, hS₄⟩ := Option.isSome_iff_exists.mp hsome
  obtain ⟨S, hS, hstep⟩ := Option.bind_eq_some_iff.mp hS₄
  obtain ⟨⟨S₁, out'⟩, hstep, _⟩ := Option.bind_eq_some_iff.mp hstep
  obtain ⟨⟨T, out⟩, hnext, hstep⟩ := Option.bind_eq_some_iff.mp hstep
  obtain ⟨S', hfinish, _⟩ := Option.bind_eq_some_iff.mp hstep
  refine ⟨S, T, out, S', hS, hnext, Sched.run_prefilledOnce (by decide) (fun k hk S hrun => ?_)
    (fun k hk S hrun => ?_) (fun k hk S hrun => ?_) hS hnext hfinish⟩
  · have hk' := (Option.all_eq_true _ _).mp (hroom k hk) S hrun
    simpa using hk'
  · have hk' := (Option.all_eq_true _ _).mp (hbudget k hk) S hrun
    simpa using hk'
  · have hk' := (Option.all_eq_true _ _).mp (hfill k hk) S hrun
    simpa using hk'

/-- The three ranges of the long request. -/
example : Sched.chunks twoRanks 0 (Memory.clear 4 100) longSecond (fun _ i => i) 1 4 =
    [⟨⟨0, 4⟩, 10, true⟩, ⟨⟨4, 8⟩, 10, false⟩, ⟨⟨8, 10⟩, 10, false⟩] := by
  decide +kernel

/-- Three ranks with a tokenizer. -/
def tokenizedRanks : Config :=
  { twoRanks with
    ppSize := 3
    tokenizer := some ⟨none, [], fun _ => ""⟩
    enableBatchRebalancing := false }

/-- A request for one token and one in two chunks, then one with an empty prompt. -/
def emptyThird (step : Nat) : StepInput where
  recvReqs := if step = 0 then
      [.generate (plainInput 1 [5] 8), .generate (plainInput 2 [0, 1, 2, 3, 4] 8)]
    else if step = 2 then [.generate (plainInput 3 [] 8)] else []
  availableSize := 100
  chunkSync := none
  tpot := 0

/-- The first of three ranks with the empty prompt. -/
def emptyPromptRun : Nat → Option (Sched Memory) :=
  Sched.run tokenizedRanks 0 (Memory.clear 4 100) emptyThird fun _ i => i

/-- The one zero of the empty prompt takes the place of the result of the two requests before
it, so that the chunk of the second one still counts when the result of its last chunk arrives,
whose token is dropped. -/
theorem last_chunk_token_dropped :
    (∀ k ≤ 3, ∀ S, emptyPromptRun k = some S →
      ¬ S.FetchesWhenFull tokenizedRanks (emptyThird k) ∧
        S.ChunksFit tokenizedRanks (emptyThird k)) ∧
    ∃ S T out S', emptyPromptRun 3 = some S ∧
      (S.receive tokenizedRanks (emptyThird 3)).getNextBatchToRun tokenizedRanks
        (emptyThird 3).tpot = some (T, out) ∧
      T.finishStep tokenizedRanks (fun i => i) out = some S' ∧
      ¬ Sched.PrefilledOnce tokenizedRanks 0 (Memory.clear 4 100) emptyThird (fun _ i => i) 3 T out
        S' := by
  have hsteps : ∀ k ≤ 3, ((emptyPromptRun k).all fun S =>
      !decide (S.FetchesWhenFull tokenizedRanks (emptyThird k)) &&
        decide (S.ChunksFit tokenizedRanks (emptyThird k))) = true := by
    decide +kernel
  have hlast : 1 ∈ Sched.batchAt tokenizedRanks 0 (Memory.clear 4 100) emptyThird (fun _ i => i) 1 ∧
      Sched.goesOnAt tokenizedRanks 0 (Memory.clear 4 100) emptyThird (fun _ i => i) 1 1 =
        false := by
    decide +kernel
  have hview : ((emptyPromptRun 3).bind fun S =>
      ((S.receive tokenizedRanks (emptyThird 3)).getNextBatchToRun tokenizedRanks
        (emptyThird 3).tpot).bind fun next =>
          (next.1.finishStep tokenizedRanks (fun i => i) next.2).map fun _ =>
            (next.1.heap 1).isBeingChunked) = some 1 := by
    decide +kernel
  obtain ⟨S, hS, hview⟩ := Option.bind_eq_some_iff.mp hview
  obtain ⟨⟨T, out⟩, hnext, hview⟩ := Option.bind_eq_some_iff.mp hview
  obtain ⟨S', hfinish, hcounter⟩ := Option.map_eq_some_iff.mp hview
  refine ⟨fun k hk S₁ hrun => ?_, S, T, out, S', hS, hnext, hfinish, fun h => ?_⟩
  · have hstep := hsteps k hk
    rw [hrun] at hstep
    simpa using hstep
  · have hzero := (h.counted (by decide) 1 hlast.1).mpr hlast.2
    rw [hzero] at hcounter
    cases hcounter

end FastPP
