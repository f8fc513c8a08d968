import FastPP.RebalanceSize

namespace FastPP

namespace Sched

variable {M : Type}

/-- A batch that is absent, empty or index-aligned, as `rebalance` finds it. -/
def AlignedUnlessEmpty (heap : Nat → Req) (rows : Rows) (batch : Option ScheduleBatch) : Prop :=
  ∀ b, batch = some b → b.reqs ≠ [] → b.Aligned heap rows

theorem splitBatch_total {heap : Nat → Req} {rows : Rows} {batch : ScheduleBatch}
    (useTpotFirst isTake : Bool) {count : Nat} (hpos : 0 < count)
    (bound : count ≤ batch.batchSize) (aligned : batch.Aligned heap rows) :
    ∃ keep move,
      batch.splitBatch heap (getSplitIndices useTpotFirst batch.batchSize count isTake).1
        (getSplitIndices useTpotFirst batch.batchSize count isTake).2 = some (keep, some move) ∧
      move.Aligned heap rows ∧ AlignedUnlessEmpty heap rows keep := by
  obtain ⟨keep, move, hlen, hkeep, hmove, _⟩ := gather_splitIndices bound useTpotFirst isTake
  have sub : ∀ {indices kept : List Nat}, gather batch.reqs indices = some kept →
      ∃ out, batch.makeSubBatch? heap indices = some out ∧ (out.isSome ↔ kept ≠ []) ∧
        ∀ b, out = some b → b.Aligned heap rows := by
    intro indices kept hk
    have hkept := gather_length hk
    unfold ScheduleBatch.makeSubBatch?
    split
    next hnil =>
      exact ⟨none, rfl, by simp [List.length_eq_zero_iff.mp (hkept.trans (by simp [hnil]))],
        by simp⟩
    next hne =>
      obtain ⟨out, hout, halign⟩ := aligned.makeSubBatch hk
      refine ⟨some out, by simp [hout], ?_, fun b hb => Option.some.inj hb ▸ halign⟩
      have : kept ≠ [] := fun hnil => hne (List.length_eq_zero_iff.mp (by simpa [hnil] using hkept.symm))
      simp [this]
  obtain ⟨out, hout, _, houtAligned⟩ := sub hkeep
  obtain ⟨drop, hdrop, hsome, hdropAligned⟩ := sub hmove
  have hne : move ≠ [] := fun hnil => by simp [hnil] at hlen; omega
  obtain ⟨moved, rfl⟩ := Option.isSome_iff_exists.mp (hsome.mpr hne)
  refine ⟨out, moved, ?_, hdropAligned moved rfl, fun b hb _ => houtAligned b hb⟩
  have hmove' : batch.makeSubBatch? heap
      (getSplitIndices useTpotFirst batch.batchSize count isTake).2 = some (some moved) := hdrop
  have hkeep' : batch.makeSubBatch? heap
      (getSplitIndices useTpotFirst batch.batchSize count isTake).1 = some out := hout
  simp [ScheduleBatch.splitBatch, hkeep', hmove']

theorem beforePending_total {heap : Nat → Req} {rows : Rows} {move : ScheduleBatch}
    {pending : Option ScheduleBatch} (aligned : move.Aligned heap rows)
    (hpending : AlignedUnlessEmpty heap rows pending) :
    ∃ out, beforePending move pending = some out ∧ out.Aligned heap rows := by
  cases pending with
  | none => exact ⟨move, rfl, aligned⟩
  | some pending =>
    simp only [beforePending]
    cases he : pending.isEmpty with
    | true => exact ⟨move, rfl, aligned⟩
    | false =>
      have hne : pending.reqs ≠ [] := by simpa [ScheduleBatch.isEmpty] using he
      simpa using aligned.mergeBatch (hpending pending rfl hne)

theorem withTaken_total {heap : Nat → Req} {rows : Rows} (useTpotFirst : Bool)
    {running : Option ScheduleBatch} {take : ScheduleBatch} (aligned : take.Aligned heap rows)
    (hrunning : AlignedUnlessEmpty heap rows running) :
    ∃ out, withTaken useTpotFirst running take = some out ∧ out.Aligned heap rows := by
  cases running with
  | none => exact ⟨take, rfl, aligned⟩
  | some running =>
    simp only [withTaken]
    cases he : running.isEmpty with
    | true => exact ⟨take, rfl, aligned⟩
    | false =>
      have hne : running.reqs ≠ [] := by simpa [ScheduleBatch.isEmpty] using he
      have hold := hrunning running rfl hne
      cases useTpotFirst with
      | true => simpa using hold.mergeBatch aligned
      | false => simpa using aligned.mergeBatch hold

/-- The running and the pending batch of a state, where they are not empty, are
index-aligned. -/
structure BatchesAligned (rows : Rows) (S : Sched M) : Prop where
  running : AlignedUnlessEmpty S.heap rows S.stage.runningBatch
  pending : AlignedUnlessEmpty S.heap rows S.pendingBatch

theorem aligned_of_pos {heap : Nat → Req} {rows : Rows} {batch : Option ScheduleBatch}
    (aligned : AlignedUnlessEmpty heap rows batch) (hpos : 0 < sizeOf? batch) :
    ∃ b, batch = some b ∧ b.Aligned heap rows := by
  cases batch with
  | none => simp [sizeOf?] at hpos
  | some b =>
    refine ⟨b, rfl, aligned b rfl fun hnil => ?_⟩
    simp [sizeOf?, ScheduleBatch.batchSize, hnil] at hpos

theorem heap_takenRunning (S : Sched M) (useTpotFirst : Bool) (running : ScheduleBatch) :
    (S.takenRunning useTpotFirst running).heap = S.heap := by
  unfold takenRunning
  split <;> rfl

theorem moveToPending_total {rows : Rows} {useTpotFirst : Bool} {count : Nat} {S : Sched M}
    (aligned : S.BatchesAligned rows) (hpos : 0 < count)
    (bound : count ≤ sizeOf? S.stage.runningBatch) :
    ∃ S', S.moveToPending useTpotFirst count = some S' ∧ S'.BatchesAligned rows := by
  obtain ⟨running, hrunning, halign⟩ := aligned_of_pos aligned.running (by omega)
  obtain ⟨keep, move, hsplit, hmove, hkeep⟩ :=
    splitBatch_total useTpotFirst false hpos (by simpa [sizeOf?, hrunning] using bound) halign
  obtain ⟨pending, hpending, hout⟩ := beforePending_total hmove aligned.pending
  refine ⟨{ S.setRunningBatch keep with pendingBatch := some pending }, ?_, ?_, ?_⟩
  · simp [moveToPending, hrunning, hsplit, hpending]
  · exact (setRunningBatch_stage S keep).symm ▸ hkeep
  · intro b hb _
    exact Option.some.inj hb ▸ hout

theorem takeFromPending_total {rows : Rows} {useTpotFirst : Bool} {count : Nat} {S : Sched M}
    (aligned : S.BatchesAligned rows) (hpos : 0 < count) (bound : count ≤ sizeOf? S.pendingBatch) :
    ∃ S', S.takeFromPending useTpotFirst count = some S' ∧ S'.BatchesAligned rows := by
  obtain ⟨pending, hpending, halign⟩ := aligned_of_pos aligned.pending (by omega)
  obtain ⟨keep, take, hsplit, htake, hkeep⟩ :=
    splitBatch_total useTpotFirst true hpos (by simpa [sizeOf?, hpending] using bound) halign
  obtain ⟨running, hrunning, hout⟩ :=
    withTaken_total useTpotFirst htake aligned.running
  refine ⟨{ S.takenRunning useTpotFirst running with pendingBatch := keep }, ?_, ?_, ?_⟩
  · simp [takeFromPending, hpending, hsplit, hrunning]
  · intro b hb _
    have hstage := takenRunning_stage S useTpotFirst running
    rw [heap_takenRunning]
    exact Option.some.inj (hstage.symm.trans hb) ▸ hout
  · rw [heap_takenRunning]
    exact hkeep

theorem rebalanceMoves_total {cfg : Config} {rows : Rows} (headroom useTpotFirst : Bool)
    {S : Sched M} (hpp : 0 < cfg.ppSize) (hunit : 0 < cfg.brBaseUnit)
    (aligned : S.BatchesAligned rows) :
    ∃ S', S.rebalanceMoves cfg headroom useTpotFirst = some S' ∧ S'.BatchesAligned rows := by
  have hlimit := localLimit_nonneg (Int.natCast_pos.mpr hpp) (Int.natCast_pos.mpr hunit)
    (neg_le_nReqsTotal cfg S)
  unfold rebalanceMoves
  dsimp only
  generalize S.nReqsTotal cfg / ((cfg.brBaseUnit : Int) * cfg.ppSize) *
    ((cfg.brBaseUnit : Int) * cfg.ppSize) = th at hlimit ⊢
  split
  next hband =>
    have hdesired : 0 ≤ th / (cfg.ppSize : Int) := Int.ediv_nonneg hband.1.le (by omega)
    split
    next => exact moveToPending_total aligned (by omega) (by omega)
    next =>
      split
      next => exact takeFromPending_total aligned (by omega) (by omega)
      next => exact ⟨S, rfl, aligned⟩
  next =>
    split
    next => exact takeFromPending_total aligned (by omega) (by omega)
    next =>
      split
      next => exact moveToPending_total aligned (by omega) (by omega)
      next => exact ⟨S, rfl, aligned⟩

theorem filterRunningBatch_total {rows : Rows} {S : Sched M} (aligned : S.BatchesAligned rows) :
    ∃ S', S.filterRunningBatch = some S' ∧ S'.BatchesAligned rows := by
  cases hrun : S.stage.runningBatch with
  | none =>
    exact ⟨S, by simp [filterRunningBatch, hrun], aligned⟩
  | some batch =>
    rcases eq_or_ne batch.reqs [] with hnil | hne
    · exact ⟨S, filterRunningBatch_empty (by simp [reqsOf, hrun, hnil]), aligned⟩
    · obtain ⟨filtered, hfilter, halign⟩ := (aligned.running batch hrun hne).filterBatch none
      refine ⟨_, filterRunningBatch_some hrun hfilter, ?_, aligned.pending⟩
      intro b hb hb'
      have hfil : filtered = b := by
        have hstage := setStage_stage S { S.stage with runningBatch := some filtered }
        exact Option.some.inj ((congrArg Stage.runningBatch hstage).symm.trans hb)
      exact hfil ▸ halign (hfil ▸ hb')

variable [MemoryPools M]

/-- `rebalance` raises nothing on index-aligned batches and keeps them aligned. -/
theorem rebalance_total {cfg : Config} (tpot : Rat) {rows : Rows} {S : Sched M}
    (hpp : 0 < cfg.ppSize) (hunit : 0 < cfg.brBaseUnit) (aligned : S.BatchesAligned rows) :
    ∃ S', S.rebalance cfg tpot = some S' ∧ S'.BatchesAligned rows := by
  unfold rebalance
  split
  next => exact ⟨S, rfl, aligned⟩
  next =>
    obtain ⟨filtered, hfilter, hfiltered⟩ := filterRunningBatch_total aligned
    obtain ⟨S', hmoves, hS'⟩ := rebalanceMoves_total
      (filtered.hasKvHeadroom cfg tpot) (filtered.useTpotFirst cfg tpot) hpp hunit hfiltered
    have hbase : cfg.brBaseUnit ≠ 0 ∧ cfg.ppSize ≠ 0 := ⟨by omega, by omega⟩
    exact ⟨S', by simp [hfilter, hmoves, hbase], hS'⟩

/-- `rebalance` conserves the requests and reaches its target size. -/
theorem rebalance_law (cfg : Config) (tpot : Rat) (S : Sched M) (hpp : 0 < cfg.ppSize)
    (hunit : 0 < cfg.brBaseUnit) :
    (∀ S', S.rebalance cfg tpot = some S' → RebalanceLaw cfg tpot S S') ∧
      ∀ rows, S.BatchesAligned rows → ∃ S', S.rebalance cfg tpot = some S' := by
  refine ⟨fun S' h => rebalanceLaw_of_eq hpp hunit h, fun rows aligned => ?_⟩
  obtain ⟨S', h, _⟩ := rebalance_total tpot hpp hunit aligned
  exact ⟨S', h⟩

end Sched

/-- Two pipeline ranks with the default ratio and threshold constants. -/
def twoRanks : Config where
  ppSize := 2
  maxRunningRequests := 8
  isMixedChunk := false
  loraPaths := false
  maxLorasPerBatch := 8
  schedulePolicy := .fcfs
  shuffle := fun rng queue => (queue, rng)
  shuffle_perm := fun _ _ => List.Perm.refl _
  tokenizer := none
  maxReqInputLen := 100
  maxTotalNumTokens := 100
  chunkedPrefillSize := some 4
  maxPrefillTokens := 100
  clipMaxNewTokens := 4096
  retractDecodeSteps := 20
  initNewTokenRatio := 7 / 10
  minNewTokenRatio := 98 / 1000
  newTokenRatioDecay := 301 / 300000
  testRetract := false
  enableBatchRebalancing := true
  brWaitingTokThreshold := 0
  brLoadAlpha := 1 / 10
  brBaseUnit := 1
  brMode := .tpotFirst
  kvFreeThreshold := 1 / 10
  sloTpot := 1

/-- A decode batch of blank requests in rows of their own. -/
def blankBatch (reqs : List Nat) : ScheduleBatch where
  reqs := reqs
  forwardMode := .decode
  inputIds := none
  reqPoolIndices := reqs
  seqLens := reqs.map fun _ => 1
  seqLensSum := (reqs.map fun _ => 1).sum
  outCacheLoc := none
  outputIds := some (reqs.map fun _ => 0)
  returnLogprob := false
  topLogprobsNums := none
  prefixLens := []
  extendLens := []
  extendNumTokens := 0
  extendLogprobStartLens := []
  decodingReqs := none
  samplingInfo := .fromScheduleBatch (fun _ => Req.blank) reqs

/-- Three running requests of the first micro-batch and one pending request. -/
def threeRunning : Sched Memory :=
  { Sched.init twoRanks 0 (Memory.clear 8 100) with
    stages := fun j => if j = 0 then ⟨some (blankBatch [0, 1, 2]), .running, none⟩
      else ⟨none, .idle, none⟩
    pendingBatch := some (blankBatch [3]) }

theorem blankBatch_aligned (reqs : List Nat) :
    (blankBatch reqs).Aligned (fun _ => Req.blank) ⟨id, fun _ => 1, fun _ => 0⟩ where
  reqPoolIndices := by simp [blankBatch]
  seqLens := rfl
  seqLensSum := rfl
  sampling := ⟨rfl, rfl, rfl, rfl⟩
  returnLogprob := by simp [blankBatch, Req.blank]
  topLogprobsNums := by simp [blankBatch]
  outputIds := rfl

theorem rebalance_law_threeRunning :
    ∃ S', threeRunning.rebalance twoRanks 0 = some S' ∧
      Sched.RebalanceLaw twoRanks 0 threeRunning S' := by
  have law := Sched.rebalance_law twoRanks 0 threeRunning (by decide) (by decide)
  obtain ⟨S', h⟩ := law.2 ⟨id, fun _ => 1, fun _ => 0⟩
    ⟨fun b hb _ => Option.some.inj hb ▸ blankBatch_aligned [0, 1, 2],
      fun b hb _ => Option.some.inj hb ▸ blankBatch_aligned [3]⟩
  exact ⟨S', h, law.1 S' h⟩

/-- One of the three running requests goes before the pending one. -/
example : (threeRunning.rebalance twoRanks 0).map (fun S =>
    (reqsOf S.stage.runningBatch, reqsOf S.pendingBatch)) = some ([0, 1], [2, 3]) := by
  decide +kernel

/-- The same with a pending request that has finished. -/
def finishedPending : Sched Memory :=
  { threeRunning with
    heap := Function.update threeRunning.heap 3
      { Req.blank with finishedReason := some (.length 0) } }

/-- Only the running batch is filtered: the finished request stays pending. -/
theorem rebalance_keeps_finished_pending :
    ∃ S', finishedPending.rebalance twoRanks 0 = some S' ∧
      ¬ (reqsOf S'.stage.runningBatch ++ reqsOf S'.pendingBatch).Perm
        ((reqsOf finishedPending.stage.runningBatch ++ reqsOf finishedPending.pendingBatch).filter
          fun q => !(finishedPending.heap q).finished) := by
  have hview : (finishedPending.rebalance twoRanks 0).map (fun S =>
      reqsOf S.stage.runningBatch ++ reqsOf S.pendingBatch) = some [0, 1, 2, 3] := by
    decide +kernel
  obtain ⟨S', h, hreqs⟩ := Option.map_eq_some_iff.mp hview
  refine ⟨S', h, fun hperm => ?_⟩
  rw [hreqs] at hperm
  have hfinished := (List.mem_filter.mp (hperm.subset (by simp : 3 ∈ [0, 1, 2, 3]))).2
  exact absurd hfinished (by decide)

end FastPP
