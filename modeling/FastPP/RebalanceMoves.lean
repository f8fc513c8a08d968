import FastPP.Admission
import FastPP.BatchOps

namespace FastPP

/-- `batch is None or batch.is_empty()`. -/
def absentOrEmpty (batch : Option ScheduleBatch) : Bool := batch.all (·.isEmpty)

namespace Sched

variable {M : Type} [MemoryPools M]

/-- The `filter_batch` of `rebalance` on the running batch. -/
def filterRunningBatch (S : Sched M) : Option (Sched M) :=
  match S.stage.runningBatch with
  | none => some S
  | some batch => do
    let filtered ← batch.filterBatch S.heap none
    pure { S.setStage { S.stage with runningBatch := some filtered } with
      batchIsFull := if filtered.batchSize < batch.batchSize then false else S.batchIsFull }

/-- `n_reqs_total`: last batches less the chunked requests of other micro-batches,
plus the pending batch. -/
def nReqsTotal (cfg : Config) (S : Sched M) : Int :=
  ((List.range cfg.ppSize).map fun j =>
    (sizeOf? (S.stages j).last : Int) -
      (if j ≠ S.cur ∧ (S.stages j).beingChunkedReq.isSome then 1 else 0)).sum +
    sizeOf? S.pendingBatch

def waitingTokens (S : Sched M) : Nat :=
  (S.waitingQueue.map fun q => (S.heap q).originInputIds.length).sum

def kvFree (cfg : Config) (S : Sched M) : Rat :=
  (MemoryPools.availableSize S.mem : Rat) / cfg.maxTotalNumTokens

/-- The signals of `rebalance`: the broadcast metrics, or else local readings. -/
def rebalanceSignals (cfg : Config) (tpot : Rat) (S : Sched M) : Rat × Nat × Rat :=
  match S.rebalanceMetrics with
  | some metrics => metrics
  | none => (tpot, S.waitingTokens, S.kvFree cfg)

def hasKvHeadroom (cfg : Config) (tpot : Rat) (S : Sched M) : Bool :=
  decide (cfg.brWaitingTokThreshold < (S.rebalanceSignals cfg tpot).2.1 ∧
    cfg.kvFreeThreshold < (S.rebalanceSignals cfg tpot).2.2)

def useTpotFirst (cfg : Config) (tpot : Rat) (S : Sched M) : Bool :=
  match cfg.brMode with
  | .tpotFirst => true
  | .e2eFirst => false
  | .auto => decide (cfg.sloTpot * (9 / 10) ≤ (S.rebalanceSignals cfg tpot).1)

end Sched

/-- `get_split_indices`: the indices kept and the indices moved. -/
def getSplitIndices (useTpotFirst : Bool) (totalSize moveSize : Nat) (isTakeFromPending : Bool) :
    List Nat × List Nat :=
  if useTpotFirst || isTakeFromPending then
    (List.range (totalSize - moveSize), List.range' (totalSize - moveSize) moveSize)
  else (List.range' moveSize (totalSize - moveSize), List.range moveSize)

namespace Sched

variable {M : Type} [MemoryPools M]

/-- The moved batch with the pending one merged after it. -/
def beforePending (move : ScheduleBatch) (pending : Option ScheduleBatch) : Option ScheduleBatch :=
  match pending with
  | none => some move
  | some pending => if pending.isEmpty then some move else move.mergeBatch pending

/-- The running batch with the taken one merged at its tail, or at its head. -/
def withTaken (useTpotFirst : Bool) (running : Option ScheduleBatch) (take : ScheduleBatch) :
    Option ScheduleBatch :=
  match running with
  | none => some take
  | some running =>
    if running.isEmpty then some take
    else if useTpotFirst then running.mergeBatch take
    else take.mergeBatch running

/-- Split `count` requests off the running batch and put them before the pending ones. -/
def moveToPending (useTpotFirst : Bool) (count : Nat) (S : Sched M) : Option (Sched M) := do
  let running ← S.stage.runningBatch
  let indices := getSplitIndices useTpotFirst running.batchSize count false
  let parts ← running.splitBatch S.heap indices.1 indices.2
  let move ← parts.2
  let pending ← beforePending move S.pendingBatch
  pure { S.setRunningBatch parts.1 with pendingBatch := some pending }

/-- Only a merge at the tail keeps the object of the running batch. -/
def takenRunning (S : Sched M) (useTpotFirst : Bool) (running : ScheduleBatch) : Sched M :=
  if useTpotFirst && !absentOrEmpty S.stage.runningBatch then
    S.setStage { S.stage with runningBatch := some running }
  else S.setRunningBatch (some running)

/-- Split `count` requests off the tail of the pending batch and merge them into
the running batch. -/
def takeFromPending (useTpotFirst : Bool) (count : Nat) (S : Sched M) : Option (Sched M) := do
  let pending ← S.pendingBatch
  let indices := getSplitIndices useTpotFirst pending.batchSize count true
  let parts ← pending.splitBatch S.heap indices.1 indices.2
  let take ← parts.2
  let running ← withTaken useTpotFirst S.stage.runningBatch take
  pure { S.takenRunning useTpotFirst running with pendingBatch := parts.1 }

/-- The case distinction of `rebalance` after the signals are known. -/
def rebalanceMoves (cfg : Config) (headroom useTpotFirst : Bool) (S : Sched M) : Option (Sched M) :=
  let total := S.nReqsTotal cfg
  let baseTh : Int := cfg.brBaseUnit * cfg.ppSize
  let th := total / baseTh * baseTh
  let currentLocalLimit := th / cfg.ppSize + cfg.brBaseUnit
  let lastSz : Int := sizeOf? S.stage.runningBatch
  let pendSz : Int := sizeOf? S.pendingBatch
  if 0 < th ∧ (total : Rat) < th + cfg.brLoadAlpha * baseTh ∧ headroom = false then
    let desiredLast := th / cfg.ppSize
    if desiredLast < lastSz then S.moveToPending useTpotFirst (lastSz - desiredLast).toNat
    else if lastSz < desiredLast ∧ 0 < pendSz then
      S.takeFromPending useTpotFirst (min (desiredLast - lastSz) pendSz).toNat
    else some S
  else
    let desiredLast := total / cfg.ppSize
    let isOverLimit := headroom = false ∧ currentLocalLimit < lastSz
    if 0 < desiredLast - lastSz ∧ 0 < pendSz then
      S.takeFromPending useTpotFirst (min (desiredLast - lastSz) pendSz).toNat
    else if isOverLimit ∧ 0 < lastSz then
      S.moveToPending useTpotFirst (min (lastSz - currentLocalLimit) lastSz).toNat
    else some S

/-- `BatchRebalancer.rebalance`; `none` is a raised exception, such as a division by a
base of zero. -/
def rebalance (cfg : Config) (tpot : Rat) (S : Sched M) : Option (Sched M) :=
  if absentOrEmpty S.stage.runningBatch && absentOrEmpty S.pendingBatch then some S
  else do
    let S ← S.filterRunningBatch
    if cfg.brBaseUnit * cfg.ppSize = 0 then none
    else S.rebalanceMoves cfg (S.hasKvHeadroom cfg tpot) (S.useTpotFirst cfg tpot)

end Sched

theorem sizeOf?_eq (batch : Option ScheduleBatch) : sizeOf? batch = (reqsOf batch).length := by
  cases batch <;> rfl

theorem makeSubBatch?_reqs {heap : Nat → Req} {indices : List Nat} {batch : ScheduleBatch}
    {out : Option ScheduleBatch} (h : batch.makeSubBatch? heap indices = some out) :
    gather batch.reqs indices = some (reqsOf out) := by
  unfold ScheduleBatch.makeSubBatch? at h
  split at h
  next hnil => cases Option.some.inj h; simp [hnil, gather_nil, reqsOf]
  next =>
    obtain ⟨sub, hsub, rfl⟩ := Option.map_eq_some_iff.mp h
    exact (ScheduleBatch.makeSubBatch_reqs hsub).1

theorem splitBatch_reqs {heap : Nat → Req} {keepIdx dropIdx : List Nat} {batch : ScheduleBatch}
    {keep drop : Option ScheduleBatch}
    (h : batch.splitBatch heap keepIdx dropIdx = some (keep, drop)) :
    gather batch.reqs keepIdx = some (reqsOf keep) ∧
      gather batch.reqs dropIdx = some (reqsOf drop) := by
  obtain ⟨keep', hkeep, h⟩ := Option.bind_eq_some_iff.mp h
  obtain ⟨drop', hdrop, h⟩ := Option.bind_eq_some_iff.mp h
  obtain ⟨rfl, rfl⟩ := Prod.mk.inj (Option.some.inj h)
  exact ⟨makeSubBatch?_reqs hkeep, makeSubBatch?_reqs hdrop⟩

/-- The two index lists cut a list of requests into the part that stays and the
part that moves, which is the head only when E2E_FIRST gives requests away. -/
theorem gather_splitIndices {reqs : List Nat} {count : Nat} (bound : count ≤ reqs.length)
    (useTpotFirst isTake : Bool) :
    ∃ keep move, move.length = count ∧
      gather reqs (getSplitIndices useTpotFirst reqs.length count isTake).1 = some keep ∧
      gather reqs (getSplitIndices useTpotFirst reqs.length count isTake).2 = some move ∧
      reqs = if useTpotFirst || isTake then keep ++ move else move ++ keep := by
  unfold getSplitIndices
  cases useTpotFirst || isTake
  · refine ⟨reqs.drop count, reqs.take count, by simpa using bound, ?_, ?_, by simp⟩
    · simp only [Bool.false_eq_true, if_false]
      rw [gather_range' (by omega), List.take_of_length_le (by simp)]
    · simp only [Bool.false_eq_true, if_false]
      exact gather_range bound
  · refine ⟨reqs.take (reqs.length - count), reqs.drop (reqs.length - count), ?_, ?_, ?_, by simp⟩
    · simp only [List.length_drop]; omega
    · simp only [if_true]
      exact gather_range (by omega)
    · simp only [if_true]
      rw [gather_range' (by omega), List.take_of_length_le (by simp; omega)]

/-- The movements of `rebalance` between the running and the pending requests. -/
inductive Moved (useTpotFirst : Bool) : List Nat → List Nat → List Nat → List Nat → Prop
  | stay (running pending) : Moved useTpotFirst running pending running pending
  | take (running keep take) : Moved useTpotFirst running (keep ++ take)
      (if useTpotFirst then running ++ take else take ++ running) keep
  | give (keep move pending) :
      Moved useTpotFirst (if useTpotFirst then keep ++ move else move ++ keep) pending
        keep (move ++ pending)

theorem Moved.perm {useTpotFirst : Bool} {running pending running' pending' : List Nat}
    (h : Moved useTpotFirst running pending running' pending') :
    (running' ++ pending').Perm (running ++ pending) := by
  cases h with
  | stay => exact List.Perm.refl _
  | take running keep take =>
    cases useTpotFirst
    · calc take ++ running ++ pending'
          _ = take ++ (running ++ pending') := List.append_assoc _ _ _
          List.Perm _ (running ++ pending' ++ take) := List.perm_append_comm
          _ = running ++ (pending' ++ take) := List.append_assoc _ _ _
    · calc running ++ take ++ pending'
          _ = running ++ (take ++ pending') := List.append_assoc _ _ _
          List.Perm _ (running ++ (pending' ++ take)) := List.perm_append_comm.append_left _
  | give keep move pending =>
    cases useTpotFirst
    · calc running' ++ (move ++ pending)
          _ = running' ++ move ++ pending := (List.append_assoc _ _ _).symm
          List.Perm _ (move ++ running' ++ pending) := List.perm_append_comm.append_right pending
    · exact (List.append_assoc _ _ _).symm ▸ List.Perm.refl _

namespace Sched

variable {M : Type}

theorem setStage_stage (S : Sched M) (stage : Stage) : (S.setStage stage).stage = stage := by
  simp [Sched.stage, setStage, cur]

theorem setStage_self (S : Sched M) : S.setStage S.stage = S := by
  simp [setStage, Sched.stage, Function.update_eq_self]

/-- `S'` is `S` up to the batches of the current micro-batch, the pending batch and
`batch_is_full`. -/
def OnlyBatches (S S' : Sched M) : Prop :=
  ∃ stage pending full,
    S' = { S.setStage stage with pendingBatch := pending, batchIsFull := full } ∧
      stage.beingChunkedReq = S.stage.beingChunkedReq

theorem OnlyBatches.refl (S : Sched M) : OnlyBatches S S :=
  ⟨S.stage, S.pendingBatch, S.batchIsFull, by rw [setStage_self], rfl⟩

theorem OnlyBatches.trans {S S' S'' : Sched M} (h : OnlyBatches S S') (h' : OnlyBatches S' S'') :
    OnlyBatches S S'' := by
  obtain ⟨stage, pending, full, rfl, hchunk⟩ := h
  obtain ⟨stage', pending', full', rfl, hchunk'⟩ := h'
  refine ⟨stage', pending', full', ?_, hchunk'.trans ?_⟩
  · simp [setStage, cur]
  · simpa [Sched.stage, setStage, cur] using hchunk

theorem beforePending_reqs {move out : ScheduleBatch} {pending : Option ScheduleBatch}
    (h : beforePending move pending = some out) : out.reqs = move.reqs ++ reqsOf pending := by
  cases pending with
  | none => cases Option.some.inj h; simp [reqsOf]
  | some pending =>
    unfold beforePending at h
    cases he : pending.isEmpty with
    | true =>
      simp only [he, if_true] at h
      cases Option.some.inj h
      have hnil : pending.reqs = [] := by simpa [ScheduleBatch.isEmpty] using he
      simp [reqsOf, hnil]
    | false =>
      simp only [he, Bool.false_eq_true, if_false] at h
      simpa [reqsOf] using (ScheduleBatch.mergeBatch_reqs h).1

theorem withTaken_reqs {useTpotFirst : Bool} {running : Option ScheduleBatch}
    {take out : ScheduleBatch} (h : withTaken useTpotFirst running take = some out) :
    out.reqs = if useTpotFirst then reqsOf running ++ take.reqs
      else take.reqs ++ reqsOf running := by
  cases running with
  | none => cases Option.some.inj h; simp [reqsOf]
  | some running =>
    unfold withTaken at h
    cases he : running.isEmpty with
    | true =>
      simp only [he, if_true] at h
      cases Option.some.inj h
      have hnil : running.reqs = [] := by simpa [ScheduleBatch.isEmpty] using he
      simp [reqsOf, hnil]
    | false =>
      simp only [he, Bool.false_eq_true, if_false] at h
      cases useTpotFirst with
      | true => simpa [reqsOf] using (ScheduleBatch.mergeBatch_reqs h).1
      | false => simpa [reqsOf] using (ScheduleBatch.mergeBatch_reqs h).1

theorem setRunningBatch_stage (S : Sched M) (batch : Option ScheduleBatch) :
    (S.setRunningBatch batch).stage.runningBatch = batch := by
  rw [setRunningBatch, setStage_stage, Stage.rebindRunning_runningBatch]

theorem takenRunning_stage (S : Sched M) (useTpotFirst : Bool) (running : ScheduleBatch) :
    (S.takenRunning useTpotFirst running).stage.runningBatch = some running := by
  unfold takenRunning
  split
  next => rw [setStage_stage]
  next => exact setRunningBatch_stage S _

theorem takenRunning_onlyBatches (S : Sched M) (useTpotFirst : Bool) (running : ScheduleBatch)
    (keep : Option ScheduleBatch) :
    OnlyBatches S { S.takenRunning useTpotFirst running with pendingBatch := keep } := by
  unfold takenRunning
  split
  next => exact ⟨_, keep, S.batchIsFull, rfl, rfl⟩
  next => exact ⟨_, keep, S.batchIsFull, rfl, Stage.rebindRunning_beingChunkedReq _ _⟩

/-- The pending batch grows at its head. -/
theorem moveToPending_spec {useTpotFirst : Bool} {count : Nat} {S S' : Sched M}
    (bound : count ≤ sizeOf? S.stage.runningBatch)
    (h : S.moveToPending useTpotFirst count = some S') :
    OnlyBatches S S' ∧
      Moved useTpotFirst (reqsOf S.stage.runningBatch) (reqsOf S.pendingBatch)
        (reqsOf S'.stage.runningBatch) (reqsOf S'.pendingBatch) ∧
      sizeOf? S'.stage.runningBatch + count = sizeOf? S.stage.runningBatch := by
  obtain ⟨running, hrunning, h⟩ := Option.bind_eq_some_iff.mp h
  obtain ⟨⟨keep, moved⟩, hsplit, h⟩ := Option.bind_eq_some_iff.mp h
  obtain ⟨move, rfl, h⟩ : ∃ move, moved = some move ∧ _ := Option.bind_eq_some_iff.mp h
  obtain ⟨pending, hpending, h⟩ := Option.bind_eq_some_iff.mp h
  have hsize : count ≤ running.reqs.length := by
    simpa [sizeOf?, hrunning, ScheduleBatch.batchSize] using bound
  obtain ⟨hkeep, hmove⟩ := splitBatch_reqs hsplit
  obtain ⟨keep', move', hlen, hkeep', hmove', hreqs⟩ :=
    gather_splitIndices hsize useTpotFirst false
  cases Option.some.inj (hkeep.symm.trans hkeep')
  cases Option.some.inj (hmove.symm.trans hmove')
  have hout : reqsOf (some pending) = move.reqs ++ reqsOf S.pendingBatch :=
    beforePending_reqs hpending
  have hrun : reqsOf S.stage.runningBatch =
      if useTpotFirst then reqsOf keep ++ move.reqs else move.reqs ++ reqsOf keep := by
    rw [hrunning]
    simpa [reqsOf] using hreqs
  have hrunning' : S'.stage.runningBatch = keep := by
    rw [← Option.some.inj h]
    exact (congrArg Stage.runningBatch (setStage_stage S _)).trans
      (Stage.rebindRunning_runningBatch _ _)
  have hpending' : S'.pendingBatch = some pending := by rw [← Option.some.inj h]
  rw [hrunning', hpending']
  refine ⟨⟨_, _, _, (Option.some.inj h).symm, Stage.rebindRunning_beingChunkedReq _ _⟩, ?_, ?_⟩
  · rw [hout, hrun]
    exact Moved.give (reqsOf keep) move.reqs (reqsOf S.pendingBatch)
  · have hlength := congrArg List.length hrun
    have hmoved : move.reqs.length = count := hlen
    rw [sizeOf?_eq, sizeOf?_eq, hlength]
    split <;> simp [hmoved, Nat.add_comm]

/-- The pending batch shrinks at its tail. -/
theorem takeFromPending_spec {useTpotFirst : Bool} {count : Nat} {S S' : Sched M}
    (bound : count ≤ sizeOf? S.pendingBatch)
    (h : S.takeFromPending useTpotFirst count = some S') :
    OnlyBatches S S' ∧
      Moved useTpotFirst (reqsOf S.stage.runningBatch) (reqsOf S.pendingBatch)
        (reqsOf S'.stage.runningBatch) (reqsOf S'.pendingBatch) ∧
      sizeOf? S'.stage.runningBatch = sizeOf? S.stage.runningBatch + count := by
  obtain ⟨pending, hpending, h⟩ := Option.bind_eq_some_iff.mp h
  obtain ⟨⟨keep, taken⟩, hsplit, h⟩ := Option.bind_eq_some_iff.mp h
  obtain ⟨take, rfl, h⟩ : ∃ take, taken = some take ∧ _ := Option.bind_eq_some_iff.mp h
  obtain ⟨running, hrunning, h⟩ := Option.bind_eq_some_iff.mp h
  have hsize : count ≤ pending.reqs.length := by
    simpa [sizeOf?, hpending, ScheduleBatch.batchSize] using bound
  obtain ⟨hkeep, htake⟩ := splitBatch_reqs hsplit
  obtain ⟨keep', take', hlen, hkeep', htake', hreqs⟩ :=
    gather_splitIndices hsize useTpotFirst true
  cases Option.some.inj (hkeep.symm.trans hkeep')
  cases Option.some.inj (htake.symm.trans htake')
  have hout : reqsOf (some running) = if useTpotFirst then reqsOf S.stage.runningBatch ++ take.reqs
      else take.reqs ++ reqsOf S.stage.runningBatch := withTaken_reqs hrunning
  have hpend : reqsOf S.pendingBatch = reqsOf keep ++ take.reqs := by
    rw [hpending]
    simpa [reqsOf] using hreqs
  have hrunning' : S'.stage.runningBatch = some running := by
    rw [← Option.some.inj h]
    exact takenRunning_stage S useTpotFirst running
  have hpending' : S'.pendingBatch = keep := by rw [← Option.some.inj h]
  rw [hrunning', hpending']
  refine ⟨?_, ?_, ?_⟩
  · rw [← Option.some.inj h]
    exact takenRunning_onlyBatches S useTpotFirst running keep
  · rw [hout, hpend]
    exact Moved.take (reqsOf S.stage.runningBatch) (reqsOf keep) take.reqs
  · have hlength := congrArg List.length hout
    have htaken : take.reqs.length = count := hlen
    rw [sizeOf?_eq, sizeOf?_eq, hlength]
    split <;> simp [htaken, Nat.add_comm]

end Sched

end FastPP
