import FastPP.SoleRank
import FastPP.Stranded

namespace FastPP

theorem ReqToTokenPool.alloc_isSome_iff {pool : ReqToTokenPool} {n : Nat} :
    (pool.alloc n).isSome = true ↔ n ≤ pool.freeSlots.length := by
  unfold alloc takeFirst
  split
  next h => simp; omega
  next h => simp; omega

theorem Memory.Ledger.length {all held : List Nat} {m : Memory} (h : Ledger all m held) :
    m.reqToTokenPool.freeSlots.length + held.length = all.length := by
  refine h.conserved.length_free fun q hq => ?_
  obtain ⟨row, hrow⟩ := Option.isSome_iff_exists.mp (h.placed q hq)
  simp [rowsOf, hrow]

namespace Sched

section Calls

variable {M : Type} [MemoryPools M]

/-- The state in which an iteration calls `prepare_for_extend`, with the requests it passes;
`none` when it forms no prefill batch. -/
def extendCall (cfg : Config) (input : StepInput) (S : Sched M) : Option (Sched M × List Nat) := do
  let S ← S.beforePrefill cfg input
  let S ← S.fetchChunkedPrefill cfg
  if (S.batchIsFull || S.waitingQueue.isEmpty) && S.stage.beingChunkedReq.isNone then none
  else if cfg.maxRunningRequests ≤ S.runningBs then none
  else do
    let selected ← S.selectPrefill cfg
    if selected.2.canRunList = [] then none
    else do
      let chunk ← chunkAfter selected.1.stage.beingChunkedReq selected.2.newBeingChunkedReq
      pure (selected.1.takeListed selected.2.canRunList chunk, selected.2.canRunList)

/-- `alloc_req_slots` finds enough free request slots if an iteration calls it. -/
def SlotsFound (cfg : Config) (input : StepInput) (S : Sched M) : Prop :=
  ∀ call, S.extendCall cfg input = some call →
    (MemoryPools.allocReqSlots call.1.mem call.2.length).isSome = true

/-- The requests that have a row at the start of the turn of `i`, but for the chunked one
that is carried over. -/
def rowHolders (cfg : Config) (S : Sched M) (flight : Nat → Bool) (i : Nat) : List Nat :=
  reqsOf S.pendingBatch ++ (S.heldAt flight i ++ S.heldOthers cfg flight i)

/-- The most requests that a micro-batch with this state can list for a prefill batch: its room
for more, as far as requests wait or are being chunked. -/
def listable (cfg : Config) (S : Sched M) : Nat :=
  if (S.batchIsFull || S.waitingQueue.isEmpty) && S.stage.beingChunkedReq.isNone then 0
  else min (cfg.maxRunningRequests - S.runningBs)
    (S.waitingQueue.length + S.stage.beingChunkedReq.toList.length)

/-- Before the selection starts, the requests that have a row and those that the micro-batch
may still list, if any, stay within the limit that all micro-batches share. -/
def SlotsSuffice (cfg : Config) (flight : Nat → Bool) (i : Nat) (input : StepInput)
    (S : Sched M) : Prop :=
  ∀ fetched, ((S.beforePrefill cfg input).bind (fetchChunkedPrefill cfg)) = some fetched →
    0 < fetched.listable cfg →
      (S.rowHolders cfg flight i).length + fetched.listable cfg ≤ cfg.maxRunningRequests + 1

instance (cfg : Config) (flight : Nat → Bool) (i : Nat) (input : StepInput) (S : Sched M) :
    Decidable (S.SlotsSuffice cfg flight i input) :=
  decidable_of_iff (((S.beforePrefill cfg input).bind (fetchChunkedPrefill cfg)).all fun fetched =>
      decide (0 < fetched.listable cfg → (S.rowHolders cfg flight i).length +
        fetched.listable cfg ≤ cfg.maxRunningRequests + 1)) (by
    unfold SlotsSuffice
    cases (S.beforePrefill cfg input).bind (fetchChunkedPrefill cfg) with
    | none => simp
    | some fetched => simp only [Option.all_some, decide_eq_true_eq, Option.some.injEq, forall_eq'])

/-- The requests of a new prefill batch stay within the limit that all micro-batches share. -/
def SlotsFit (cfg : Config) (flight : Nat → Bool) (i : Nat) (input : StepInput) (S : Sched M) :
    Prop :=
  ∀ call, S.extendCall cfg input = some call →
    (S.rowHolders cfg flight i).length + call.2.length ≤ cfg.maxRunningRequests + 1

/-- The states on the way to a call of `prepare_for_extend`. -/
structure CallPhases (cfg : Config) (input : StepInput) (S merged balanced fetched selected : Sched M)
    (adder : PrefillAdder) : Prop where
  merge : (S.receive cfg input).mergeLastBatch = some merged
  rebalance : merged.rebalanceIfEnabled cfg input.tpot = some balanced
  fetch : balanced.fetchChunkedPrefill cfg = some fetched
  goesOn : ((fetched.batchIsFull || fetched.waitingQueue.isEmpty) &&
    fetched.stage.beingChunkedReq.isNone) = false
  room : fetched.runningBs < cfg.maxRunningRequests
  select : fetched.selectPrefill cfg = some (selected, adder)

theorem extendCall_spec {cfg : Config} {input : StepInput} {S T : Sched M} {reqs : List Nat}
    (h : S.extendCall cfg input = some (T, reqs)) :
    ∃ merged balanced fetched selected adder chunk,
      CallPhases cfg input S merged balanced fetched selected adder ∧
        chunkAfter selected.stage.beingChunkedReq adder.newBeingChunkedReq = some chunk ∧
        T = selected.takeListed reqs chunk ∧ reqs = adder.canRunList ∧ reqs ≠ [] := by
  obtain ⟨balanced, hbefore, h⟩ := Option.bind_eq_some_iff.mp h
  obtain ⟨merged, hmerge, hrebalance⟩ := Option.bind_eq_some_iff.mp hbefore
  obtain ⟨fetched, hfetch, h⟩ := Option.bind_eq_some_iff.mp h
  split at h
  next => simp at h
  next hgoes =>
    split at h
    next => simp at h
    next hroom =>
      obtain ⟨⟨selected, adder⟩, hselect, h⟩ := Option.bind_eq_some_iff.mp h
      split at h
      next => simp at h
      next hne =>
        obtain ⟨chunk, hchunk, h⟩ := Option.bind_eq_some_iff.mp h
        obtain ⟨rfl, rfl⟩ := Prod.mk.inj (Option.some.inj h)
        exact ⟨merged, balanced, fetched, selected, adder, chunk,
          ⟨hmerge, hrebalance, hfetch, Bool.eq_false_iff.mpr hgoes, by omega, hselect⟩, hchunk, rfl,
          rfl, hne⟩

/-- Where slots are missing the exception ends the scheduler. -/
theorem step_eq_none_of_not_slotsFound {cfg : Config} {input : StepInput} {S : Sched M}
    (h : ¬ S.SlotsFound cfg input) (sample : Nat → Nat) : S.step cfg input sample = none := by
  obtain ⟨⟨T, reqs⟩, h⟩ := not_forall.mp h
  obtain ⟨hcall, hnone⟩ := Classical.not_imp.mp h
  obtain ⟨merged, balanced, fetched, selected, adder, chunk, p, hchunk, rfl, rfl, hne⟩ :=
    extendCall_spec hcall
  have hextend : (selected.takeListed adder.canRunList chunk).prepareForExtend
      adder.canRunList = none := by
    rw [prepareForExtend, Option.not_isSome_iff_eq_none.mp hnone]
    rfl
  have hform : selected.formPrefill cfg adder = none := by
    rw [formPrefill, if_neg hne, hchunk]
    simp [hextend]
  have hprefill : balanced.getNewBatchPrefill cfg = none := by
    unfold getNewBatchPrefill
    rw [p.fetch]
    simp only [Option.bind_eq_bind, Option.bind_some]
    unfold prefillFetched
    rw [if_neg (by simp [p.goesOn]), if_neg (by have := p.room; omega), p.select]
    simpa using hform
  unfold step getNextBatchToRun
  simp [p.merge, p.rebalance, hprefill]

end Calls

variable {cfg : Config} {complete : Prop} {slots : List Nat} {size i : Nat} {flight : Nat → Bool}
  {S S' T : Sched Memory}

theorem rowHolders_receive (hi : i < cfg.ppSize) (h : Placed complete cfg i flight S)
    (hr : Received cfg S S') : S'.rowHolders cfg flight i = S.rowHolders cfg flight i := by
  have hfin : ∀ j < cfg.ppSize, ∀ q ∈ (S.stages j).settled,
      (S'.heap q).finished = (S.heap q).finished := fun j hj q hq =>
    (hr.heap q).finished (h.settled_lt hi hj hq)
  unfold rowHolders
  rw [hr.pendingBatch, heldAt_congr (congrFun hr.stages i) rfl (hfin i hi),
    heldOthers_congr (fun j _ => congrFun hr.stages j) (fun _ _ _ => rfl) fun j hj _ => hfin j hj]

/-- When several micro-batches take turns, the carried request has put its row back before the
call, and the others keep theirs. -/
theorem RowsKept.calls {input : StepInput} {reqs : List Nat} (hp : 2 ≤ cfg.ppSize)
    (hi : i < cfg.ppSize) (h : Placed complete cfg i flight S)
    (hk : RowsKept cfg slots i flight S)
    (hcur : (S.receive cfg input).cur = i) (hlanded : flight i = false)
    (hcall : S.extendCall cfg input = some (T, reqs)) :
    Memory.Ledger slots T.mem (S.rowHolders cfg flight i) := by
  obtain ⟨merged, balanced, fetched, selected, adder, chunk, p, _, rfl, _, _⟩ :=
    extendCall_spec hcall
  have hreceived := receive_spec cfg input S
  have hreceive := h.receive hreceived
  have hkept := hk.receive hi h hreceived
  have hne : cfg.prev i ≠ i := fun heq => by
    rw [prev_self hi] at heq
    omega
  obtain ⟨hframe, _, _⟩ := hreceive.merge_held hi hcur hlanded p.merge
  have hturn := hkept.merge hp hi hreceive hcur hlanded p.merge
  obtain ⟨hframe', hmem', _, _⟩ := rebalance_held hturn.pending p.rebalance
  have hmem : balanced.mem = (S.receive cfg input).mem := by
    refine hmem'.trans (mergeLastBatch_mem (fun q hq hidx => ?_) p.merge)
    rw [stage, hcur] at hq
    rw [hcur, hreceive.ppIdx i hi q hq, eq_comm] at hidx
    exact hne hidx
  have hcur' : balanced.cur = i := hframe'.cur.trans (hframe.cur.trans hcur)
  have hcarried : (balanced.stages (cfg.prev i)).beingChunkedReq =
      ((S.receive cfg input).stages (cfg.prev i)).beingChunkedReq := by
    rw [hframe'.stages _ (hframe.cur ▸ hcur ▸ hne), hframe.stages _ (hcur ▸ hne)]
  have hfetch := fetchChunkedPrefill_rows (by omega) p.fetch
  rw [hcur', hcarried, hmem] at hfetch
  have hselect := selectPrefill_rows p.select
  rw [← rowHolders_receive hi h hreceived, takeListed_eq]
  refine Memory.Ledger.sameRows (Memory.Ledger.frees (hkept.ledger.perm ?_) hfetch) hselect
  refine List.perm_iff_count.mpr fun q => ?_
  simp only [held, rowHolders, List.count_append]
  omega

theorem SoleRows.calls {input : StepInput} {reqs : List Nat} (hone : cfg.ppSize = 1)
    (h : Placed complete cfg 0 flight S) (hk : SoleRows size flight S)
    (hcur : (S.receive cfg input).cur = 0) (hlanded : flight 0 = false)
    (hcall : S.extendCall cfg input = some (T, reqs)) :
    Memory.Ledger (List.range size) T.mem (S.rowHolders cfg flight 0) := by
  have hi : 0 < cfg.ppSize := by omega
  obtain ⟨merged, balanced, fetched, selected, adder, chunk, p, _, rfl, _, _⟩ :=
    extendCall_spec hcall
  have hreceived := receive_spec cfg input S
  have hreceive := h.receive hreceived
  obtain ⟨_, hpending, hunf⟩ := hreceive.merge_held hi hcur hlanded p.merge
  have hturn := (hk.receive hone h hreceived).merge hone hreceive hcur hlanded p.merge
  obtain ⟨_, hmem, _, _⟩ := rebalance_held hturn.pending p.rebalance
  have hledger := hturn.ledger
  rw [← hmem, hpending, hunf, ← fetchChunkedPrefill_sole hone p.fetch] at hledger
  have hothers : (S.receive cfg input).heldOthers cfg flight 0 = [] := by
    simp [heldOthers, hone]
  have hselect := selectPrefill_rows p.select
  rw [← rowHolders_receive hi h hreceived, rowHolders, hothers, List.append_nil, takeListed_eq]
  exact hledger.sameRows hselect

/-- A call finds enough slots exactly when the new requests fit beside all others. -/
theorem slotsFound_iff {input : StepInput} (hcalls : ∀ T reqs, S.extendCall cfg input = some (T, reqs) →
      Memory.Ledger (List.range (cfg.maxRunningRequests + 1)) T.mem (S.rowHolders cfg flight i)) :
    S.SlotsFound cfg input ↔ S.SlotsFit cfg flight i input := by
  have hiff : ∀ T reqs, S.extendCall cfg input = some (T, reqs) →
      ((MemoryPools.allocReqSlots T.mem reqs.length).isSome = true ↔
        (S.rowHolders cfg flight i).length + reqs.length ≤ cfg.maxRunningRequests + 1) := by
    intro T reqs hcall
    have hlength := (hcalls T reqs hcall).length
    have halloc : (MemoryPools.allocReqSlots T.mem reqs.length).isSome = true ↔
        reqs.length ≤ T.mem.reqToTokenPool.freeSlots.length := by
      rw [← ReqToTokenPool.alloc_isSome_iff]
      change (T.mem.allocReqSlots reqs.length).isSome = true ↔ _
      unfold Memory.allocReqSlots
      cases T.mem.reqToTokenPool.alloc reqs.length <;> simp
    rw [halloc]
    rw [List.length_range] at hlength
    omega
  exact ⟨fun h call hcall => (hiff _ _ hcall).mp (h call hcall),
    fun h call hcall => (hiff _ _ hcall).mpr (h call hcall)⟩

/-- The admission loop stops at the limit of the micro-batch. -/
theorem addWaitingReqs_limit {runningReqs queue : List Nat} {adder adder' : PrefillAdder}
    (hroom : runningReqs.length + adder.canRunList.length ≤ cfg.maxRunningRequests)
    (h : addWaitingReqs cfg runningReqs queue S adder = (S', adder')) :
    runningReqs.length + adder'.canRunList.length ≤ cfg.maxRunningRequests := by
  induction queue generalizing S adder with
  | nil =>
    obtain ⟨_, rfl⟩ := Prod.mk.inj h
    exact hroom
  | cons q queue ih =>
    unfold addWaitingReqs at h
    split at h
    next => obtain ⟨_, rfl⟩ := Prod.mk.inj h; exact hroom
    next =>
      split at h
      next => obtain ⟨_, rfl⟩ := Prod.mk.inj h; exact hroom
      next hlimit =>
        dsimp only at h
        have hlists := (PrefillAdder.addOneReq_admitted cfg (S.initNextRoundInput q).heap adder q
          ((S.initNextRoundInput q).heap q)).lists
        have hmore : runningReqs.length + (adder.addOneReq cfg (S.initNextRoundInput q).heap q
            ((S.initNextRoundInput q).heap q)).2.1.canRunList.length ≤
              cfg.maxRunningRequests := by
          rcases hlists with ⟨hsame, _⟩ | ⟨hsome, _⟩
          · rw [hsame]
            exact hroom
          · rw [hsome, List.length_append, List.length_singleton]
            omega
        split at h
        next => exact ih hmore h
        next => obtain ⟨_, rfl⟩ := Prod.mk.inj h; exact hmore
        next => obtain ⟨_, rfl⟩ := Prod.mk.inj h; exact hmore

/-- The admission loop lists each waiting request at most once. -/
theorem addWaitingReqs_length_le {runningReqs queue : List Nat} {adder adder' : PrefillAdder}
    (h : addWaitingReqs cfg runningReqs queue S adder = (S', adder')) :
    adder'.canRunList.length ≤ adder.canRunList.length + queue.length := by
  induction queue generalizing S adder with
  | nil =>
    obtain ⟨_, rfl⟩ := Prod.mk.inj h
    exact Nat.le_add_right _ _
  | cons q queue ih =>
    unfold addWaitingReqs at h
    split at h
    next => obtain ⟨_, rfl⟩ := Prod.mk.inj h; exact Nat.le_add_right _ _
    next =>
      split at h
      next => obtain ⟨_, rfl⟩ := Prod.mk.inj h; exact Nat.le_add_right _ _
      next =>
        dsimp only at h
        have hmore : (adder.addOneReq cfg (S.initNextRoundInput q).heap q
            ((S.initNextRoundInput q).heap q)).2.1.canRunList.length ≤
              adder.canRunList.length + 1 := by
          rcases (PrefillAdder.addOneReq_admitted cfg (S.initNextRoundInput q).heap adder q
            ((S.initNextRoundInput q).heap q)).lists with ⟨hsame, _⟩ | ⟨hsome, _⟩
          · rw [hsame]
            exact Nat.le_succ _
          · rw [hsome, List.length_append, List.length_singleton]
        rw [List.length_cons]
        split at h
        next =>
          have hrest := ih h
          omega
        next => obtain ⟨_, rfl⟩ := Prod.mk.inj h; omega
        next => obtain ⟨_, rfl⟩ := Prod.mk.inj h; omega

/-- A micro-batch lists no more than wait or are being chunked. -/
theorem selectPrefill_length_le {adder : PrefillAdder}
    (h : S.selectPrefill cfg = some (S', adder)) :
    adder.canRunList.length ≤ S.waitingQueue.length + S.stage.beingChunkedReq.toList.length := by
  obtain ⟨⟨S₁, adder₁⟩, hcarried, h⟩ := Option.bind_eq_some_iff.mp h
  obtain ⟨queue, rng, hqueue, hperm⟩ := calcPriority_spec cfg S
  rw [hqueue] at hcarried h
  obtain ⟨_, _, _, _, _, hlist, _⟩ := addCarriedChunk_spec hcarried
  have hle := addWaitingReqs_length_le (Option.some.inj h)
  change adder.canRunList.length ≤ adder₁.canRunList.length + queue.length at hle
  rw [hperm.length_eq] at hle
  change adder₁.canRunList = [] ++ S.stage.beingChunkedReq.toList at hlist
  rw [hlist, List.nil_append] at hle
  omega

/-- A micro-batch keeps the limit with the requests that it lists. -/
theorem selectPrefill_limit {adder : PrefillAdder} (hroom : S.runningBs < cfg.maxRunningRequests)
    (h : S.selectPrefill cfg = some (S', adder)) :
    S.runningBs + adder.canRunList.length ≤ cfg.maxRunningRequests := by
  obtain ⟨⟨S₁, adder₁⟩, hcarried, h⟩ := Option.bind_eq_some_iff.mp h
  obtain ⟨queue, rng, hqueue, _⟩ := calcPriority_spec cfg S
  rw [hqueue] at hcarried h
  obtain ⟨_, _, _, _, _, hlist, _⟩ := addCarriedChunk_spec hcarried
  have hbs : S.runningBs = (reqsOf S.stage.runningBatch).length := by rw [runningBs, sizeOf?_eq]
  rw [hbs] at hroom ⊢
  refine addWaitingReqs_limit ?_ (Option.some.inj h)
  rw [hlist]
  change (reqsOf S.stage.runningBatch).length + ([] ++ S.stage.beingChunkedReq.toList).length ≤ _
  cases S.stage.beingChunkedReq with
  | none => simp; omega
  | some q => simp; omega

/-- The requests of a new prefill batch fit if those that it may list do. -/
theorem SlotsSuffice.slotsFit {input : StepInput} (h : S.SlotsSuffice cfg flight i input) :
    S.SlotsFit cfg flight i input := by
  rintro ⟨T, reqs⟩ hcall
  obtain ⟨merged, balanced, fetched, selected, adder, chunk, p, _, _, rfl, hne⟩ :=
    extendCall_spec hcall
  have hfetched : (S.beforePrefill cfg input).bind (fetchChunkedPrefill cfg) = some fetched := by
    rw [beforePrefill, p.merge, Option.bind_eq_bind, Option.bind_some, p.rebalance,
      Option.bind_some, p.fetch]
  have hlimit := selectPrefill_limit p.room p.select
  have hlength := selectPrefill_length_le p.select
  have hroom := p.room
  have hlisted : adder.canRunList.length ≤ fetched.listable cfg := by
    unfold listable
    rw [if_neg (by simp [p.goesOn])]
    omega
  have hfits := h fetched hfetched (by have := List.length_pos_iff.mpr hne; omega)
  exact (Nat.add_le_add_left hlisted _).trans hfits

/-- Without rebalancing the limit of the micro-batch is enough while at most one request
elsewhere has a row. -/
theorem Placed.slotsSuffice {input : StepInput} (hi : i < cfg.ppSize)
    (h : Placed complete cfg i flight S) (hcur : (S.receive cfg input).cur = i)
    (hlanded : flight i = false) (hoff : cfg.enableBatchRebalancing = false)
    (helse : (reqsOf S.pendingBatch ++ S.heldOthers cfg flight i).length ≤ 1) :
    S.SlotsSuffice cfg flight i input := by
  intro fetched hfetched hsome
  obtain ⟨balanced, hbefore, hfetch⟩ := Option.bind_eq_some_iff.mp hfetched
  obtain ⟨merged, hmerge, hrebalance⟩ := Option.bind_eq_some_iff.mp hbefore
  have hreceived := receive_spec cfg input S
  obtain ⟨hframe, _, hunf⟩ := (h.receive hreceived).merge_held hi hcur hlanded hmerge
  obtain rfl : merged = balanced := by
    unfold rebalanceIfEnabled at hrebalance
    rw [hoff] at hrebalance
    exact Option.some.inj hrebalance
  have hheld : (S.receive cfg input).heldAt flight i = S.heldAt flight i :=
    heldAt_congr (congrFun hreceived.stages i) rfl fun q hq =>
      (hreceived.heap q).finished (h.settled_lt hi hi hq)
  have hown : (S.heldAt flight i).length ≤ fetched.runningBs := by
    rw [← hheld, ← hunf, runningBs, sizeOf?_eq, (fetchChunkedPrefill_spec hfetch).stage]
    exact List.length_filter_le _ _
  have hroom : fetched.listable cfg ≤ cfg.maxRunningRequests - fetched.runningBs := by
    unfold listable
    split
    next => exact Nat.zero_le _
    next => exact Nat.min_le_left _ _
  rw [List.length_append] at helse
  simp only [rowHolders, List.length_append]
  omega

/-- In a run without a fetch into a full micro-batch and without requests left without their
result, a call of `alloc_req_slots` finds enough slots if, before the selection starts, the
requests of all micro-batches and those that may be listed fit into the pool. -/
theorem run_slotsFound {r tokens n : Nat} {inputs : Nat → StepInput}
    {samples : Nat → Nat → Nat} (hr : r < cfg.ppSize)
    (hroom : ∀ k < n, ∀ S, run cfg r (Memory.clear (cfg.maxRunningRequests + 1) tokens) inputs
      samples k = some S → ¬ S.FetchesWhenFull cfg (inputs k))
    (hfill : ∀ k < n, ∀ S, run cfg r (Memory.clear (cfg.maxRunningRequests + 1) tokens) inputs
      samples k = some S → ¬ S.FillsShort cfg (inputs k))
    (hrun : run cfg r (Memory.clear (cfg.maxRunningRequests + 1) tokens) inputs samples n =
      some S)
    (hsuffice : S.SlotsSuffice cfg (flying cfg.ppSize (cfg.ppSize - 1 - r) (n % cfg.ppSize))
      (n % cfg.ppSize) (inputs n)) : S.SlotsFound cfg (inputs n) := by
  refine (slotsFound_iff fun T reqs hcall => ?_).mpr hsuffice.slotsFit
  obtain ⟨hcount, hplaced⟩ := run_placed hr hroom (fun _ : True => hfill) hrun
  have hi : n % cfg.ppSize < cfg.ppSize := Nat.mod_lt _ (by omega)
  have hcur : (S.receive cfg (inputs n)).cur = n % cfg.ppSize := receive_cur hcount
  have hlanded := not_flying_self hr (n % cfg.ppSize)
  by_cases hone : cfg.ppSize = 1
  · have hzero : n % cfg.ppSize = 0 := by rw [hone, Nat.mod_one]
    rw [hzero] at hplaced hcur hlanded ⊢
    exact (run_soleRows hone hr hrun).calls hone hplaced hcur hlanded hcall
  · obtain ⟨slots, lost, hslots, hnone, hkept⟩ :=
      run_rowsKept (by omega) hr hroom (fun _ : True => hfill) hrun
    rw [hnone trivial, List.append_nil] at hslots
    obtain ⟨hconserved, hplacedRows⟩ := hkept.calls (by omega) hi hplaced hcur hlanded hcall
    exact ⟨List.Perm.trans hconserved hslots, hplacedRows⟩

theorem Turn.pendingBatch {input : StepInput} {sample : Nat → Nat}
    {merged balanced prefilled decoded : Sched Memory} {newBatch out : Option ScheduleBatch}
    (t : Turn cfg input sample S merged balanced prefilled decoded newBatch out S')
    (hoff : cfg.enableBatchRebalancing = false) : decoded.pendingBatch = S.pendingBatch := by
  have hmerge : merged.pendingBatch = (S.receive cfg input).pendingBatch := by
    rcases mergeLastBatch_spec t.merge with ⟨_, _, _, hmerged⟩ | ⟨_, hquiet⟩
    · exact hmerged.pendingBatch
    · exact hquiet.pendingBatch
  have hbalance : merged = balanced := by
    have hrebalance := t.rebalance
    unfold rebalanceIfEnabled at hrebalance
    rw [hoff] at hrebalance
    exact Option.some.inj hrebalance
  have hprefill : prefilled.pendingBatch = balanced.pendingBatch := by
    rcases getNewBatchPrefill_spec t.prefill with ⟨_, hnot⟩ | ⟨_, _, _, _, _, _, hpre⟩
    · exact hnot.pendingBatch
    · exact hpre.pendingBatch
  have hdecode : decoded.pendingBatch = prefilled.pendingBatch := by
    rcases orDecode_spec t.decode with ⟨_, _, hsame⟩ | ⟨_, hdecoded⟩
    · rw [hsame]
    · exact hdecoded.pendingBatch
  rw [hdecode, hprefill, ← hbalance, hmerge, (receive_spec cfg input S).pendingBatch]

/-- Without rebalancing nothing is ever pending. -/
theorem run_pendingBatch {r n : Nat} {mem : Memory} {inputs : Nat → StepInput}
    {samples : Nat → Nat → Nat} (hone : cfg.ppSize = 1) (hr : r < cfg.ppSize)
    (hoff : cfg.enableBatchRebalancing = false)
    (hrun : run cfg r mem inputs samples n = some S) : S.pendingBatch = none := by
  induction n generalizing S with
  | zero =>
    cases Option.some.inj hrun
    rfl
  | succ n ih =>
    obtain ⟨S₁, hbefore, hrun⟩ := Option.bind_eq_some_iff.mp hrun
    obtain ⟨⟨S₂, out⟩, hstep, hrun⟩ := Option.bind_eq_some_iff.mp hrun
    cases Option.some.inj hrun
    obtain ⟨merged, balanced, prefilled, decoded, newBatch, t⟩ := exists_turn hstep
    have hpending : decoded.pendingBatch = none := (t.pendingBatch hoff).trans (ih hbefore)
    obtain ⟨hcount, hplaced⟩ := run_placed_any hr (fun _ _ _ _ => not_fetchesWhenFull hone) hbefore
    obtain ⟨_, _, hplaced'⟩ := t.placed hr hcount hplaced (not_fetchesWhenFull hone)
    rcases (hplaced'.finish hr (Nat.mod_lt _ (by omega)) (t.arriving hcount)
      (fun hfalse => hfalse.elim) t.finish).2 with ⟨_, _, _, _, _, hdelivered⟩ | ⟨_, ratio, rfl⟩
    · obtain ⟨_, _, _, rfl⟩ := hdelivered.others
      exact hpending
    · exact hpending

/-- A single micro-batch without rebalancing never runs out of slots. -/
theorem run_slotsFound_sole {r tokens n : Nat} {inputs : Nat → StepInput}
    {samples : Nat → Nat → Nat} (hone : cfg.ppSize = 1) (hr : r < cfg.ppSize)
    (hoff : cfg.enableBatchRebalancing = false)
    (hrun : run cfg r (Memory.clear (cfg.maxRunningRequests + 1) tokens) inputs samples n =
      some S) : S.SlotsFound cfg (inputs n) := by
  obtain ⟨hcount, hplaced⟩ := run_placed_sole hone hr hrun
  refine run_slotsFound hr (fun _ _ _ _ => not_fetchesWhenFull hone) (fun k _ T hT => ?_) hrun
    (hplaced.slotsSuffice (Nat.mod_lt _ (by omega)) (receive_cur hcount) (not_flying_self hr _)
      hoff ?_)
  · exact not_fillsShort (by omega) (run_placed_sole hone hr hT).1
  · rw [run_pendingBatch hone hr hoff hrun]
    simp [reqsOf, heldOthers, hone, Nat.mod_one]

end Sched

/-- Two requests in each of the first two steps. -/
def twoByTwo (step : Nat) : StepInput where
  recvReqs := if step = 0 then [.generate (plainInput 1 [5] 8), .generate (plainInput 2 [6] 8)]
    else if step = 1 then [.generate (plainInput 3 [7] 8), .generate (plainInput 4 [8] 8)] else []
  availableSize := 100
  chunkSync := none
  tpot := 0

/-- Two ranks without rebalancing. -/
def limitedRanks (maxRunningRequests : Nat) : Config :=
  { twoRanks with maxRunningRequests, enableBatchRebalancing := false }

def limitedRun (maxRunningRequests : Nat) : Nat → Option (Sched Memory) :=
  Sched.run (limitedRanks maxRunningRequests) 0 (Memory.clear (maxRunningRequests + 1) 100) twoByTwo
    fun _ i => i

/-- With a limit of three, two more requests fit beside the two of the other micro-batch. -/
theorem run_slotsFound_limitThree : ∃ S, limitedRun 3 1 = some S ∧
    S.SlotsFound (limitedRanks 3) (twoByTwo 1) := by
  have hroom : ∀ k < 1, ((limitedRun 3 k).all fun S =>
      !decide (S.FetchesWhenFull (limitedRanks 3) (twoByTwo k))) = true := by
    decide +kernel
  have hfill : ∀ k < 1, ((limitedRun 3 k).all fun S =>
      !decide (S.FillsShort (limitedRanks 3) (twoByTwo k))) = true := by
    decide +kernel
  have hsuffice : ((limitedRun 3 1).any fun S =>
      decide (S.SlotsSuffice (limitedRanks 3) (Sched.flying 2 1 1) 1 (twoByTwo 1))) = true := by
    decide +kernel
  obtain ⟨S, hS, hfits⟩ := (Option.any_eq_true _ _).mp hsuffice
  refine ⟨S, hS, Sched.run_slotsFound (r := 0) (by decide) (fun k hk T hT => ?_)
    (fun k hk T hT => ?_) hS (of_decide_eq_true hfits)⟩
  · have hk' := (Option.all_eq_true _ _).mp (hroom k hk) T hT
    simpa using hk'
  · have hk' := (Option.all_eq_true _ _).mp (hfill k hk) T hT
    simpa using hk'

/-- With a limit of two, each micro-batch takes two requests, and the second ones find one of
the three slots free. -/
theorem slots_run_out : (∃ S, limitedRun 2 1 = some S ∧
    ¬ S.SlotsFound (limitedRanks 2) (twoByTwo 1)) ∧ limitedRun 2 2 = none := by
  have hview : (limitedRun 2 1).map (fun S => (S.extendCall (limitedRanks 2) (twoByTwo 1)).map
      fun call => (call.2.length, call.1.mem.reqToTokenPool.freeSlots)) =
        some (some (2, [2])) := by
    decide +kernel
  obtain ⟨S, hS, hview⟩ := Option.map_eq_some_iff.mp hview
  obtain ⟨call, hcall, hview⟩ := Option.map_eq_some_iff.mp hview
  obtain ⟨hlength, hfree⟩ := Prod.mk.inj hview
  have hmissing : ¬ S.SlotsFound (limitedRanks 2) (twoByTwo 1) := by
    intro hfound
    have hsome := hfound call hcall
    rw [hlength] at hsome
    change (call.1.mem.allocReqSlots 2).isSome = true at hsome
    simp [Memory.allocReqSlots, ReqToTokenPool.alloc, takeFirst, hfree] at hsome
  refine ⟨⟨S, hS, hmissing⟩, ?_⟩
  rw [limitedRun, Sched.run]
  rw [limitedRun] at hS
  rw [hS]
  simp [Sched.step_eq_none_of_not_slotsFound hmissing]

end FastPP
