import FastPP.AlignedDelivery

namespace FastPP

namespace Sched

section Calls

variable {M : Type} [MemoryPools M]

/-- The batch that an iteration passes to `prepare_for_decode`, with the state at the call. -/
def decodeCall (cfg : Config) (input : StepInput) (S : Sched M) :
    Option (Sched M × ScheduleBatch) :=
  match S.extendCall cfg input with
  | some call => do
    let formed ← call.1.prepareForExtend call.2
    let running ← formed.1.mixCall cfg formed.2
    pure (formed.1, running)
  | none => do
    let balanced ← S.beforePrefill cfg input
    let formed ← balanced.getNewBatchPrefill cfg
    if formed.2.isSome then none
    else do
      let running ← formed.1.stage.runningBatch
      formed.1.updateCall cfg running

/-- The iteration neither fetches into a full micro-batch nor merges into an emptied batch nor
lists a request that asks for top logprobs only beside one with logprobs, and zeros that take
the place of a result are as many as its batch has requests. -/
structure KeepsRows (cfg : Config) (input : StepInput) (S : Sched M) : Prop where
  room : ¬ S.FetchesWhenFull cfg input
  filled : ¬ (S.receive cfg input).MergesIntoEmptied
  tops : ∀ call, S.extendCall cfg input = some call → TopsAgree call.1.heap call.2
  zeros : ∀ sizes ∈ S.fillSizes cfg input, sizes.1 = sizes.2

instance (cfg : Config) (input : StepInput) (S : Sched M) : Decidable (S.KeepsRows cfg input) :=
  decidable_of_iff (¬ S.FetchesWhenFull cfg input ∧ ¬ (S.receive cfg input).MergesIntoEmptied ∧
      ((S.extendCall cfg input).all fun call => decide (TopsAgree call.1.heap call.2)) ∧
      ∀ sizes ∈ S.fillSizes cfg input, sizes.1 = sizes.2) (by
    constructor
    · rintro ⟨hroom, hfilled, htops, hzeros⟩
      refine ⟨hroom, hfilled, fun call hcall => ?_, hzeros⟩
      rw [hcall] at htops
      simpa using htops
    · intro h
      refine ⟨h.room, h.filled, ?_, h.zeros⟩
      cases hcall : S.extendCall cfg input with
      | none => rfl
      | some call => simpa using h.tops call hcall)

theorem KeepsRows.not_fillsShort {cfg : Config} {input : StepInput} {S : Sched M}
    (h : S.KeepsRows cfg input) : ¬ S.FillsShort cfg input := by
  rintro ⟨sizes, hsizes, hshort⟩
  exact hshort.ne (h.zeros sizes hsizes)

/-- The states within one iteration before the batch runs. -/
structure SchedulePhases (cfg : Config) (input : StepInput)
    (S merged balanced prefilled decoded : Sched M) (newBatch out : Option ScheduleBatch) :
    Prop where
  merge : (S.receive cfg input).mergeLastBatch = some merged
  rebalance : merged.rebalanceIfEnabled cfg input.tpot = some balanced
  prefill : balanced.getNewBatchPrefill cfg = some (prefilled, newBatch)
  decode : prefilled.orDecode cfg newBatch = some (decoded, out)

theorem schedulePhases {cfg : Config} {input : StepInput} {S S' : Sched M}
    {out : Option ScheduleBatch}
    (h : (S.receive cfg input).getNextBatchToRun cfg input.tpot = some (S', out)) :
    ∃ merged balanced prefilled newBatch,
      SchedulePhases cfg input S merged balanced prefilled S' newBatch out := by
  obtain ⟨merged, hmerge, h⟩ := Option.bind_eq_some_iff.mp h
  obtain ⟨balanced, hbalance, h⟩ := Option.bind_eq_some_iff.mp h
  obtain ⟨⟨prefilled, newBatch⟩, hprefill, hdecode⟩ := Option.bind_eq_some_iff.mp h
  exact ⟨merged, balanced, prefilled, newBatch, hmerge, hbalance, hprefill, hdecode⟩

theorem SchedulePhases.beforePrefill {cfg : Config} {input : StepInput}
    {S merged balanced prefilled decoded : Sched M} {newBatch out : Option ScheduleBatch}
    (p : SchedulePhases cfg input S merged balanced prefilled decoded newBatch out) :
    S.beforePrefill cfg input = some balanced := by
  unfold Sched.beforePrefill
  rw [p.merge, Option.bind_eq_bind, Option.bind_some, p.rebalance]

end Calls

/-- A batch whose rows and input tokens are those of its requests when it runs. -/
structure ReadyToRun (S : Sched Memory) (batch : ScheduleBatch) : Prop
    extends ScheduleBatch.AlignedFields S.heap
      (if batch.forwardMode.isDecode then S.rows true else S.filledRows) batch where
  inputIds : batch.inputIds = some (batch.reqs.flatMap (S.inputOf batch))

/-- Every batch that an iteration passes to `prepare_for_decode` or `get_model_worker_batch` is
index-aligned with its requests. -/
structure CallsAligned (cfg : Config) (input : StepInput) (S : Sched Memory) : Prop where
  decode : ∀ call, S.decodeCall cfg input = some call →
    call.2.Aligned call.1.heap (call.1.rows false)
  run : ∀ T batch, (S.receive cfg input).getNextBatchToRun cfg input.tpot = some (T, some batch) →
    T.ReadyToRun batch

variable {cfg : Config} {complete : Prop} {i : Nat} {flight : Nat → Bool} {S S' T : Sched Memory}

theorem BatchesKept.balanced {input : StepInput} {merged balanced : Sched Memory}
    (hi : i < cfg.ppSize) (h : Placed complete cfg i flight S) (hk : BatchesKept cfg flight S)
    (hcur : (S.receive cfg input).cur = i) (hlanded : flight i = false)
    (hfilled : ¬ (S.receive cfg input).MergesIntoEmptied)
    (hm : (S.receive cfg input).mergeLastBatch = some merged)
    (hr : merged.rebalanceIfEnabled cfg input.tpot = some balanced) :
    InTurn complete cfg i flight balanced ∧ BatchesInTurn cfg i flight balanced := by
  have hreceived := receive_spec cfg input S
  have hreceive := h.receive hreceived
  have hmerged := hreceive.merge hi hcur hlanded hm
  have hturn := (hk.receive hi h hreceived).merge hi hreceive hcur hlanded hfilled hm
  exact ⟨hmerged.rebalance hr, hturn.rebalance hi hmerged hr⟩

/-- The batch that comes out of scheduling is ready, and all batches stay aligned with it. -/
theorem BatchesKept.schedule {input : StepInput} {merged balanced prefilled decoded : Sched Memory}
    {newBatch out : Option ScheduleBatch} (hi : i < cfg.ppSize) (h : Placed complete cfg i flight S)
    (hk : BatchesKept cfg flight S) (hcur : (S.receive cfg input).cur = i)
    (hlanded : flight i = false) (hkeeps : S.KeepsRows cfg input)
    (p : SchedulePhases cfg input S merged balanced prefilled decoded newBatch out) :
    (∀ b, out = some b → decoded.ReadyToRun b) ∧
      BatchesKept cfg (fun j => decide (j = i) || flight j) (decoded.setLastBatch out) := by
  obtain ⟨hturn, hin⟩ := hk.balanced hi h hcur hlanded hkeeps.filled p.merge p.rebalance
  have hprefill := p.prefill
  rcases getNewBatchPrefill_spec hprefill with
    ⟨rfl, hnot⟩ | ⟨batch, fetched, selected, adder, rfl, hphases, hpre⟩
  · rcases orDecode_spec p.decode with ⟨hsome, _⟩ | ⟨_, hdecoded⟩
    · simp at hsome
    · obtain ⟨hout, hkept⟩ := hin.decode hi hturn hprefill hnot p.decode hdecoded
      refine ⟨fun b hb => ?_, hkept⟩
      obtain ⟨haligned, hids⟩ := hout b hb
      have hmode : b.forwardMode.isDecode = true := by
        rw [(hdecoded.mode b hb).1]
        rfl
      refine ⟨by rw [if_pos hmode]; exact haligned.toAlignedFields, ?_⟩
      rw [hids, ← List.flatMap_singleton' (b.reqs.map _), List.flatMap_map]
      exact congrArg some (List.flatMap_congr fun q _ => by simp [inputOf, hmode])
  · obtain ⟨_, formed, chunk, extended, hx⟩ := hphases.extends
    have hcall := hphases.extendCall p.beforePrefill hprefill hx.carried
    have hnew := (hturn.canRunList_new hi hphases.fetch hphases.select).2.2
    have hextended := hturn.extended hi hphases.fetch hphases.select hx.carried
      (hkeeps.tops _ hcall) hx.extend
    obtain ⟨haligned, hkept⟩ := hin.prefill hi hturn hpre hextended hnew hx.mix
    rcases orDecode_spec p.decode with ⟨_, rfl, rfl⟩ | ⟨hnone, _⟩
    · refine ⟨fun b hb => ?_, hkept⟩
      obtain rfl := Option.some.inj hb
      exact ⟨by rw [hpre.isDecode]; exact haligned.toAlignedFields, haligned.inputIds⟩
    · simp at hnone

theorem BatchesKept.decodeCall {input : StepInput} {call : Sched Memory × ScheduleBatch}
    (hi : i < cfg.ppSize) (h : Placed complete cfg i flight S) (hk : BatchesKept cfg flight S)
    (hcur : (S.receive cfg input).cur = i) (hlanded : flight i = false)
    (hkeeps : S.KeepsRows cfg input) (hcall : S.decodeCall cfg input = some call) :
    call.2.Aligned call.1.heap (call.1.rows false) := by
  unfold Sched.decodeCall at hcall
  split at hcall
  next _ hextend =>
    obtain ⟨⟨formed, extended⟩, hx, hcall⟩ := Option.bind_eq_some_iff.mp hcall
    obtain ⟨running, hmix, hcall⟩ := Option.bind_eq_some_iff.mp hcall
    obtain rfl := Option.some.inj hcall
    have htops := hkeeps.tops _ hextend
    obtain ⟨merged, balanced, fetched, selected, adder, chunk, p, hchunk, hT, hreqs, _⟩ :=
      extendCall_spec hextend
    rw [hreqs] at hT
    rw [hT, hreqs] at hx htops
    obtain ⟨hturn, hin⟩ := hk.balanced hi h hcur hlanded hkeeps.filled p.merge p.rebalance
    have hnew := (hturn.canRunList_new hi p.fetch p.select).2.2
    have hextended := hturn.extended hi p.fetch p.select hchunk htops hx
    refine (mixCall_aligned hmix fun b hb hne => ?_).aligned
    have hstage : balanced.stage = balanced.stages i := by rw [stage, hturn.cur]
    rw [hextended.running, hstage] at hb
    refine (hin.running b hb hne).keep fun q hq => hextended.kept q (hnew q ?_)
    refine List.mem_append_right _ (List.mem_append_left _ ?_)
    simpa [reqsOf, hb] using hq
  next =>
    obtain ⟨balanced, hbefore, hcall⟩ := Option.bind_eq_some_iff.mp hcall
    obtain ⟨⟨formed, newBatch⟩, hprefill, hcall⟩ := Option.bind_eq_some_iff.mp hcall
    split at hcall
    next => simp at hcall
    next hnone =>
      obtain ⟨running, hrun, hcall⟩ := Option.bind_eq_some_iff.mp hcall
      obtain ⟨merged, hm, hr⟩ := Option.bind_eq_some_iff.mp hbefore
      obtain ⟨hturn, hin⟩ := hk.balanced hi h hcur hlanded hkeeps.filled hm hr
      have hstage : balanced.stage = balanced.stages i := by rw [stage, hturn.cur]
      obtain rfl : newBatch = none := by simpa using hnone
      rcases getNewBatchPrefill_spec hprefill with ⟨_, hnot⟩ | ⟨_, _, _, _, hsome, _⟩
      · refine (updateCall_aligned hcall fun hne => ?_).1.aligned
        rw [hnot.stage, hstage] at hrun
        exact (hin.running running hrun hne).keep fun q _ => getNewBatchPrefill_rowKept hprefill q
      · simp at hsome

/-- One iteration keeps every batch aligned. -/
theorem BatchesKept.step {input : StepInput} {sample : Nat → Nat} {out : Option ScheduleBatch}
    {r k : Nat} (hr : r < cfg.ppSize) (hcount : S.curPP = .after cfg.ppSize r k)
    (h : Placed True cfg (k % cfg.ppSize)
      (flying cfg.ppSize (cfg.ppSize - 1 - r) (k % cfg.ppSize)) S)
    (hk : BatchesKept cfg (flying cfg.ppSize (cfg.ppSize - 1 - r) (k % cfg.ppSize)) S)
    (hkeeps : S.KeepsRows cfg input) (hstep : S.step cfg input sample = some (S', out)) :
    BatchesKept cfg (flying cfg.ppSize (cfg.ppSize - 1 - r) ((k + 1) % cfg.ppSize)) S' := by
  obtain ⟨merged, balanced, prefilled, decoded, newBatch, t⟩ := exists_turn hstep
  obtain ⟨_, _, hplaced⟩ := t.placed hr hcount h hkeeps.room
  have hi : k % cfg.ppSize < cfg.ppSize := Nat.mod_lt _ (by omega)
  have hidx := t.arriving hcount
  have hcur : (S.receive cfg input).cur = k % cfg.ppSize := receive_cur hcount
  rw [show (k + 1) % cfg.ppSize = (k % cfg.ppSize + 1) % cfg.ppSize by simp]
  generalize k % cfg.ppSize = i at h hk hplaced hi hidx hcur ⊢
  have hlanded := not_flying_self hr i
  have hdispatched := (hk.schedule hi h hcur hlanded hkeeps
    ⟨t.merge, t.rebalance, t.prefill, t.decode⟩).2
  obtain ⟨hflight, holdest, hrest⟩ := flying_next hr hi
  have hlt : (r + i + 1) % cfg.ppSize < cfg.ppSize := Nat.mod_lt _ (by omega)
  have hnext : (i + 1) % cfg.ppSize < cfg.ppSize := Nat.mod_lt _ (by omega)
  rcases (hplaced.finish hr hi hidx (fun _ => t.resultComplete hkeeps.not_fillsShort)
    t.finish).2 with ⟨batch, nextTokenIds, hlast, hresult, hdeliver, _⟩ | ⟨hlast, ratio, rfl⟩
  · have hlength : nextTokenIds.length = batch.reqs.length := by
      rcases runBatch_length hresult with hlength | ⟨b, hout, hforwards, rfl⟩
      · exact hlength
      · rw [List.length_replicate]
        exact hkeeps.zeros _ (t.fillSizes hout hforwards (by rwa [hidx]))
    exact (hdispatched.deliver hnext hplaced hlt hlast hflight holdest hlength hdeliver).congr
      fun j hj => (hrest j hj).symm
  · exact (hdispatched.idle hlast).congr fun j hj => (hrest j hj).symm

theorem batchesKept_init (cfg : Config) (r : Nat) (mem : Memory) (flight : Nat → Bool) :
    BatchesKept cfg flight (Sched.init cfg r mem) :=
  ⟨by simp [Sched.init], fun _ _ => ⟨by simp [Sched.init], by simp [Sched.init]⟩⟩

theorem run_batchesKept {r n : Nat} {mem : Memory} {inputs : Nat → StepInput}
    {samples : Nat → Nat → Nat} (hr : r < cfg.ppSize)
    (hkeeps : ∀ k < n, ∀ S, run cfg r mem inputs samples k = some S → S.KeepsRows cfg (inputs k))
    (hrun : run cfg r mem inputs samples n = some S) :
    BatchesKept cfg (flying cfg.ppSize (cfg.ppSize - 1 - r) (n % cfg.ppSize)) S := by
  induction n generalizing S with
  | zero =>
    cases Option.some.inj hrun
    exact batchesKept_init cfg r mem _
  | succ n ih =>
    obtain ⟨S₁, hbefore, hrun⟩ := Option.bind_eq_some_iff.mp hrun
    obtain ⟨⟨S₂, out⟩, hstep, hrun⟩ := Option.bind_eq_some_iff.mp hrun
    cases Option.some.inj hrun
    obtain ⟨hcount, hplaced⟩ := run_placed hr (fun k hk S hS => (hkeeps k (by omega) S hS).room)
      (fun _ k hk S hS => (hkeeps k (by omega) S hS).not_fillsShort) hbefore
    exact (ih (fun k hk => hkeeps k (by omega)) hbefore).step hr hcount hplaced
      (hkeeps n (by omega) S₁ hbefore) hstep

/-- In every run without these events, the batches that an iteration passes on are
index-aligned with their requests. -/
theorem run_callsAligned {r n : Nat} {mem : Memory} {inputs : Nat → StepInput}
    {samples : Nat → Nat → Nat} (hr : r < cfg.ppSize)
    (hkeeps : ∀ k ≤ n, ∀ S, run cfg r mem inputs samples k = some S → S.KeepsRows cfg (inputs k))
    (hrun : run cfg r mem inputs samples n = some S) : S.CallsAligned cfg (inputs n) := by
  have hlast := hkeeps n le_rfl S hrun
  obtain ⟨hcount, hplaced⟩ :=
    run_placed_any hr (fun k (hk : k < n) S hS => (hkeeps k (by omega) S hS).room) hrun
  have hkept := run_batchesKept hr (fun k hk => hkeeps k (by omega)) hrun
  have hi : n % cfg.ppSize < cfg.ppSize := Nat.mod_lt _ (by omega)
  have hcur : (S.receive cfg (inputs n)).cur = n % cfg.ppSize := receive_cur hcount
  have hlanded := not_flying_self hr (n % cfg.ppSize)
  refine ⟨fun call hcall => hkept.decodeCall hi hplaced hcur hlanded hlast hcall,
    fun T batch hnext => ?_⟩
  obtain ⟨merged, balanced, prefilled, newBatch, p⟩ := schedulePhases hnext
  exact (hkept.schedule hi hplaced hcur hlanded hlast p).1 batch rfl

end Sched

/-- A request for one token, and another one when the first has finished. -/
def oneThenAnother (step : Nat) : StepInput where
  recvReqs := if step = 0 then [.generate (plainInput 1 [5] 1)]
    else if step = 2 then [.generate (plainInput 2 [6] 8)] else []
  availableSize := 100
  chunkSync := none
  tpot := 0

/-- The first of two ranks with rebalancing. -/
def emptiedRun : Nat → Option (Sched Memory) :=
  Sched.run twoRanks 0 (Memory.clear 9 100) oneThenAnother fun _ i => i

theorem run_callsAligned_emptiedRun : ∃ S, emptiedRun 3 = some S ∧
    S.CallsAligned twoRanks (oneThenAnother 3) := by
  have hkeeps : ∀ k ≤ 3, ((emptiedRun k).all fun S =>
      decide (S.KeepsRows twoRanks (oneThenAnother k))) = true := by
    decide +kernel
  have hsome : (emptiedRun 3).isSome = true := by decide +kernel
  obtain ⟨S, hS⟩ := Option.isSome_iff_exists.mp hsome
  refine ⟨S, hS, Sched.run_callsAligned (by decide) (fun k hk S hrun => ?_) hS⟩
  have hk' := hkeeps k hk
  rw [emptiedRun, hrun, Option.all_some, decide_eq_true_eq] at hk'
  exact hk'

/-- The finished request is filtered out of the running batch when it is rebalanced, but its
rows stay; the second request is merged after them and decodes with them. -/
theorem emptied_batch_merged : ∃ S, emptiedRun 4 = some S ∧
    ¬ S.CallsAligned twoRanks (oneThenAnother 4) := by
  have hview : (emptiedRun 4).map (fun S => (S.decodeCall twoRanks (oneThenAnother 4)).map
      fun call => (call.2.reqs, call.2.reqPoolIndices)) = some (some ([1], [0, 1])) := by
    decide +kernel
  obtain ⟨S, hS, hview⟩ := Option.map_eq_some_iff.mp hview
  obtain ⟨call, hcall, hview⟩ := Option.map_eq_some_iff.mp hview
  obtain ⟨hreqs, hrows⟩ := Prod.mk.inj hview
  refine ⟨S, hS, fun h => ?_⟩
  have haligned := (h.decode call hcall).reqPoolIndices
  rw [hreqs, hrows] at haligned
  simpa using congrArg List.length haligned

/-- A request for one token, and then a long one while the other micro-batch is full. -/
def oneThenLong (step : Nat) : StepInput where
  recvReqs := if step = 0 then [.generate (plainInput 1 [5] 1)]
    else if step = 1 then [.generate (plainInput 2 [6, 7, 8, 9, 10, 11] 8)] else []
  availableSize := 100
  chunkSync := none
  tpot := 0

/-- The long request that was fetched in vain is prefilled by both micro-batches: it decodes
with the row of the first prefill and has the row of the second one. -/
example : ((Sched.run (limitedRanks 1) 0 (Memory.clear 9 100) oneThenLong (fun _ i => i) 5).map
    fun S => (S.decodeCall (limitedRanks 1) (oneThenLong 5)).map fun call =>
      (call.2.reqs, call.2.reqPoolIndices, call.1.mem.reqPoolIdx 1)) =
        some (some ([1], [2], some 3)) := by
  decide +kernel

end FastPP
