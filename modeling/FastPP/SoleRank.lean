import FastPP.SlotSafety

namespace FastPP

/-- The chunked request of a micro-batch while its prefill batch is not merged. -/
def Stage.unmergedChunk (stage : Stage) : List Nat :=
  stage.ownReqs.filter (stage.beingChunkedReq == some ·)

theorem Stage.unmergedChunk_perm {stage : Stage} (hnodup : stage.ownReqs.Nodup)
    (hchunk : ∀ q, stage.beingChunkedReq = some q → q ∈ stage.ownReqs) :
    stage.unmergedChunk.Perm stage.beingChunkedReq.toList := by
  unfold unmergedChunk
  cases hb : stage.beingChunkedReq with
  | none => simp
  | some p =>
    refine (List.perm_ext_iff_of_nodup (hnodup.filter _) (List.nodup_singleton p)).mpr fun q => ?_
    have hp := hchunk p hb
    simp only [List.mem_filter, beq_iff_eq, Option.some.injEq, List.mem_singleton]
    constructor
    · intro h
      exact h.2.symm
    · rintro rfl
      exact ⟨hp, rfl⟩

namespace Sched

variable {cfg : Config} {complete : Prop} {size : Nat} {flight : Nat → Bool} {S S' : Sched Memory}

/-- The ledger of request slots with a single micro-batch, where the chunked request gives
its row back when its batch is merged. -/
structure SoleRows (size : Nat) (flight : Nat → Bool) (S : Sched Memory) : Prop where
  pending : ∀ q ∈ reqsOf S.pendingBatch, (S.heap q).finished = false
  chunk : ∀ b, (S.stages 0).lastBatch = .own b →
    ∀ q, (S.stages 0).beingChunkedReq = some q → q ∈ (S.stages 0).ownReqs
  ledger : Memory.Ledger (List.range size) S.mem
    (reqsOf S.pendingBatch ++ (S.heldAt flight 0 ++ (S.stages 0).unmergedChunk))

/-- The same within its turn. -/
structure SoleInTurn (size : Nat) (S : Sched Memory) : Prop where
  pending : ∀ q ∈ reqsOf S.pendingBatch, (S.heap q).finished = false
  ledger : Memory.Ledger (List.range size) S.mem (reqsOf S.pendingBatch ++ S.unfinishedRunning)

theorem SoleRows.receive (hone : cfg.ppSize = 1) (h : Placed complete cfg 0 flight S)
    (hk : SoleRows size flight S) (hr : Received cfg S S') : SoleRows size flight S' := by
  have hheld : S'.heldAt flight 0 = S.heldAt flight 0 :=
    heldAt_congr (congrFun hr.stages 0) rfl fun q hq =>
      (hr.heap q).finished (h.settled_lt (by omega) (by omega) hq)
  refine ⟨fun q hq => ?_, ?_, ?_⟩
  · rw [hr.pendingBatch] at hq
    rw [(hr.heap q).finished (h.once.lt (by simp [places, hq])), hk.pending q hq]
  · rw [hr.stages]
    exact hk.chunk
  · rw [hr.mem, hr.pendingBatch, hr.stages, hheld]
    exact hk.ledger

theorem SoleRows.merge (hone : cfg.ppSize = 1) (h : Placed complete cfg 0 flight S)
    (hk : SoleRows size flight S) (hcur : S.cur = 0) (hlanded : flight 0 = false)
    (hm : S.mergeLastBatch = some S') : SoleInTurn size S' := by
  have hi : 0 < cfg.ppSize := by omega
  have hstage : S.stage = S.stages 0 := by rw [stage, hcur]
  have hhome : ∀ q, S.stage.beingChunkedReq = some q → (S.heap q).ppIdx = some S.cur := by
    intro q hq
    rw [hstage] at hq
    rw [hcur, h.ppIdx 0 hi q hq, eq_comm, prev_self hi]
    exact hone
  obtain ⟨hframe, hpending, hunf⟩ := h.merge_held hi hcur hlanded hm
  refine ⟨fun q hq => ?_, ?_⟩
  · rw [hframe.finished]
    exact hk.pending q (hpending ▸ hq)
  · rw [hpending, hunf]
    rcases mergeLastBatch_frees hhome hm with ⟨last, hlast, hmode, hfrees⟩ | ⟨hlast, hmem⟩
    · have hown : (S.stages 0).lastBatch = .own last := by
        rw [hstage] at hlast
        rcases (h.last_cases hi hi hlast).2 with ⟨hown, _⟩ | ⟨_, _, hdecode, _⟩
        · exact hown
        · cases hm : last.forwardMode <;> simp_all [ForwardMode.isExtend, ForwardMode.isDecode]
      have hreqs : (S.stages 0).ownReqs = last.reqs := by rw [Stage.ownReqs, hown]
      have hchunk := Stage.unmergedChunk_perm (hreqs ▸ ((h.stages 0 hi).own last hown).2)
        (hk.chunk last hown)
      rw [hstage] at hfrees
      refine Memory.Ledger.frees (hk.ledger.perm ?_) hfrees
      refine List.perm_iff_count.mpr fun q => ?_
      have hcount := hchunk.count_eq q
      simp only [List.count_append]
      omega
    · have hnil : (S.stages 0).unmergedChunk = [] := by
        have hown : (S.stages 0).ownReqs = [] := Stage.ownReqs_eq_nil fun b hb => by
          have hmode := hlast b (by rw [hstage, Stage.last, hb])
          rw [((h.stages 0 hi).own b hb).1] at hmode
          simp at hmode
        rw [Stage.unmergedChunk, hown, List.filter_nil]
      have hledger := hk.ledger
      rw [hnil, List.append_nil] at hledger
      rw [hmem]
      exact hledger

theorem SoleInTurn.rebalance {tpot : Rat} (hk : SoleInTurn size S)
    (hr : S.rebalanceIfEnabled cfg tpot = some S') : SoleInTurn size S' := by
  obtain ⟨_, hmem, hpending, hperm⟩ := rebalance_held hk.pending hr
  refine ⟨hpending, ?_⟩
  rw [hmem]
  exact hk.ledger.perm ((List.perm_append_comm.trans hperm.symm).trans List.perm_append_comm)

theorem SoleInTurn.prefill (hone : cfg.ppSize = 1) (h : InTurn complete cfg 0 flight S)
    (hk : SoleInTurn size S) {fetched selected : Sched Memory} {adder : PrefillAdder}
    {batch : ScheduleBatch} (hphases : PrefillPhases cfg S fetched selected S' adder batch)
    (hpre : Prefilled cfg S S' batch adder.canRunList) :
    SoleRows size (fun j => decide (j = 0) || flight j) (S'.setLastBatch (some batch)) := by
  have hi : 0 < cfg.ppSize := by omega
  have hcur : S'.cur = 0 := by rw [Sched.cur, hpre.curPP]; exact h.cur
  have hstage := (setLastBatch_stages S' (some batch)).2
  rw [hcur] at hstage
  simp only [hpre.isDecode, Bool.false_eq_true, if_false] at hstage
  obtain ⟨hnodup, hsub, hrowless⟩ := hpre.rowless hi h
  have hselect : S.mem.SameRows selected.mem := by
    rw [← fetchChunkedPrefill_sole hone hphases.fetch]
    exact selectPrefill_rows hphases.select
  have hledger := (hk.ledger.sameRows hselect).takes (hphases.takes (hnodup.sublist hsub))
    fun q hq => hrowless q (by
      rcases List.mem_append.mp hq with hq | hq
      · exact List.mem_append_left _ hq
      · exact List.mem_append_right _ (List.mem_append_left _ hq))
  have hheld := hpre.heldAt_dispatched hi h hstage
  refine ⟨fun q hq => ?_, fun b hb q hq => ?_, hledger.perm ?_⟩
  · change q ∈ reqsOf S'.pendingBatch at hq
    rw [hpre.pendingBatch] at hq
    exact (hpre.finished q).trans (hk.pending q hq)
  · rw [hstage] at hq ⊢
    exact hsub.subset (hpre.chunk q hq)
  · rw [hheld, hstage]
    change List.Perm _ (reqsOf S'.pendingBatch ++ (_ ++
      batch.reqs.filter (S'.stage.beingChunkedReq == some ·)))
    rw [hpre.pendingBatch]
    refine List.perm_iff_count.mpr fun q => ?_
    have hsplit := (List.filter_append_perm (S'.stage.beingChunkedReq == some ·)
      batch.reqs).count_eq q
    simp only [List.count_append] at hsplit ⊢
    have hbne : (batch.reqs.filter fun q => !(S'.stage.beingChunkedReq == some q)) =
      batch.reqs.filter (S'.stage.beingChunkedReq != some ·) := rfl
    rw [hbne] at hsplit
    rcases hpre.reqs with ⟨hreqs, hsame⟩ | ⟨hreqs, hnone⟩
    · rw [hreqs] at hsplit
      rw [hsame, hreqs, ← unfinishedRunning]
      omega
    · rw [hreqs, List.count_append] at hsplit
      rw [hnone, hreqs]
      simp only [reqsOf, Option.map_none, Option.getD_none, List.filter_nil, List.count_nil]
      omega

theorem SoleInTurn.decode (hone : cfg.ppSize = 1) (h : InTurn complete cfg 0 flight S)
    (hk : SoleInTurn size S) {S'' : Sched Memory} {out : Option ScheduleBatch}
    (hform : S.getNewBatchPrefill cfg = some (S', none)) (hn : NotPrefilled cfg S S')
    (hdec : S'.orDecode cfg none = some (S'', out)) (hd : Decoded S' S'' out) :
    SoleRows size (fun j => decide (j = 0) || flight j) (S''.setLastBatch out) := by
  have hcur : S''.cur = 0 := hd.toFrame.cur.trans (hn.toFrame.cur.trans h.cur)
  have hframe := hn.toFrame.trans hd.toFrame
  have hunf : S'.unfinishedRunning = S.unfinishedRunning := by
    unfold unfinishedRunning
    rw [hn.stage]
    exact List.filter_congr fun q _ => by rw [hn.toFrame.finished]
  obtain ⟨retracted, hwaiting, hperm⟩ := hd.retracted
  obtain ⟨retracted', hwaiting', hrows⟩ := orDecode_rows hdec
  obtain rfl : retracted' = retracted := List.append_cancel_left (hwaiting'.symm.trans hwaiting)
  have hsame := getNewBatchPrefill_rows (Or.inl hone) hform
  obtain ⟨hown, hheld⟩ : (∀ b, ((S''.setLastBatch out).stages 0).lastBatch ≠ .own b) ∧
      (S''.setLastBatch out).heldAt (fun j => decide (j = 0) || flight j) 0 = reqsOf out :=
    hd.heldAt_dispatched hcur
  have hpending : (S''.setLastBatch out).pendingBatch = S.pendingBatch :=
    hd.pendingBatch.trans hn.pendingBatch
  refine ⟨fun q hq => ?_, fun b hb q hq => ?_, ?_⟩
  · exact (hframe.finished q).trans (hk.pending q (hpending ▸ hq))
  · exact absurd hb (hown b)
  · rw [hheld, hpending, Stage.unmergedChunk, Stage.ownReqs_eq_nil hown, List.filter_nil,
      List.append_nil]
    refine Memory.Ledger.frees ((hk.ledger.sameRows hsame).perm ?_) hrows
    refine List.perm_iff_count.mpr fun q => ?_
    have hcount := hperm.count_eq q
    rw [hunf] at hcount
    simp only [List.count_append] at hcount ⊢
    omega

theorem SoleRows.deliver {batch : ScheduleBatch} {nextTokenIds : List Nat}
    (hone : cfg.ppSize = 1) (h : Placed True cfg 0 flight S) (hk : SoleRows size flight S)
    (hlast : (S.stages 0).last = some batch) (hflight : flight 0 = true)
    (hall : batch.reqs.length ≤ nextTokenIds.length)
    (hd : S.deliver cfg 0 batch nextTokenIds = some S') :
    SoleRows size (fun j => flight j && decide (j ≠ 0)) S' := by
  have hi : 0 < cfg.ppSize := by omega
  have holdest : ∀ j < cfg.ppSize, flight j = true → j ≠ 0 →
      turnsAgo cfg.ppSize 0 j < turnsAgo cfg.ppSize 0 0 := fun j hj _ hne => by omega
  obtain ⟨_, hdelivered⟩ := h.deliver hi hi hlast hflight holdest (fun _ => hall) hd
  have hrows := h.rowsDelivered hi hi hlast hflight holdest (fun _ => hall) hd
  have hunfreed := hrows.unfreed trivial
  obtain ⟨_, hown, hchunk⟩ := hdelivered.stages 0
  refine ⟨fun q hq => ?_, fun b hb q hq => ?_, ?_⟩
  · rw [hrows.pendingBatch] at hq
    rw [hrows.pending q hq, hk.pending q hq]
  · rw [hchunk] at hq
    rw [hown]
    obtain ⟨_, _, _, rfl⟩ := hdelivered.others
    simp only [Function.update_self, Stage.modifyLast] at hb
    split at hb
    next hidle => rw [hidle] at hb; simp at hb
    next old hold => exact hk.chunk old hold q hq
    next hrun => rw [hrun] at hb; simp at hb
  · refine Memory.Ledger.frees (hk.ledger.perm ?_) hrows.rows
    rw [hrows.pendingBatch, Stage.unmergedChunk, Stage.unmergedChunk, hown, hchunk]
    refine List.perm_iff_count.mpr fun q => ?_
    have hcount := hrows.held.count_eq q
    rw [hunfreed] at hcount
    simp only [List.count_append, List.count_nil] at hcount ⊢
    omega

theorem SoleRows.idle {ratio : Rat} (hk : SoleRows size flight S)
    (hlast : (S.stages 0).last = none) :
    SoleRows size (fun j => flight j && decide (j ≠ 0)) { S with newTokenRatio := ratio } := by
  refine ⟨hk.pending, hk.chunk, ?_⟩
  rw [heldAt_idle ratio flight hlast]
  exact hk.ledger

theorem SoleRows.congr {flight' : Nat → Bool} (hk : SoleRows size flight S)
    (hflight : flight' 0 = flight 0) : SoleRows size flight' S := by
  refine ⟨hk.pending, hk.chunk, ?_⟩
  have hheld : S.heldAt flight' 0 = S.heldAt flight 0 := heldAt_congr rfl hflight fun _ _ => rfl
  rw [hheld]
  exact hk.ledger

/-- One iteration keeps the ledger. -/
theorem SoleRows.step {input : StepInput} {sample : Nat → Nat} {out : Option ScheduleBatch}
    {r k : Nat} (hone : cfg.ppSize = 1) (hr : r < cfg.ppSize)
    (hcount : S.curPP = .after cfg.ppSize r k)
    (h : Placed True cfg (k % cfg.ppSize)
      (flying cfg.ppSize (cfg.ppSize - 1 - r) (k % cfg.ppSize)) S)
    (hk : SoleRows size (flying cfg.ppSize (cfg.ppSize - 1 - r) 0) S)
    (hroom : ¬ S.FetchesWhenFull cfg input) (hstep : S.step cfg input sample = some (S', out)) :
    SoleRows size (flying cfg.ppSize (cfg.ppSize - 1 - r) 0) S' := by
  obtain ⟨merged, balanced, prefilled, decoded, newBatch, t⟩ := exists_turn hstep
  obtain ⟨hturn, hcases, hplaced⟩ := t.placed hr hcount h hroom
  have hzero : ∀ n, n % cfg.ppSize = 0 := fun n => by rw [hone, Nat.mod_one]
  have hidx : decoded.curPP.getPp = (r + 0 + 1) % cfg.ppSize := by
    rw [t.arriving hcount, hzero, hzero]
  have hreceived := receive_spec cfg input S
  have hcur : (S.receive cfg input).cur = 0 := (receive_cur hcount).trans (hzero k)
  have hi : 0 < cfg.ppSize := by omega
  rw [hzero] at h hturn hcases hplaced
  rw [hzero] at hplaced
  have hlanded := not_flying_self hr 0
  have hreceive := h.receive hreceived
  have hbalanced := ((hk.receive hone h hreceived).merge hone hreceive hcur hlanded
    t.merge).rebalance t.rebalance
  have hdispatched : SoleRows size
      (fun j => decide (j = 0) || flying cfg.ppSize (cfg.ppSize - 1 - r) 0 j)
      (decoded.setLastBatch out) := by
    rcases hcases with ⟨rfl, hnot, hdecoded, _⟩ |
      ⟨batch, _, _, _, rfl, rfl, rfl, hphases, hpre⟩
    · exact hbalanced.decode hone hturn t.prefill hnot t.decode hdecoded
    · exact hbalanced.prefill hone hturn hphases hpre
  obtain ⟨_, _, hrest⟩ := flying_next hr hi
  rw [hzero] at hrest
  have hall := t.resultComplete (not_fillsShort (by omega) hcount)
  have hfinish := (Placed.finish hr hi hidx (by rwa [hzero]) (fun _ => hall) t.finish).2
  rw [hzero] at hfinish hidx
  have hlast := (hrest 0 hi).symm
  rw [hzero] at hlast
  rcases hfinish with ⟨batch, nextTokenIds, hbatch, hresult, hdeliver, _⟩ | ⟨hidle, ratio, rfl⟩
  · exact (hdispatched.deliver hone hplaced hbatch (by simp)
      (hall batch nextTokenIds (by rwa [hidx]) hresult) hdeliver).congr hlast
  · exact (hdispatched.idle hidle).congr hlast

theorem soleRows_init (cfg : Config) (r size tokens : Nat) (flight : Nat → Bool) :
    SoleRows size flight (Sched.init cfg r (Memory.clear size tokens)) := by
  refine ⟨by simp [Sched.init, reqsOf], by simp [Sched.init], ?_⟩
  have hheld : (Sched.init cfg r (Memory.clear size tokens)).heldAt flight 0 = [] := by
    simp [heldAt, Sched.init, reqsOf, Stage.settled, Stage.ownReqs]
  rw [hheld]
  refine ⟨?_, by simp [Sched.init, reqsOf, Stage.unmergedChunk, Stage.ownReqs]⟩
  simp [FreeList.Conserved, Sched.init, Memory.clear, ReqToTokenPool.clear, reqsOf,
    Stage.unmergedChunk, Stage.ownReqs]

theorem not_fetchesWhenFull {M : Type} [MemoryPools M] {S : Sched M} {input : StepInput}
    (hone : cfg.ppSize = 1) : ¬ S.FetchesWhenFull cfg input := by
  rintro ⟨_, _, hne, _⟩
  exact hne hone

/-- A single micro-batch: no step fetches into it when it is full, and its own result arrives. -/
theorem run_placed_sole {M : Type} [MemoryPools M] {S : Sched M} {r n : Nat} {mem : M}
    {inputs : Nat → StepInput} {samples : Nat → Nat → Nat} (hone : cfg.ppSize = 1)
    (hr : r < cfg.ppSize) (hrun : run cfg r mem inputs samples n = some S) :
    S.curPP = .after cfg.ppSize r n ∧ Placed True cfg (n % cfg.ppSize)
      (flying cfg.ppSize (cfg.ppSize - 1 - r) (n % cfg.ppSize)) S := by
  refine run_placed hr (fun _ _ _ _ => not_fetchesWhenFull hone) (fun _ k _ T hT => ?_) hrun
  exact not_fillsShort (by omega)
    (run_placed_any hr (fun _ _ _ _ => not_fetchesWhenFull hone) hT).1

theorem run_soleRows {r size tokens n : Nat} {inputs : Nat → StepInput}
    {samples : Nat → Nat → Nat} (hone : cfg.ppSize = 1) (hr : r < cfg.ppSize)
    (hrun : run cfg r (Memory.clear size tokens) inputs samples n = some S) :
    SoleRows size (flying cfg.ppSize (cfg.ppSize - 1 - r) 0) S := by
  induction n generalizing S with
  | zero =>
    cases Option.some.inj hrun
    exact soleRows_init cfg r size tokens _
  | succ n ih =>
    obtain ⟨S₁, hbefore, hrun⟩ := Option.bind_eq_some_iff.mp hrun
    obtain ⟨⟨S₂, out⟩, hstep, hrun⟩ := Option.bind_eq_some_iff.mp hrun
    cases Option.some.inj hrun
    obtain ⟨hcount, hplaced⟩ := run_placed_sole hone hr hbefore
    exact (ih hbefore).step hone hr hcount hplaced (not_fetchesWhenFull hone) hstep

end Sched

end FastPP
