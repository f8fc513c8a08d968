import FastPP.TurnRows

namespace FastPP

namespace Sched

variable {M : Type}

/-- A settled request keeps its row until its last result was processed. -/
def holds (S : Sched M) (flight : Nat → Bool) (j q : Nat) : Bool :=
  !(S.heap q).finished || (flight j && decide (q ∈ reqsOf (S.stages j).last))

/-- The settled requests of a micro-batch that have a row. -/
def heldAt (S : Sched M) (flight : Nat → Bool) (j : Nat) : List Nat :=
  (S.stages j).settled.filter (S.holds flight j)

def heldOthers (cfg : Config) (S : Sched M) (flight : Nat → Bool) (i : Nat) : List Nat :=
  ((List.range cfg.ppSize).filter (· ≠ i)).flatMap (S.heldAt flight)

/-- The requests that have a row before the turn of `i`, the carried one last. -/
def held (cfg : Config) (S : Sched M) (flight : Nat → Bool) (i : Nat) : List Nat :=
  reqsOf S.pendingBatch ++ (S.heldAt flight i ++ (S.heldOthers cfg flight i ++
    (S.stages (cfg.prev i)).beingChunkedReq.toList))

/-- The requests that have a row within the turn of `i`. -/
def heldInTurn (cfg : Config) (S : Sched M) (flight : Nat → Bool) (i : Nat) : List Nat :=
  reqsOf S.pendingBatch ++ (S.unfinishedRunning ++ (S.heldOthers cfg flight i ++
    (S.stages (cfg.prev i)).beingChunkedReq.toList))

theorem heldAt_congr {S S' : Sched M} {flight flight' : Nat → Bool} {j : Nat}
    (hstage : S'.stages j = S.stages j) (hflight : flight' j = flight j)
    (hfinished : ∀ q ∈ (S.stages j).settled, (S'.heap q).finished = (S.heap q).finished) :
    S'.heldAt flight' j = S.heldAt flight j := by
  unfold heldAt
  rw [hstage]
  refine List.filter_congr fun q hq => ?_
  rw [holds, holds, hstage, hflight, hfinished q hq]

theorem heldOthers_congr {cfg : Config} {S S' : Sched M} {flight flight' : Nat → Bool} {i : Nat}
    (hstages : ∀ j, j ≠ i → S'.stages j = S.stages j)
    (hflight : ∀ j < cfg.ppSize, j ≠ i → flight' j = flight j)
    (hfinished : ∀ j < cfg.ppSize, j ≠ i → ∀ q ∈ (S.stages j).settled,
      (S'.heap q).finished = (S.heap q).finished) :
    S'.heldOthers cfg flight' i = S.heldOthers cfg flight i := by
  unfold heldOthers
  refine List.flatMap_congr fun j hj => ?_
  obtain ⟨hlt, hne⟩ : j < cfg.ppSize ∧ j ≠ i := by simpa using hj
  exact heldAt_congr (hstages j hne) (hflight j hlt hne) (hfinished j hlt hne)

/-- The requests that have a row, seen from any micro-batch. -/
theorem held_perm (cfg : Config) (S : Sched M) (flight : Nat → Bool) {i j : Nat}
    (hi : i < cfg.ppSize) (hj : j < cfg.ppSize) :
    (S.held cfg flight i).Perm (reqsOf S.pendingBatch ++ (S.heldAt flight j ++
      (S.heldOthers cfg flight j ++ (S.stages (cfg.prev i)).beingChunkedReq.toList))) := by
  have hall : ∀ {k}, k < cfg.ppSize → (S.heldAt flight k ++ S.heldOthers cfg flight k).Perm
      ((List.range cfg.ppSize).flatMap (S.heldAt flight)) := fun hk => by
    simpa [heldOthers] using (range_perm hk).flatMap_right (S.heldAt flight)
  have hboth := (hall hi).trans (hall hj).symm
  have hcarried := (hboth.append_right (S.stages (cfg.prev i)).beingChunkedReq.toList).append_left
    (reqsOf S.pendingBatch)
  simpa [held, List.append_assoc] using hcarried

/-- The pending requests go on, and each of these slots is free or has one holder. -/
structure RowsKept (cfg : Config) (slots : List Nat) (i : Nat) (flight : Nat → Bool)
    (S : Sched Memory) : Prop where
  pending : ∀ q ∈ reqsOf S.pendingBatch, (S.heap q).finished = false
  ledger : Memory.Ledger slots S.mem (S.held cfg flight i)

/-- The same within the turn of `i`. -/
structure RowsInTurn (cfg : Config) (slots : List Nat) (i : Nat) (flight : Nat → Bool)
    (S : Sched Memory) : Prop where
  pending : ∀ q ∈ reqsOf S.pendingBatch, (S.heap q).finished = false
  ledger : Memory.Ledger slots S.mem (S.heldInTurn cfg flight i)

variable {cfg : Config} {complete : Prop} {slots : List Nat} {i : Nat} {flight : Nat → Bool}
  {S S' : Sched Memory}

theorem Arrived.finished {S S' : Sched M} {q : Nat} (h : Arrived cfg S S' q)
    (hq : q < S.nextReq) : (S'.heap q).finished = (S.heap q).finished := by
  rcases h with ⟨_, hS⟩ | ⟨hle, _⟩
  · rw [hS]
    rfl
  · omega

theorem Placed.settled_lt {S : Sched M} (h : Placed complete cfg i flight S) (hi : i < cfg.ppSize)
    {j q : Nat}
    (hj : j < cfg.ppSize) (hq : q ∈ (S.stages j).settled) : q < S.nextReq := by
  refine h.once.lt (List.count_pos_iff.mp ?_)
  have hpos := List.count_pos_iff.mpr hq
  rw [places_count cfg S hi hj]
  omega

theorem RowsKept.receive (hi : i < cfg.ppSize) (h : Placed complete cfg i flight S)
    (hk : RowsKept cfg slots i flight S) (hr : Received cfg S S') :
    RowsKept cfg slots i flight S' := by
  have hheld : S'.held cfg flight i = S.held cfg flight i := by
    have hfin : ∀ j < cfg.ppSize, ∀ q ∈ (S.stages j).settled,
        (S'.heap q).finished = (S.heap q).finished := fun j hj q hq =>
      (hr.heap q).finished (h.settled_lt hi hj hq)
    unfold held
    rw [hr.pendingBatch, hr.stages, heldAt_congr (congrFun hr.stages i) rfl (hfin i hi),
      heldOthers_congr (fun j _ => congrFun hr.stages j) (fun _ _ _ => rfl)
        fun j hj _ => hfin j hj]
  refine ⟨fun q hq => ?_, ?_⟩
  · rw [hr.pendingBatch] at hq
    rw [(hr.heap q).finished (h.once.lt (by simp [places, hq])), hk.pending q hq]
  · rw [hr.mem, hheld]
    exact hk.ledger

/-- The running and the joining requests that go on are those that had a row. -/
theorem Placed.merge_held {S S' : Sched Memory} (hi : i < cfg.ppSize)
    (h : Placed complete cfg i flight S)
    (hcur : S.cur = i) (hlanded : flight i = false) (hm : S.mergeLastBatch = some S') :
    Frame S S' ∧ S'.pendingBatch = S.pendingBatch ∧ S'.unfinishedRunning = S.heldAt flight i := by
  have hstage : S.stage = S.stages i := by rw [stage, hcur]
  have hheld : S.heldAt flight i = (S.stages i).settled.filter fun q => !(S.heap q).finished :=
    List.filter_congr fun q _ => by simp [holds, hlanded]
  obtain ⟨hframe, hpending, hrunning⟩ : Frame S S' ∧ S'.pendingBatch = S.pendingBatch ∧
      (reqsOf (S'.stages i).runningBatch).filter (fun q => !(S.heap q).finished) =
        S.heldAt flight i := by
    rcases h.merge_cases hi hcur hm with ⟨last, hown, hmerged⟩ | ⟨hnil, hquiet⟩
    · have hstage' : S'.stages i = S'.stage := by rw [stage, hmerged.cur, hcur]
      refine ⟨hmerged.toFrame, hmerged.pendingBatch, ?_⟩
      rw [hstage', hmerged.running, hheld, Stage.settled, List.filter_append, List.filter_append,
        hstage, Stage.ownReqs, hown]
      congr 1
      unfold joining
      rw [hstage]
      split
      next hnone =>
        rw [List.filter_filter]
        exact List.filter_congr fun q _ => by simp [hnone]
      next p hsome =>
        rw [List.filter_filter, List.filter_filter]
        exact List.filter_congr fun q _ => by simp [ScheduleBatch.keeps, hsome]
    · refine ⟨hquiet.toFrame, hquiet.pendingBatch, ?_⟩
      rw [hquiet.allStages, hheld, Stage.settled, hnil, List.filter_nil, List.append_nil]
  refine ⟨hframe, hpending, ?_⟩
  rw [← hrunning, unfinishedRunning, stage, hframe.cur, hcur]
  exact List.filter_congr fun q _ => by rw [hframe.finished]

theorem RowsKept.merge (hp : 2 ≤ cfg.ppSize) (hi : i < cfg.ppSize)
    (h : Placed complete cfg i flight S)
    (hk : RowsKept cfg slots i flight S) (hcur : S.cur = i) (hlanded : flight i = false)
    (hm : S.mergeLastBatch = some S') : RowsInTurn cfg slots i flight S' := by
  have hstage : S.stage = S.stages i := by rw [stage, hcur]
  have hmem : S'.mem = S.mem := mergeLastBatch_mem (fun q hq hidx => by
    rw [hstage] at hq
    rw [hcur, h.ppIdx i hi q hq, eq_comm, prev_self hi] at hidx
    omega) hm
  obtain ⟨hframe, hpending, hunf⟩ := h.merge_held hi hcur hlanded hm
  have hstages : ∀ j, j ≠ i → S'.stages j = S.stages j := fun j hj =>
    hframe.stages j (hcur ▸ hj)
  have hheld : S'.heldInTurn cfg flight i = S.held cfg flight i := by
    have hne : cfg.prev i ≠ i := fun heq => by
      rw [prev_self hi] at heq
      omega
    unfold heldInTurn held
    rw [hpending, hunf, hstages _ hne,
      heldOthers_congr hstages (fun _ _ _ => rfl) fun _ _ _ q _ => hframe.finished q]
  refine ⟨fun q hq => ?_, ?_⟩
  · rw [hframe.finished]
    exact hk.pending q (hpending ▸ hq)
  · rw [hmem, hheld]
    exact hk.ledger

/-- Rebalancing moves unfinished requests between the running and the pending batch. -/
theorem rebalance_held {tpot : Rat} (hpending : ∀ q ∈ reqsOf S.pendingBatch,
      (S.heap q).finished = false) (hr : S.rebalanceIfEnabled cfg tpot = some S') :
    Frame S S' ∧ S'.mem = S.mem ∧
      (∀ q ∈ reqsOf S'.pendingBatch, (S'.heap q).finished = false) ∧
      (S'.unfinishedRunning ++ reqsOf S'.pendingBatch).Perm
        (S.unfinishedRunning ++ reqsOf S.pendingBatch) := by
  unfold rebalanceIfEnabled at hr
  split at hr
  next =>
    obtain ⟨hbatches, hperm⟩ := rebalance_moved hr
    have hframe := hbatches.toFrame
    have hmem : S'.mem = S.mem := by
      obtain ⟨_, _, _, rfl, _⟩ := hbatches
      rfl
    have hunfinished : ∀ q ∈ reqsOf S'.stage.runningBatch ++ reqsOf S'.pendingBatch,
        (S'.heap q).finished = false := by
      intro q hq
      rw [hframe.finished]
      rcases List.mem_append.mp (hperm.mem_iff.mp hq) with hq | hq
      · simpa using (List.mem_filter.mp hq).2
      · exact hpending q hq
    have hall : S'.unfinishedRunning = reqsOf S'.stage.runningBatch :=
      List.filter_eq_self.mpr fun q hq => by simp [hunfinished q (List.mem_append_left _ hq)]
    exact ⟨hframe, hmem, fun q hq => hunfinished q (List.mem_append_right _ hq), hall ▸ hperm⟩
  next =>
    cases Option.some.inj hr
    exact ⟨.refl S, rfl, hpending, .refl _⟩

/-- Rebalancing passes rows on with their requests. -/
theorem RowsInTurn.rebalance {tpot : Rat} (hp : 2 ≤ cfg.ppSize) (hi : i < cfg.ppSize)
    (h : InTurn complete cfg i flight S) (hk : RowsInTurn cfg slots i flight S)
    (hr : S.rebalanceIfEnabled cfg tpot = some S') : RowsInTurn cfg slots i flight S' := by
  obtain ⟨hframe, hmem, hpending, hperm⟩ := rebalance_held hk.pending hr
  have hstages : ∀ j, j ≠ i → S'.stages j = S.stages j := fun j hj =>
    hframe.stages j (h.cur ▸ hj)
  have hne : cfg.prev i ≠ i := fun heq => by
    rw [prev_self hi] at heq
    omega
  refine ⟨hpending, ?_⟩
  rw [hmem]
  refine hk.ledger.perm (List.perm_iff_count.mpr fun q => ?_)
  have hcount := hperm.count_eq q
  simp only [List.count_append] at hcount
  simp only [heldInTurn, List.count_append, hstages _ hne,
    heldOthers_congr hstages (fun _ _ _ => rfl) fun _ _ _ q _ => hframe.finished q]
  omega

end Sched

theorem filter_chunk_perm {reqs : List Nat} {chunk : Option Nat} (hnodup : reqs.Nodup)
    (hchunk : ∀ q, chunk = some q → q ∈ reqs) :
    (reqs.filter (chunk != some ·) ++ chunk.toList).Perm reqs := by
  cases chunk with
  | none =>
    have hall : reqs.filter (none != some ·) = reqs := List.filter_eq_self.mpr fun _ _ => rfl
    simp [hall]
  | some p =>
    have herase : reqs.filter (some p != some ·) = reqs.erase p := by
      rw [hnodup.erase_eq_filter]
      exact List.filter_congr fun q _ => by rw [bne_comm]; rfl
    rw [herase]
    exact List.perm_append_comm.trans (List.perm_cons_erase (hchunk p rfl)).symm

namespace Sched

variable {cfg : Config} {complete : Prop} {slots : List Nat} {i idx : Nat} {flight : Nat → Bool}
  {S S' : Sched Memory}

theorem mem_heldOthers {M : Type} {S : Sched M} {q : Nat} (h : q ∈ S.heldOthers cfg flight i) :
    q ∈ S.others cfg i := by
  obtain ⟨j, hj, hq⟩ := List.mem_flatMap.mp h
  exact List.mem_flatMap.mpr ⟨j, hj, (List.mem_filter.mp hq).1⟩

theorem Prefilled.finished {S S' : Sched M} [MemoryPools M] {batch : ScheduleBatch} {list : List Nat}
    (h : Prefilled cfg S S' batch list) (q : Nat) :
    (S'.heap q).finished = (S.heap q).finished := by
  rw [(h.heap q).finished]
  unfold listed
  split <;> split <;> rfl

/-- The requests of a new prefill batch have no row yet, but for the carried one. -/
theorem Prefilled.rowless {S S' : Sched Memory} {batch : ScheduleBatch} {list : List Nat}
    (hi : i < cfg.ppSize) (h : InTurn complete cfg i flight S)
    (hpre : Prefilled cfg S S' batch list) :
    batch.reqs.Nodup ∧ list.Sublist batch.reqs ∧
      ∀ q ∈ reqsOf S.pendingBatch ++ (S.unfinishedRunning ++ S.heldOthers cfg flight i),
        q ∉ list := by
  have hcount := fun q => (hpre.count_le hi h q).trans (h.once.le_one q)
  have hsub : list.Sublist batch.reqs := by
    rcases hpre.reqs with ⟨hreqs, _⟩ | ⟨hreqs, _⟩
    · rw [hreqs]
    · rw [hreqs]
      exact List.sublist_append_left _ _
  refine ⟨List.nodup_iff_count_le_one.mpr fun q => ?_, hsub, fun q hq hmem => ?_⟩
  · have := hcount q
    omega
  · have hle := hcount q
    have hlist := List.count_pos_iff.mpr hmem
    have hlistle := hsub.count_le q
    rcases List.mem_append.mp hq with hq | hq
    · have := List.count_pos_iff.mpr hq
      rw [hpre.pendingBatch] at hle
      omega
    · rcases List.mem_append.mp hq with hq | hq
      · have hpos := List.count_pos_iff.mpr hq
        rcases hpre.reqs with ⟨_, hsame⟩ | ⟨hreqs, _⟩
        · have hrun := (List.filter_sublist (p := fun q => !(S.heap q).finished)
            (l := reqsOf S.stage.runningBatch)).count_le q
          rw [hsame] at hle
          unfold unfinishedRunning at hpos
          omega
        · rw [hreqs, List.count_append] at hle
          omega
      · have := List.count_pos_iff.mpr (mem_heldOthers hq)
        omega

/-- The requests with a row where a prefill batch was dispatched. -/
theorem Prefilled.heldAt_dispatched {S S' : Sched Memory} {batch : ScheduleBatch}
    {list : List Nat} (hi : i < cfg.ppSize) (h : InTurn complete cfg i flight S)
    (hpre : Prefilled cfg S S' batch list)
    (hstage : (S'.setLastBatch (some batch)).stages i = { S'.stage with lastBatch := .own batch }) :
    (S'.setLastBatch (some batch)).heldAt (fun j => decide (j = i) || flight j) i =
      (reqsOf S'.stage.runningBatch).filter (fun q => !(S.heap q).finished) ++
        batch.reqs.filter (S'.stage.beingChunkedReq != some ·) := by
  have hcount := fun q => (hpre.count_le hi h q).trans (h.once.le_one q)
  unfold heldAt
  rw [hstage, Stage.settled, List.filter_append]
  congr 1
  · refine List.filter_congr fun q hq => ?_
    have hpos := List.count_pos_iff.mpr hq
    have hle := hcount q
    have hnot : q ∉ batch.reqs := fun hmem => by
      have := List.count_pos_iff.mpr hmem
      simp only at hpos
      omega
    rw [holds, hstage, Stage.last]
    simp only [reqsOf, Option.map_some, Option.getD_some, hnot, decide_false, Bool.and_false,
      Bool.or_false]
    exact congrArg _ (hpre.finished q)
  · refine List.filter_eq_self.mpr fun q hq => ?_
    have hmem : q ∈ batch.reqs := (List.mem_filter.mp hq).1
    rw [holds, hstage, Stage.last]
    simp [reqsOf, hmem]

/-- The requests of a new prefill batch take rows, the carried one a new one. -/
theorem RowsInTurn.prefill (hp : 2 ≤ cfg.ppSize) (hi : i < cfg.ppSize)
    (h : InTurn complete cfg i flight S)
    (hk : RowsInTurn cfg slots i flight S) {fetched selected : Sched Memory}
    {adder : PrefillAdder} {batch : ScheduleBatch}
    (hphases : PrefillPhases cfg S fetched selected S' adder batch)
    (hpre : Prefilled cfg S S' batch adder.canRunList) :
    RowsKept cfg slots ((i + 1) % cfg.ppSize) (fun j => decide (j = i) || flight j)
      (S'.setLastBatch (some batch)) := by
  have hcur : S'.cur = i := by rw [Sched.cur, hpre.curPP]; exact h.cur
  obtain ⟨hothers, hstage⟩ := setLastBatch_stages S' (some batch)
  rw [hcur] at hothers hstage
  simp only [hpre.isDecode, Bool.false_eq_true, if_false] at hstage
  obtain ⟨hnodup, hsub, hrowless⟩ := hpre.rowless hi h
  obtain ⟨mem, hfrees, htakes⟩ := hphases.rows (by omega) (hnodup.sublist hsub)
  rw [h.cur] at hfrees
  have hperm : (S.heldInTurn cfg flight i).Perm
      ((S.stages (cfg.prev i)).beingChunkedReq.toList ++ (reqsOf S.pendingBatch ++
        (S.unfinishedRunning ++ S.heldOthers cfg flight i))) :=
    List.perm_iff_count.mpr fun q => by
      simp only [heldInTurn, List.count_append]
      omega
  have hledger := ((hk.ledger.perm hperm).frees hfrees).takes htakes hrowless
  have hheld := hpre.heldAt_dispatched hi h hstage
  have hchunk : (batch.reqs.filter (S'.stage.beingChunkedReq != some ·) ++
      S'.stage.beingChunkedReq.toList).Perm batch.reqs :=
    filter_chunk_perm hnodup fun q hq => hsub.subset (hpre.chunk q hq)
  have hrest : (S'.setLastBatch (some batch)).heldOthers cfg
      (fun j => decide (j = i) || flight j) i = S.heldOthers cfg flight i :=
    heldOthers_congr (fun j hj => (hothers j hj).trans (hpre.stages j (h.cur ▸ hj)))
      (fun j _ hne => by simp [hne]) fun j _ _ q _ => hpre.finished q
  refine ⟨fun q hq => ?_, hledger.perm ?_⟩
  · change q ∈ reqsOf S'.pendingBatch at hq
    rw [hpre.pendingBatch] at hq
    exact (hpre.finished q).trans (hk.pending q hq)
  · refine List.Perm.trans ?_
      (held_perm cfg _ _ (Nat.mod_lt _ (by omega) : (i + 1) % cfg.ppSize < cfg.ppSize) hi).symm
    rw [prev_succ hi, hheld, hrest, hstage]
    change List.Perm _ (reqsOf S'.pendingBatch ++ _)
    rw [hpre.pendingBatch]
    refine List.perm_iff_count.mpr fun q => ?_
    have hbatch := hchunk.count_eq q
    simp only [List.count_append] at hbatch ⊢
    rcases hpre.reqs with ⟨hreqs, hsame⟩ | ⟨hreqs, hnone⟩
    · rw [hreqs] at hbatch
      rw [hsame, hreqs, ← unfinishedRunning]
      omega
    · rw [hreqs, List.count_append] at hbatch
      rw [hnone, hreqs]
      simp only [reqsOf, Option.map_none, Option.getD_none, List.filter_nil, List.count_nil]
      omega

/-- The requests with a row where the running batch decodes. -/
theorem Decoded.heldAt_dispatched {S S' : Sched Memory} {out : Option ScheduleBatch}
    (hd : Decoded S S' out) (hcur : S'.cur = i) :
    (∀ b, ((S'.setLastBatch out).stages i).lastBatch ≠ .own b) ∧
      (S'.setLastBatch out).heldAt (fun j => decide (j = i) || flight j) i = reqsOf out := by
  have hstage := (setLastBatch_stages S' out).2
  rw [hcur] at hstage
  cases hout : out with
  | none =>
    rw [hout] at hstage
    refine ⟨by simp [hstage], ?_⟩
    unfold heldAt
    rw [hstage, Stage.settled, Stage.ownReqs, hd.running, hout]
    rfl
  | some b =>
    rw [hout] at hstage
    simp only [(hd.mode b hout).1, ForwardMode.isDecode, if_true] at hstage
    refine ⟨by simp [hstage], ?_⟩
    unfold heldAt
    rw [hstage, Stage.settled, Stage.ownReqs, hd.running, hout, List.filter_nil,
      List.append_nil]
    refine List.filter_eq_self.mpr fun q hq => ?_
    rw [holds, hstage, Stage.last]
    simp [hd.running, hout, hq]

/-- The requests that decode keep their rows; the retracted ones give theirs back. -/
theorem RowsInTurn.decode (hp : 2 ≤ cfg.ppSize) (hi : i < cfg.ppSize)
    (h : InTurn complete cfg i flight S)
    (hk : RowsInTurn cfg slots i flight S) {S'' : Sched Memory} {out : Option ScheduleBatch}
    (hform : S.getNewBatchPrefill cfg = some (S', none)) (hn : NotPrefilled cfg S S')
    (hdec : S'.orDecode cfg none = some (S'', out)) (hd : Decoded S' S'' out)
    (hnone : (S.stages (cfg.prev i)).beingChunkedReq = none) :
    RowsKept cfg slots ((i + 1) % cfg.ppSize) (fun j => decide (j = i) || flight j)
      (S''.setLastBatch out) := by
  have hcur' : S'.cur = i := hn.toFrame.cur.trans h.cur
  have hcur : S''.cur = i := hd.toFrame.cur.trans hcur'
  have hframe := hn.toFrame.trans hd.toFrame
  have hchunk : S''.stage.beingChunkedReq = none := by
    rw [hd.beingChunkedReq, hn.stage, h.fetched hi, hnone]
  have hunf : S'.unfinishedRunning = S.unfinishedRunning := by
    unfold unfinishedRunning
    rw [hn.stage]
    exact List.filter_congr fun q _ => by rw [hn.toFrame.finished]
  obtain ⟨hothers, hstage⟩ := setLastBatch_stages S'' out
  rw [hcur] at hothers hstage
  obtain ⟨retracted, hwaiting, hperm⟩ := hd.retracted
  obtain ⟨retracted', hwaiting', hrows⟩ := orDecode_rows hdec
  obtain rfl : retracted' = retracted := List.append_cancel_left (hwaiting'.symm.trans hwaiting)
  have hsame := getNewBatchPrefill_rows (Or.inr (by rwa [h.cur])) hform
  have hheld : (S''.setLastBatch out).heldAt (fun j => decide (j = i) || flight j) i =
      reqsOf out := (hd.heldAt_dispatched hcur).2
  have hrest : (S''.setLastBatch out).heldOthers cfg
      (fun j => decide (j = i) || flight j) i = S.heldOthers cfg flight i :=
    heldOthers_congr (fun j hj => (hothers j hj).trans (hframe.stages j (h.cur ▸ hj)))
      (fun j _ hne => by simp [hne]) fun j _ _ q _ => hframe.finished q
  have hbefore : (S.heldInTurn cfg flight i).Perm
      (retracted' ++ (reqsOf S.pendingBatch ++ (reqsOf out ++ S.heldOthers cfg flight i))) :=
    List.perm_iff_count.mpr fun q => by
      have hcount := hperm.count_eq q
      rw [hunf] at hcount
      simp only [heldInTurn, hnone, Option.toList_none, List.append_nil, List.count_append]
        at hcount ⊢
      omega
  have hledger := ((hk.ledger.perm hbefore).sameRows hsame).frees hrows
  have hpending : (S''.setLastBatch out).pendingBatch = S.pendingBatch :=
    hd.pendingBatch.trans hn.pendingBatch
  refine ⟨fun q hq => ?_, hledger.perm ?_⟩
  · exact (hframe.finished q).trans (hk.pending q (hpending ▸ hq))
  · refine List.Perm.trans ?_
      (held_perm cfg _ _ (Nat.mod_lt _ (by omega) : (i + 1) % cfg.ppSize < cfg.ppSize) hi).symm
    rw [prev_succ hi, hheld, hrest, hstage, hpending, hchunk, Option.toList_none, List.append_nil]

end Sched

end FastPP
