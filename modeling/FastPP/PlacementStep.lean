import FastPP.Placement

namespace FastPP

theorem count_range'_le (s n q : Nat) :
    (List.range' s n).count q ≤ if s ≤ q ∧ q < s + n then 1 else 0 := by
  split
  next => exact List.nodup_iff_count_le_one.mp List.nodup_range' q
  next h =>
    refine (List.count_eq_zero.mpr fun hmem => h ?_).le
    simpa [List.mem_range'_1] using hmem

theorem Stage.ownReqs_eq_nil {stage : Stage} (h : ∀ b, stage.lastBatch ≠ .own b) :
    stage.ownReqs = [] := by
  unfold ownReqs
  split
  next b hb => exact absurd hb (h b)
  next => rfl

namespace Sched

variable {M : Type} {cfg : Config} {complete : Prop} {i : Nat} {flight : Nat → Bool}
  {S S' : Sched M}

theorem Arrived.ppIdx {q : Nat} (h : Arrived cfg S S' q) (hq : q < S.nextReq) :
    (S'.heap q).ppIdx = (S.heap q).ppIdx := by
  rcases h with ⟨_, hS⟩ | ⟨hle, _⟩
  · rw [hS]
  · omega

/-- Arriving requests wait; nothing else moves. -/
theorem Placed.receive (h : Placed complete cfg i flight S) (hr : Received cfg S S') :
    Placed complete cfg i flight S' := by
  have hplaces : S'.places cfg i = S'.waitingQueue ++ (reqsOf S.pendingBatch ++
      ((S.stages i).settled ++ (S.others cfg i ++
        (S.stages (cfg.prev i)).beingChunkedReq.toList))) := by
    rw [places, hr.pendingBatch, hr.stages, others_congr cfg fun j _ => congrFun hr.stages j]
  have hsame : ∀ q, S'.chunksInFlight cfg flight q = S.chunksInFlight cfg flight q := fun q => by
    rw [chunksInFlight, hr.stages, chunksInFlight]
  have hcount : ∀ q, (S'.heap q).isBeingChunked = (S.heap q).isBeingChunked ∨
      (S'.heap q).isBeingChunked = 0 ∧ S.chunksInFlight cfg flight q = 0 := by
    intro q
    rcases hr.heap q with ⟨_, hq⟩ | ⟨hle, input, _, hq⟩
    · exact Or.inl (by rw [hq])
    · refine Or.inr ⟨?_, List.countP_eq_zero.mpr fun j hj => ?_⟩
      · rw [hq]
        simp only [handledReq]
        split <;> rfl
      · simp only [Bool.and_eq_true, decide_eq_true_eq, not_and]
        intro _ hchunk
        exact absurd (h.fresh j (List.mem_range.mp hj) q hchunk) (by omega)
  refine ⟨⟨fun j hj q hq => ?_, fun q => ?_, fun hall q => ?_⟩, fun q => ?_, fun j hj => ?_,
    fun j hj q hq => ?_, ?_⟩
  · exact (h.fresh j hj q (hr.stages ▸ hq)).trans_le hr.nextReq
  · rw [hsame]
    rcases hcount q with hq | ⟨hzero, hnone⟩
    · rw [hq]
      exact h.counted q
    · rw [hzero, hnone]
      rfl
  · rw [hsame]
    rcases hcount q with hq | ⟨hzero, hnone⟩
    · rw [hq]
      exact h.exact hall q
    · rw [hzero, hnone]
      rfl
  · have hold := h.once q
    have hcount := hr.waitingQueue.count_le q
    have hrange := count_range'_le S.nextReq (S'.nextReq - S.nextReq) q
    have hnext := hr.nextReq
    rw [hplaces]
    simp only [places, List.count_append] at hold hcount ⊢
    split at hold <;> split at hrange <;> split <;> omega
  · rw [hr.stages]
    exact h.stages j hj
  · rw [hr.stages] at hq
    rw [(hr.heap q).ppIdx (h.fresh j hj q hq)]
    exact h.ppIdx j hj q hq
  · rw [hr.stages]
    exact h.order

/-- The requests that join the running ones leave the chunked one out. -/
theorem joining_sublist {last : ScheduleBatch} :
    (S.joining last).Sublist
      (last.reqs.filter fun q => S.stage.beingChunkedReq != some q) := by
  unfold joining
  split
  next hnone =>
    have hall : last.reqs.filter (fun q => none != some q) = last.reqs :=
      List.filter_eq_self.mpr fun _ _ => rfl
    rw [hnone, hall]
  next p hsome =>
    refine List.monotone_filter_right _ fun q hq => ?_
    rw [ScheduleBatch.keeps, Bool.and_eq_true] at hq
    exact hsome ▸ hq.2

variable [MemoryPools M]

/-- At its turn a micro-batch merges a prefill batch of its own or nothing. -/
theorem Placed.merge_cases (hi : i < cfg.ppSize) (h : Placed complete cfg i flight S)
    (hcur : S.cur = i)
    (hm : S.mergeLastBatch = some S') :
    (∃ last, (S.stages i).lastBatch = .own last ∧ Merged S S' last) ∨
      ((S.stages i).ownReqs = [] ∧ Quiet S S') := by
  have hstage : S.stage = S.stages i := by rw [stage, hcur]
  rcases mergeLastBatch_spec hm with ⟨last, hlast, hmode, hmerged⟩ | ⟨hlast, hquiet⟩
  · refine Or.inl ⟨last, ?_, hmerged⟩
    rw [hstage, Stage.last] at hlast
    split at hlast
    next => simp at hlast
    next hb => rw [hb, Option.some.inj hlast]
    next hb =>
      obtain ⟨b, hb, hdecode, _⟩ := (h.stages i hi).aliased hb
      obtain rfl : b = last := Option.some.inj (hb.symm.trans hlast)
      rw [hdecode] at hmode
      simp [ForwardMode.isExtend] at hmode
  · refine Or.inr ⟨Stage.ownReqs_eq_nil fun b hb => ?_, hquiet⟩
    have hmode := hlast b (by rw [hstage, Stage.last, hb])
    rw [((h.stages i hi).own b hb).1] at hmode
    simp at hmode

/-- What the merge does to the places: the chunked request stays recorded only where it is the
carried one, and only settled requests run after it. -/
theorem Placed.merge_moved (hi : i < cfg.ppSize) (h : Placed complete cfg i flight S)
    (hcur : S.cur = i)
    (hm : S.mergeLastBatch = some S') :
    Frame S S' ∧ S'.waitingQueue = S.waitingQueue ∧ S'.pendingBatch = S.pendingBatch ∧
      (∀ q, (S'.stages i).beingChunkedReq = some q →
        (S.stages i).beingChunkedReq = some q ∧ cfg.ppSize = 1) ∧
      ∀ q, (reqsOf (S'.stages i).runningBatch).count q ≤ (S.stages i).settled.count q := by
  have hstage : S.stage = S.stages i := by rw [stage, hcur]
  have hself : i = cfg.prev i ↔ cfg.ppSize = 1 := eq_comm.trans (prev_self hi)
  rcases h.merge_cases hi hcur hm with ⟨last, hown, hmerged⟩ | ⟨hnil, hquiet⟩
  · have hstage' : S'.stages i = S'.stage := by rw [stage, hmerged.cur, hcur]
    refine ⟨hmerged.toFrame, hmerged.waitingQueue, hmerged.pendingBatch, fun q hq => ?_,
      fun q => ?_⟩
    · rw [hstage', hmerged.beingChunkedReq, chunkLeft, Option.filter_eq_some_iff, hstage] at hq
      refine ⟨hq.1, hself.mp ?_⟩
      rw [← h.ppIdx i hi q hq.1, ← hcur]
      simpa using hq.2
    · rw [hstage', hmerged.running, Stage.settled, List.count_append, List.count_append, hstage]
      have hcount := (joining_sublist : (S.joining last).Sublist _).count_le q
      simp only [Stage.ownReqs, hown]
      rw [hstage] at hcount
      omega
  · refine ⟨hquiet.toFrame, hquiet.waitingQueue, hquiet.pendingBatch, fun q hq => ?_,
      fun q => ?_⟩
    · rw [hquiet.allStages] at hq
      exact ⟨hq, ((h.stages i hi).chunk q hq).resolve_left (by simp [hnil])⟩
    · rw [hquiet.allStages, Stage.settled, List.count_append]
      omega

/-- The carried chunked request is the same one or none after the merge. -/
theorem Placed.merge_carried (hi : i < cfg.ppSize) (h : Placed complete cfg i flight S)
    (hcur : S.cur = i)
    (hm : S.mergeLastBatch = some S') (q : Nat) :
    ((S'.stages (cfg.prev i)).beingChunkedReq.toList).count q ≤
      ((S.stages (cfg.prev i)).beingChunkedReq.toList).count q := by
  obtain ⟨hframe, _, _, hchunk, _⟩ := h.merge_moved hi hcur hm
  rcases eq_or_ne (cfg.prev i) i with heq | hne
  · rw [heq]
    cases hb : (S'.stages i).beingChunkedReq with
    | none => simp
    | some p => rw [(hchunk p hb).1]
  · rw [hframe.stages _ (hcur ▸ hne)]

theorem Placed.merge_places_le (hi : i < cfg.ppSize) (h : Placed complete cfg i flight S)
    (hcur : S.cur = i) (hm : S.mergeLastBatch = some S') (q : Nat) :
    (S'.turnPlaces cfg i).count q ≤ (S.places cfg i).count q := by
  obtain ⟨hframe, hwaiting, hpending, _, hrunning⟩ := h.merge_moved hi hcur hm
  have hrun := hrunning q
  have hcar := h.merge_carried hi hcur hm q
  simp only [turnPlaces, places, List.count_append, hwaiting, hpending,
    others_congr cfg fun j hj => hframe.stages j (hcur ▸ hj)]
  omega

/-- The last batch joins the running one at the start of its turn. -/
theorem Placed.merge (hi : i < cfg.ppSize) (h : Placed complete cfg i flight S) (hcur : S.cur = i)
    (hlanded : flight i = false) (hm : S.mergeLastBatch = some S') :
    InTurn complete cfg i flight S' := by
  have hself : i = cfg.prev i ↔ cfg.ppSize = 1 := eq_comm.trans (prev_self hi)
  obtain ⟨hframe, _, _, hchunk, _⟩ := h.merge_moved hi hcur hm
  have hstages : ∀ j, j ≠ i → S'.stages j = S.stages j := fun j hj =>
    hframe.stages j (hcur ▸ hj)
  exact {
    cur := hframe.cur.trans hcur
    landed := hlanded
    toChunksPlaced := h.toChunksPlaced.shift (fun j hj q hq => by
      rw [hframe.nextReq]
      rcases eq_or_ne j i with rfl | hne
      · exact h.fresh j hj q (hchunk q hq).1
      · exact h.fresh j hj q (hstages j hne ▸ hq)) fun q => by
      rw [(hframe.heap q).isBeingChunked, chunksInFlight_landed hlanded hstages]
    once := by
      rw [hframe.nextReq]
      exact h.once.of_count_le (h.merge_places_le hi hcur hm)
    stages := fun j hj hne => hstages j hne ▸ h.stages j hj
    moved := fun q hq => by
      obtain ⟨hold, hone⟩ := hchunk q hq
      refine ⟨hone, ?_⟩
      rw [(hframe.heap q).ppIdx]
      exact (h.ppIdx i hi q hold).mpr (hself.mpr hone)
    ppIdx := fun j hj hne q hq => by
      rw [(hframe.heap q).ppIdx]
      exact h.ppIdx j hj q (hstages j hne ▸ hq)
    order := fun j hj hj' f hf hf' q hq hmem =>
      h.order j hj f hf q (hstages j hj' ▸ hq) (hstages f hf' ▸ hmem) }

/-- What rebalancing does to the places. -/
theorem InTurn.rebalance_moved {tpot : Rat} (h : InTurn complete cfg i flight S)
    (hr : S.rebalanceIfEnabled cfg tpot = some S') :
    Frame S S' ∧ (∀ j, (S'.stages j).beingChunkedReq = (S.stages j).beingChunkedReq) ∧
      ∀ q, (S'.turnPlaces cfg i).count q ≤ (S.turnPlaces cfg i).count q := by
  unfold rebalanceIfEnabled at hr
  split at hr
  next =>
    obtain ⟨hbatches, hperm⟩ := Sched.rebalance_moved hr
    have hframe := hbatches.toFrame
    have hstages : ∀ j, j ≠ i → S'.stages j = S.stages j := fun j hj =>
      hframe.stages j (h.cur ▸ hj)
    have hstage' : S'.stage = S'.stages i := by rw [stage, hframe.cur, h.cur]
    have hstage : S.stage = S.stages i := by rw [stage, h.cur]
    have hwaiting : S'.waitingQueue = S.waitingQueue := by
      obtain ⟨_, _, _, rfl, _⟩ := hbatches
      rfl
    have hchunk : ∀ j, (S'.stages j).beingChunkedReq = (S.stages j).beingChunkedReq := by
      intro j
      rcases eq_or_ne j i with rfl | hne
      · obtain ⟨stage, _, _, hS, hb⟩ := hbatches
        rw [← hstage, ← hb, ← hstage', hS]
        exact congrArg Stage.beingChunkedReq (setStage_stage S stage)
      · rw [hstages j hne]
    refine ⟨hframe, hchunk, fun q => ?_⟩
    have hcount := hperm.count_eq q
    have hle := (List.filter_sublist (p := fun q => !(S.heap q).finished)
      (l := reqsOf (S.stages i).runningBatch)).count_le q
    rw [hstage', unfinishedRunning, hstage] at hcount
    simp only [List.count_append] at hcount
    simp only [turnPlaces, List.count_append, hwaiting, others_congr cfg hstages, hchunk]
    omega
  next =>
    obtain rfl := Option.some.inj hr
    exact ⟨.refl _, fun _ => rfl, fun _ => le_rfl⟩

/-- Rebalancing moves requests between the running and the pending batch. -/
theorem InTurn.rebalance {tpot : Rat} (h : InTurn complete cfg i flight S)
    (hr : S.rebalanceIfEnabled cfg tpot = some S') :
    InTurn complete cfg i flight S' := by
  obtain ⟨hframe, hchunk, hcount⟩ := h.rebalance_moved hr
  have hstages : ∀ j, j ≠ i → S'.stages j = S.stages j := fun j hj =>
    hframe.stages j (h.cur ▸ hj)
  exact {
    cur := hframe.cur.trans h.cur
    landed := h.landed
    toChunksPlaced := h.toChunksPlaced.shift (fun j hj q hq => by
      rw [hframe.nextReq]
      exact h.fresh j hj q (hchunk j ▸ hq)) fun q => by
      rw [(hframe.heap q).isBeingChunked, chunksInFlight_landed h.landed hstages]
    once := by
      rw [hframe.nextReq]
      exact h.once.of_count_le hcount
    stages := fun j hj hne => hstages j hne ▸ h.stages j hj hne
    moved := fun q hq => by
      rw [(hframe.heap q).ppIdx]
      exact h.moved q (hchunk i ▸ hq)
    ppIdx := fun j hj hne q hq => by
      rw [(hframe.heap q).ppIdx]
      exact h.ppIdx j hj hne q (hchunk j ▸ hq)
    order := fun j hj hj' f hf hf' q hq hmem =>
      h.order j hj hj' f hf hf' q (hchunk j ▸ hq) (hstages f hf' ▸ hmem) }

end Sched

end FastPP
