import FastPP.PlacementTurn

namespace FastPP

/-- Writing token ids into the last batch moves no request. -/
theorem Stage.modifyLast_settled (stage : Stage) {f : ScheduleBatch → ScheduleBatch}
    (hreqs : ∀ b, (f b).reqs = b.reqs) :
    (stage.modifyLast f).settled = stage.settled ∧
      (stage.modifyLast f).ownReqs = stage.ownReqs ∧
      (stage.modifyLast f).beingChunkedReq = stage.beingChunkedReq := by
  obtain ⟨running, last, chunk⟩ := stage
  cases last with
  | idle => exact ⟨rfl, rfl, rfl⟩
  | own b => simp [modifyLast, settled, ownReqs, hreqs]
  | running => cases running <;> simp [modifyLast, settled, ownReqs, reqsOf, hreqs]

theorem Stage.WellPlaced.modifyLast {p : Nat} {stage : Stage} {f : ScheduleBatch → ScheduleBatch}
    (h : stage.WellPlaced p) (hreqs : ∀ b, (f b).reqs = b.reqs)
    (hmode : ∀ b, (f b).forwardMode = b.forwardMode) : (stage.modifyLast f).WellPlaced p := by
  obtain ⟨_, hown, hchunk⟩ := stage.modifyLast_settled hreqs
  refine ⟨?_, ?_, fun q hq => hown ▸ h.chunk q (hchunk ▸ hq)⟩
  · intro b hb
    unfold Stage.modifyLast at hb
    split at hb
    next hidle => rw [hidle] at hb; simp at hb
    next old hold =>
      cases hb
      rw [hmode, hreqs]
      exact h.own old hold
    next hrun => rw [hrun] at hb; simp at hb
  · intro hb
    unfold Stage.modifyLast at hb ⊢
    split at hb
    next hidle => rw [hidle] at hb; simp at hb
    next => simp at hb
    next hrun =>
      obtain ⟨b, hsome, hdecode, hne⟩ := h.aliased hrun
      exact ⟨f b, by simp [hsome], (hmode b).trans hdecode, by rwa [hreqs]⟩

namespace Sched

variable {M : Type} {cfg : Config} {complete : Prop} {i idx : Nat} {flight : Nat → Bool}
  {S S' : Sched M}

theorem Placed.congr {flight' : Nat → Bool} (h : Placed complete cfg i flight S)
    (hflight : ∀ j < cfg.ppSize, flight' j = flight j) : Placed complete cfg i flight' S := by
  refine ⟨h.toChunksPlaced.shift h.fresh fun q => ?_, h.once, h.stages, h.ppIdx, h.order⟩
  unfold chunksInFlight
  congr 2
  exact List.countP_congr fun j hj => by rw [hflight j (List.mem_range.mp hj)]

/-- The invariant without exact counters. -/
theorem Placed.any (h : Placed complete cfg i flight S) : Placed False cfg i flight S :=
  ⟨⟨h.fresh, h.counted, fun hfalse => hfalse.elim⟩, h.once, h.stages, h.ppIdx, h.order⟩

/-- The batch awaiting its result: a prefill batch of its own or the running batch. -/
theorem Placed.last_cases (hi : i < cfg.ppSize) (h : Placed complete cfg i flight S)
    (hidx : idx < cfg.ppSize) {batch : ScheduleBatch}
    (hlast : (S.stages idx).last = some batch) :
    batch.reqs.Nodup ∧
      (((S.stages idx).lastBatch = .own batch ∧ batch.forwardMode.isDecode = false) ∨
        ((S.stages idx).lastBatch = .running ∧ (S.stages idx).runningBatch = some batch ∧
          batch.forwardMode.isDecode = true ∧ batch.reqs ≠ [])) := by
  unfold Stage.last at hlast
  split at hlast
  next => simp at hlast
  next b hb =>
    obtain rfl : b = batch := Option.some.inj hlast
    obtain ⟨hmode, hnodup⟩ := (h.stages idx hidx).own b hb
    refine ⟨hnodup, Or.inl ⟨hb, ?_⟩⟩
    cases hm : b.forwardMode <;> simp_all [ForwardMode.isExtend, ForwardMode.isDecode]
  next hb =>
    obtain ⟨b, hsome, hmode, hne⟩ := (h.stages idx hidx).aliased hb
    obtain rfl : b = batch := Option.some.inj (hsome.symm.trans hlast)
    refine ⟨List.nodup_iff_count_le_one.mpr fun q => ?_,
      Or.inr ⟨hb, hsome, by rw [hmode]; rfl, hne⟩⟩
    have hle := h.once.le_one q
    rw [places_count cfg S hi hidx, Stage.settled, hsome] at hle
    simp only [reqsOf, Option.map_some, Option.getD_some, List.count_append] at hle
    omega

theorem Delivered.stages {batch : ScheduleBatch} {nextTokenIds : List Nat}
    (h : Delivered idx batch nextTokenIds S S') (j : Nat) :
    (S'.stages j).settled = (S.stages j).settled ∧
      (S'.stages j).ownReqs = (S.stages j).ownReqs ∧
      (S'.stages j).beingChunkedReq = (S.stages j).beingChunkedReq := by
  obtain ⟨_, _, _, rfl⟩ := h.others
  rcases eq_or_ne j idx with rfl | hne
  · simp only [Function.update_self]
    exact Stage.modifyLast_settled _ fun _ => rfl
  · simp [hne]

/-- Processing the oldest outstanding result moves no request. -/
theorem Placed.deliver [MemoryPools M] {batch : ScheduleBatch} {nextTokenIds : List Nat}
    (hi : i < cfg.ppSize) (h : Placed complete cfg i flight S) (hidx : idx < cfg.ppSize)
    (hlast : (S.stages idx).last = some batch) (hflight : flight idx = true)
    (holdest : ∀ j < cfg.ppSize, flight j = true → j ≠ idx →
      turnsAgo cfg.ppSize i j < turnsAgo cfg.ppSize i idx)
    (hall : complete → batch.reqs.length ≤ nextTokenIds.length)
    (hd : S.deliver cfg idx batch nextTokenIds = some S') :
    Placed complete cfg i (fun j => flight j && decide (j ≠ idx)) S' ∧
      Delivered idx batch nextTokenIds S S' := by
  obtain ⟨hnodup, hcases⟩ := h.last_cases hi hidx hlast
  have hdelivered : Delivered idx batch nextTokenIds S S' := by
    refine deliver_spec hd hnodup fun hmode => ?_
    rcases hcases with ⟨_, hextend⟩ | ⟨_, _, _, hne⟩
    · rw [hextend] at hmode
      simp at hmode
    · exact hne
  refine ⟨?_, hdelivered⟩
  have hstages := hdelivered.stages
  obtain ⟨hothers, hother, hprocessed, hibc⟩ := hdelivered
  have hframe : S'.waitingQueue = S.waitingQueue ∧ S'.pendingBatch = S.pendingBatch ∧
      S'.nextReq = S.nextReq := by
    obtain ⟨_, _, _, rfl⟩ := hothers
    exact ⟨rfl, rfl, rfl⟩
  have hplaces : S'.places cfg i = S.places cfg i := by
    simp only [places, others, hframe.1, hframe.2.1, (hstages _).1, (hstages _).2.2]
  have hchunks : ∀ q, S.chunksInFlight cfg flight q =
      S'.chunksInFlight cfg (fun j => flight j && decide (j ≠ idx)) q +
        if (S.stages idx).beingChunkedReq = some q ∧ q ∈ (S.stages idx).ownReqs then 1 else 0 := by
    intro q
    rw [chunksInFlight_split S flight q hidx, chunksInFlight_split S' _ q hidx, hflight]
    simp only [(hstages _).2.1, (hstages _).2.2, ne_eq, not_true_eq_false, decide_false,
      Bool.and_false, Bool.false_eq_true, false_and, if_false, true_and, Nat.zero_add]
    rw [Nat.add_comm]
    congr 1
    refine List.countP_congr fun j hj => ?_
    have hne : j ≠ idx := by simpa using (List.mem_filter.mp hj).2
    simp [hne]
  have hreached : ∀ q ∈ reached batch nextTokenIds,
      (S'.chunksInFlight cfg (fun j => flight j && decide (j ≠ idx)) q : Int) ≤
          (S'.heap q).isBeingChunked ∧
        ((S.heap q).isBeingChunked = S.chunksInFlight cfg flight q →
          (S'.heap q).isBeingChunked =
            S'.chunksInFlight cfg (fun j => flight j && decide (j ≠ idx)) q) := by
    intro q hq
    have hmem := (reached_sublist batch nextTokenIds).subset hq
    have hcounted := h.counted q
    have hq' := hchunks q
    rw [hibc q hq]
    rcases hcases with ⟨hown, hextend⟩ | ⟨hrun, _, hdecode, _⟩
    · have hreqs : (S.stages idx).ownReqs = batch.reqs := by rw [Stage.ownReqs, hown]
      simp only [countOf, hextend, Bool.false_eq_true, if_false, countedDown]
      by_cases hchunk : (S.stages idx).beingChunkedReq = some q
      · rw [if_pos ⟨hchunk, hreqs ▸ hmem⟩] at hq'
        split <;> omega
      · have hnone : S.chunksInFlight cfg flight q = 0 := by
          refine List.countP_eq_zero.mpr fun j hj => ?_
          simp only [Bool.and_eq_true, decide_eq_true_eq, not_and]
          intro hflies hchunk' _
          have hne : j ≠ idx := by
            rintro rfl
            exact hchunk hchunk'
          have hsettled : q ∈ (S.stages idx).settled := by
            rw [Stage.settled, hreqs]
            exact List.mem_append_right _ (List.mem_filter.mpr ⟨hmem, by simpa using hchunk⟩)
          have hyoung := h.order j (List.mem_range.mp hj) idx hidx q hchunk' hsettled
          have hold := holdest j (List.mem_range.mp hj) hflies hne
          omega
        split <;> omega
    · have hnil : (S.stages idx).ownReqs = [] :=
        Stage.ownReqs_eq_nil fun b hb => by rw [hrun] at hb; simp at hb
      rw [if_neg (by simp [hnil])] at hq'
      simp only [countOf, hdecode, if_true, id_eq]
      omega
  have hnone : ∀ q ∉ batch.reqs,
      ¬ ((S.stages idx).beingChunkedReq = some q ∧ q ∈ (S.stages idx).ownReqs) := by
    rintro q hq ⟨_, hmem⟩
    rcases hcases with ⟨hown, _⟩ | ⟨hrun, _⟩
    · rw [Stage.ownReqs, hown] at hmem
      exact hq hmem
    · rw [Stage.ownReqs_eq_nil fun b hb => by rw [hrun] at hb; simp at hb] at hmem
      simp at hmem
  refine ⟨⟨fun j hj q hq => ?_, fun q => ?_, fun hcomplete q => ?_⟩, ?_, fun j hj => ?_,
    fun j hj q hq => ?_, fun j hj f hf q hq hmem => ?_⟩
  · rw [hframe.2.2]
    exact h.fresh j hj q ((hstages j).2.2 ▸ hq)
  · by_cases hq : q ∈ reached batch nextTokenIds
    · exact (hreached q hq).1
    · have hcounted := h.counted q
      have hq' := hchunks q
      rw [hother q hq]
      omega
  · by_cases hq : q ∈ reached batch nextTokenIds
    · exact (hreached q hq).2 (h.exact hcomplete q)
    · have hq' := hchunks q
      rw [if_neg (hnone q (reached_eq (hall hcomplete) ▸ hq))] at hq'
      rw [hother q hq, h.exact hcomplete q]
      omega
  · rw [hplaces, hframe.2.2]
    exact h.once
  · obtain ⟨_, _, _, rfl⟩ := hothers
    rcases eq_or_ne j idx with rfl | hne
    · simp only [Function.update_self]
      exact (h.stages j hj).modifyLast (fun _ => rfl) fun _ => rfl
    · simpa [hne] using h.stages j hj
  · rw [(hprocessed q).ppIdx]
    exact h.ppIdx j hj q ((hstages j).2.2 ▸ hq)
  · exact h.order j hj f hf q ((hstages j).2.2 ▸ hq) ((hstages f).1 ▸ hmem)

/-- A micro-batch without a batch has no result outstanding. -/
theorem Placed.idle (h : Placed complete cfg i flight S) (hidx : idx < cfg.ppSize)
    (hlast : (S.stages idx).last = none) :
    Placed complete cfg i (fun j => flight j && decide (j ≠ idx)) S := by
  have hown : (S.stages idx).ownReqs = [] := by
    refine Stage.ownReqs_eq_nil fun b hb => ?_
    rw [Stage.last, hb] at hlast
    simp at hlast
  refine ⟨h.toChunksPlaced.shift h.fresh fun q => ?_, h.once, h.stages, h.ppIdx, h.order⟩
  unfold chunksInFlight
  congr 2
  refine List.countP_congr fun j _ => ?_
  rcases eq_or_ne j idx with rfl | hne
  · simp [hown]
  · simp [hne]

/-- The results outstanding on a rank `lag` steps behind the last one. -/
def flying (ppSize lag i : Nat) (j : Nat) : Bool := decide (turnsAgo ppSize i j < lag)

/-- The result of the micro-batch whose turn it is has arrived. -/
theorem not_flying_self {p r : Nat} (hr : r < p) (i : Nat) : flying p (p - 1 - r) i i = false := by
  simp only [flying, turnsAgo_self, decide_eq_false_iff_not]
  omega

theorem arriving_eq {p r i : Nat} (hr : r < p) (hi : i < p) :
    (r + i + 1) % p = if r + i + 1 < p then r + i + 1 else r + i + 1 - p := by
  split
  next h => exact Nat.mod_eq_of_lt h
  next h => rw [Nat.mod_eq_sub_mod (by omega), Nat.mod_eq_of_lt (by omega)]

/-- A rank processes the result of the batch it dispatched `p - 1 - r` steps before. -/
theorem turnsAgo_arriving {p r i : Nat} (hr : r < p) (hi : i < p) :
    turnsAgo p ((i + 1) % p) ((r + i + 1) % p) = p - 1 - r := by
  have hidx := arriving_eq hr hi
  have hlt : (r + i + 1) % p < p := Nat.mod_lt _ (by omega)
  generalize (r + i + 1) % p = idx at hidx hlt ⊢
  by_cases hne : idx = i
  · rw [hne, turnsAgo_succ_self hi]
    split at hidx <;> omega
  · rw [turnsAgo_succ hi hlt hne]
    unfold turnsAgo
    split at hidx <;> split <;> omega

/-- The index whose result arrives at the end of the turn of `i` on a rank. -/
theorem flying_next {p r i : Nat} (hr : r < p) (hi : i < p) :
    (decide ((r + i + 1) % p = i) || flying p (p - 1 - r) i ((r + i + 1) % p)) = true ∧
      (∀ j < p, (decide (j = i) || flying p (p - 1 - r) i j) = true → j ≠ (r + i + 1) % p →
        turnsAgo p ((i + 1) % p) j < turnsAgo p ((i + 1) % p) ((r + i + 1) % p)) ∧
      ∀ j < p, ((decide (j = i) || flying p (p - 1 - r) i j) && decide (j ≠ (r + i + 1) % p)) =
        flying p (p - 1 - r) ((i + 1) % p) j := by
  have hlt : (r + i + 1) % p < p := Nat.mod_lt _ (by omega)
  have hage := turnsAgo_arriving hr hi
  generalize (r + i + 1) % p = idx at hlt hage ⊢
  have hself := turnsAgo_succ_self hi
  have hothers : ∀ j < p, turnsAgo p ((i + 1) % p) j = p - 1 - r → j = idx := by
    intro j hj heq
    rw [← hage] at heq
    rw [succ_mod_eq hi] at heq
    unfold turnsAgo at heq
    split at heq <;> split at heq <;> split at heq <;> omega
  have hbusy : ∀ j < p, (decide (j = i) || flying p (p - 1 - r) i j) = true ↔
      turnsAgo p ((i + 1) % p) j ≤ p - 1 - r := by
    intro j hj
    rcases eq_or_ne j i with rfl | hne
    · simp [hself]
    · rw [turnsAgo_succ hi hj hne, flying, Nat.add_one_le_iff]
      simp [hne]
  refine ⟨(hbusy idx hlt).mpr hage.le, fun j hj hfly hne => ?_, fun j hj => ?_⟩
  · have hle := (hbusy j hj).mp hfly
    have hdiff : turnsAgo p ((i + 1) % p) j ≠ p - 1 - r := fun heq => hne (hothers j hj heq)
    omega
  · rw [Bool.eq_iff_iff, Bool.and_eq_true, hbusy j hj, flying, decide_eq_true_eq,
      decide_eq_true_eq]
    constructor
    · rintro ⟨hle, hne⟩
      have hdiff : turnsAgo p ((i + 1) % p) j ≠ p - 1 - r := fun heq => hne (hothers j hj heq)
      omega
    · intro hlt'
      refine ⟨hlt'.le, ?_⟩
      rintro rfl
      omega

end Sched

end FastPP
