import FastPP.PlacementStep

namespace FastPP

namespace Sched

variable {M : Type} {cfg : Config} {complete : Prop} {i : Nat} {flight : Nat → Bool}
  {S S' : Sched M}

/-- The places after the turn of `i`. -/
theorem places_count_next (hi : i < cfg.ppSize) (hstages : ∀ j, j ≠ i → S'.stages j = S.stages j)
    (q : Nat) : (S'.places cfg ((i + 1) % cfg.ppSize)).count q =
      S'.waitingQueue.count q + (reqsOf S'.pendingBatch).count q +
        (S'.stages i).settled.count q + (S'.stages i).beingChunkedReq.toList.count q +
          (S.others cfg i).count q := by
  rw [places_count cfg S' (Nat.mod_lt _ (by omega)) hi q, prev_succ hi, others_congr cfg hstages]
  omega

/-- The turn of `i` ends with a batch in flight there. -/
theorem InTurn.next (hi : i < cfg.ppSize) (h : InTurn complete cfg i flight S)
    (hnext : S'.nextReq = S.nextReq) (hstages : ∀ j, j ≠ i → S'.stages j = S.stages j)
    (hcount : ∀ q, (S'.places cfg ((i + 1) % cfg.ppSize)).count q ≤ (S.turnPlaces cfg i).count q)
    (hwell : (S'.stages i).WellPlaced cfg.ppSize)
    (hcounted : ∀ q, (S'.heap q).isBeingChunked = (S.heap q).isBeingChunked +
      if (S'.stages i).beingChunkedReq = some q ∧ q ∈ (S'.stages i).ownReqs then 1 else 0)
    (hidx : ∀ q, (S'.stages i).beingChunkedReq = some q → (S'.heap q).ppIdx = some i)
    (hother : ∀ j < cfg.ppSize, j ≠ i → ∀ q, (S.stages j).beingChunkedReq = some q →
      (S'.heap q).ppIdx ≠ some j) :
    Placed complete cfg ((i + 1) % cfg.ppSize) (fun j => decide (j = i) || flight j) S' := by
  have hplaces := places_count_next hi hstages
  have honce : ListedOnce S'.nextReq (S'.places cfg ((i + 1) % cfg.ppSize)) := by
    rw [hnext]
    exact h.once.of_count_le hcount
  have hlisted : ∀ q, (S'.stages i).beingChunkedReq = some q →
      0 < (S'.stages i).beingChunkedReq.toList.count q := fun q hq => by
    simp [hq]
  have hfree : ∀ q, (S'.stages i).beingChunkedReq = some q → ∀ f < cfg.ppSize,
      q ∉ (S'.stages f).settled := by
    intro q hq f hf hmem
    have hle := honce.le_one q
    have hpos := hlisted q hq
    rw [hplaces] at hle
    rcases eq_or_ne f i with rfl | hne
    · have := List.count_pos_iff.mpr hmem
      omega
    · have := List.count_pos_iff.mpr (mem_others hf hne (hstages f hne ▸ hmem))
      omega
  refine ⟨h.toChunksPlaced.shift (fun j hj q hq => ?_) fun q => ?_, honce, fun j hj => ?_,
    fun j hj q hq => ?_, fun j hj f hf q hq hmem => ?_⟩
  · rcases eq_or_ne j i with rfl | hne
    · refine honce.lt (List.count_pos_iff.mp ?_)
      have hpos := hlisted q hq
      rw [hplaces]
      omega
    · rw [hnext]
      exact h.fresh j hj q (hstages j hne ▸ hq)
  · have hsplit := chunksInFlight_split S' (fun j => decide (j = i) || flight j) q hi
    have hsplit' := chunksInFlight_split S flight q hi
    have hrest : ((List.range cfg.ppSize).filter (· ≠ i)).countP _ = _ :=
      chunksInFlight_congr q flight (fun j => decide (j = i) || flight j) hstages
        fun j _ hne => by simp [hne]
    rw [h.landed] at hsplit'
    simp only [decide_true, Bool.true_or, true_and] at hsplit
    simp only [Bool.false_eq_true, false_and, if_false] at hsplit'
    rw [hcounted q, hsplit, hsplit', hrest]
    push_cast
    omega
  · rcases eq_or_ne j i with rfl | hne
    · exact hwell
    · exact hstages j hne ▸ h.stages j hj hne
  · rw [prev_succ hi]
    rcases eq_or_ne j i with rfl | hne
    · simp [hidx q hq]
    · simp [hne, hother j hj hne q (hstages j hne ▸ hq)]
  · rcases eq_or_ne j i with rfl | hne
    · exact absurd hmem (hfree q hq f hf)
    · rw [turnsAgo_succ hi hj hne]
      rcases eq_or_ne f i with rfl | hne'
      · rw [turnsAgo_succ_self hf]
        omega
      · rw [turnsAgo_succ hi hf hne']
        have := h.order j hj hne f hf hne' q (hstages j hne ▸ hq) (hstages f hne' ▸ hmem)
        omega

theorem InTurn.fetched (hi : i < cfg.ppSize) (h : InTurn complete cfg i flight S) :
    S.fetched cfg = (S.stages (cfg.prev i)).beingChunkedReq := by
  have hstage : S.stage = S.stages i := by rw [stage, h.cur]
  unfold Sched.fetched
  rw [hstage, h.cur]
  split
  next hone => rw [(prev_self hi).mpr hone]
  next hne =>
    have hnone : (S.stages i).beingChunkedReq = none := by
      cases hb : (S.stages i).beingChunkedReq with
      | none => rfl
      | some q => exact absurd (h.moved q hb).1 hne
    rw [hnone, Option.or_none]
    rfl

theorem setLastBatch_stages (S : Sched M) (batch : Option ScheduleBatch) :
    (∀ j, j ≠ S.cur → (S.setLastBatch batch).stages j = S.stages j) ∧
      (S.setLastBatch batch).stages S.cur = { S.stage with
        lastBatch := match batch with
          | none => .idle
          | some batch => if batch.forwardMode.isDecode then .running else .own batch } :=
  ⟨fun _ hj => Function.update_of_ne hj _ _, Function.update_self ..⟩

/-- The requests of the new prefill batch have left their earlier places. -/
theorem Prefilled.count_le (hi : i < cfg.ppSize) (h : InTurn complete cfg i flight S)
    {batch : ScheduleBatch} {list : List Nat} (hp : Prefilled cfg S S' batch list) (q : Nat) :
    S'.waitingQueue.count q + (reqsOf S'.pendingBatch).count q +
      (reqsOf S'.stage.runningBatch).count q + batch.reqs.count q + (S.others cfg i).count q ≤
      (S.turnPlaces cfg i).count q := by
  obtain ⟨queue, added, hperm, hsub, hlist, hwaiting⟩ := hp.waiting
  have hrun : (reqsOf S'.stage.runningBatch).count q + batch.reqs.count q ≤
      (reqsOf (S.stages i).runningBatch).count q + list.count q := by
    have hstage : S.stage = S.stages i := by rw [stage, h.cur]
    rcases hp.reqs with ⟨hreqs, hsame⟩ | ⟨hreqs, hnone⟩
    · rw [hreqs, hsame, hstage]
    · have hle := (List.filter_sublist (p := fun q => !(S.heap q).finished)
        (l := reqsOf (S.stages i).runningBatch)).count_le q
      rw [hreqs, hnone, List.count_append, unfinishedRunning, hstage]
      simp only [reqsOf, Option.map_none, Option.getD_none, List.count_nil] at hle ⊢
      omega
  have hwait : S'.waitingQueue.count q + list.count q ≤ S.waitingQueue.count q +
      (S.stages (cfg.prev i)).beingChunkedReq.toList.count q := by
    rw [hwaiting, ← hperm.count_eq q, ← h.fetched hi]
    by_cases hq : q ∈ list
    · have hzero : (queue.filter (· ∉ list)).count q = 0 :=
        List.count_eq_zero.mpr fun hmem => by simp [hq] at hmem
      have hadded := hsub.count_le q
      have hsplit := congrArg (List.count q) hlist
      rw [List.count_append] at hsplit
      omega
    · rw [List.count_eq_zero.mpr hq]
      have := (List.filter_sublist (p := fun q => decide (q ∉ list)) (l := queue)).count_le q
      omega
  simp only [turnPlaces, List.count_append, hp.pendingBatch]
  omega

/-- What the dispatch of a new prefill batch leaves in the stages. -/
theorem Prefilled.dispatched (h : InTurn complete cfg i flight S) {batch : ScheduleBatch}
    {list : List Nat}
    (hp : Prefilled cfg S S' batch list) :
    (S'.setLastBatch (some batch)).stages i = { S'.stage with lastBatch := .own batch } ∧
      ∀ j, j ≠ i → (S'.setLastBatch (some batch)).stages j = S.stages j := by
  have hcur : S'.cur = i := by rw [Sched.cur, hp.curPP]; exact h.cur
  obtain ⟨hothers, hstage⟩ := setLastBatch_stages S' (some batch)
  rw [hcur] at hothers hstage
  simp only [hp.isDecode, Bool.false_eq_true, if_false] at hstage
  exact ⟨hstage, fun j hj => (hothers j hj).trans (hp.stages j (h.cur ▸ hj))⟩

theorem Prefilled.chunk_mem {batch : ScheduleBatch} {list : List Nat}
    (hp : Prefilled cfg S S' batch list) {q : Nat} (hq : S'.stage.beingChunkedReq = some q) :
    q ∈ batch.reqs := by
  have hlisted := hp.chunk q hq
  rcases hp.reqs with ⟨hreqs, _⟩ | ⟨hreqs, _⟩ <;> rw [hreqs] <;> simp [hlisted]

theorem Prefilled.places_le (hi : i < cfg.ppSize) (h : InTurn complete cfg i flight S)
    {batch : ScheduleBatch} {list : List Nat} (hp : Prefilled cfg S S' batch list) (q : Nat) :
    ((S'.setLastBatch (some batch)).places cfg ((i + 1) % cfg.ppSize)).count q ≤
      (S.turnPlaces cfg i).count q := by
  obtain ⟨hstage, hothers⟩ := hp.dispatched h
  have hle := hp.count_le hi h q
  have hbatch : (batch.reqs.filter fun q => S'.stage.beingChunkedReq != some q).count q +
      S'.stage.beingChunkedReq.toList.count q ≤ batch.reqs.count q := by
    have hfil := (List.filter_sublist (p := fun q => S'.stage.beingChunkedReq != some q)
      (l := batch.reqs)).count_le q
    cases hb : S'.stage.beingChunkedReq with
    | none => simp
    | some p =>
      rcases eq_or_ne p q with rfl | hne
      · have hpos := List.count_pos_iff.mpr (hp.chunk_mem hb)
        have hzero : (batch.reqs.filter fun q => some p != some q).count p = 0 :=
          List.count_eq_zero.mpr fun hmem => by simp at hmem
        rw [hzero, Option.toList_some, List.count_singleton_self]
        omega
      · rw [hb] at hfil
        have : [p].count q = 0 := List.count_eq_zero.mpr (by simpa using hne.symm)
        simp only [Option.toList_some, this]
        omega
  rw [places_count_next hi hothers, hstage, Stage.settled, List.count_append]
  simp only [Stage.ownReqs]
  change S'.waitingQueue.count q + (reqsOf S'.pendingBatch).count q + _ + _ + _ ≤ _
  omega

/-- The new prefill batch takes its place. -/
theorem InTurn.prefill (hi : i < cfg.ppSize) (h : InTurn complete cfg i flight S)
    {batch : ScheduleBatch} {list : List Nat} (hp : Prefilled cfg S S' batch list) :
    Placed complete cfg ((i + 1) % cfg.ppSize) (fun j => decide (j = i) || flight j)
      (S'.setLastBatch (some batch)) := by
  obtain ⟨hstage, hothers⟩ := hp.dispatched h
  refine h.next hi hp.nextReq hothers (hp.places_le hi h) ⟨?_, ?_, ?_⟩ (fun q => ?_)
    (fun q hq => ?_) (fun j hj hne q hq => ?_)
  · intro b hb
    rw [hstage] at hb
    cases hb
    refine ⟨hp.mode, List.nodup_iff_count_le_one.mpr fun q => ?_⟩
    have := hp.count_le hi h q
    have := h.once.le_one q
    omega
  · intro hb
    rw [hstage] at hb
    simp at hb
  · intro q hq
    rw [hstage] at hq ⊢
    exact Or.inl (hp.chunk_mem hq)
  · have hibc : (S'.heap q).isBeingChunked = _ := (hp.heap q).isBeingChunked
    have hiff : S'.stage.beingChunkedReq = some q ∧ q ∈ batch.reqs ↔
        S'.stage.beingChunkedReq = some q := and_iff_left_of_imp hp.chunk_mem
    rw [hstage]
    simp only [Stage.ownReqs, hiff]
    refine hibc.trans ?_
    simp only [listed]
    split <;> simp
  · rw [hstage] at hq
    have hidx : (S'.heap q).ppIdx = _ := (hp.heap q).ppIdx
    rw [listed, if_pos (hp.chunk q hq), h.cur] at hidx
    exact hidx
  · have hidx : (S'.heap q).ppIdx = _ := (hp.heap q).ppIdx
    change (S'.heap q).ppIdx ≠ some j
    rw [hidx]
    simp only [listed]
    split
    next => rw [h.cur]; simpa using hne.symm
    next hmem =>
      rw [Ne, h.ppIdx j hj hne q hq]
      rintro rfl
      obtain ⟨_, added, _, _, hlist, _⟩ := hp.waiting
      rw [h.fetched hi, hq] at hlist
      exact hmem (by simp [hlist])

/-- The stage that decodes keeps its chunked request, which with several stages is none. -/
theorem NotPrefilled.stage_eq (hi : i < cfg.ppSize) (h : InTurn complete cfg i flight S)
    (hn : NotPrefilled cfg S S')
    (hfull : cfg.ppSize = 1 ∨ (S.stages (cfg.prev i)).beingChunkedReq = none) :
    S'.stage = S.stages i := by
  have hstage : S.stage = S.stages i := by rw [Sched.stage, h.cur]
  rw [hn.stage, h.fetched hi, hstage]
  rcases hfull with hone | hnone
  · rw [(prev_self hi).mpr hone]
  · have hmoved : (S.stages i).beingChunkedReq = none := by
      cases hb : (S.stages i).beingChunkedReq with
      | none => rfl
      | some q =>
        have hone := (h.moved q hb).1
        rw [(prev_self hi).mpr hone, hb] at hnone
        simp at hnone
    rw [hnone, ← hmoved]

/-- What the dispatch of the running batch, or of nothing, leaves in the stages. -/
theorem Decoded.dispatched (h : InTurn complete cfg i flight S) (hn : NotPrefilled cfg S S')
    {S'' : Sched M} {out : Option ScheduleBatch} (hd : Decoded S' S'' out) :
    (S''.setLastBatch out).stages i =
        { S''.stage with lastBatch := if out.isSome then .running else .idle } ∧
      ∀ j, j ≠ i → (S''.setLastBatch out).stages j = S.stages j := by
  have hcur' : S'.cur = i := hn.toFrame.cur.trans h.cur
  have hcur : S''.cur = i := hd.toFrame.cur.trans hcur'
  obtain ⟨hothers, hstage⟩ := setLastBatch_stages S'' out
  rw [hcur] at hothers hstage
  refine ⟨?_, fun j hj =>
    (hothers j hj).trans ((hn.toFrame.trans hd.toFrame).stages j (h.cur ▸ hj))⟩
  rw [hstage]
  cases hout : out with
  | none => rfl
  | some decode =>
    simp only [(hd.mode decode hout).1, ForwardMode.isDecode, if_true, Option.isSome_some]

theorem Decoded.places_le (hi : i < cfg.ppSize) (h : InTurn complete cfg i flight S)
    (hn : NotPrefilled cfg S S') {S'' : Sched M} {out : Option ScheduleBatch}
    (hd : Decoded S' S'' out)
    (hfull : cfg.ppSize = 1 ∨ (S.stages (cfg.prev i)).beingChunkedReq = none) (q : Nat) :
    ((S''.setLastBatch out).places cfg ((i + 1) % cfg.ppSize)).count q ≤
      (S.turnPlaces cfg i).count q := by
  have hstage' := hn.stage_eq hi h hfull
  have hchunk : S''.stage.beingChunkedReq = (S.stages i).beingChunkedReq := by
    rw [hd.beingChunkedReq, hstage']
  obtain ⟨hstage, hothers⟩ := hd.dispatched h hn
  obtain ⟨retracted, hwaiting, hperm⟩ := hd.retracted
  have hown : ((S''.setLastBatch out).stages i).ownReqs = [] := by
    refine Stage.ownReqs_eq_nil fun b hb => ?_
    rw [hstage] at hb
    cases out <;> simp at hb
  have hrun : ((S''.setLastBatch out).stages i).runningBatch = out := by
    rw [hstage]
    exact hd.running
  have hle := hperm.count_eq q
  have hsub := (List.filter_sublist (p := fun q => !(S'.heap q).finished)
    (l := reqsOf (S.stages i).runningBatch)).count_le q
  have hcarried : (S.stages i).beingChunkedReq.toList.count q ≤
      (S.stages (cfg.prev i)).beingChunkedReq.toList.count q := by
    cases hb : (S.stages i).beingChunkedReq with
    | none => simp
    | some p =>
      have hone := (h.moved p hb).1
      rw [(prev_self hi).mpr hone, hb]
  rw [unfinishedRunning, hstage', List.count_append] at hle
  rw [places_count_next hi hothers, Stage.settled, hown, hrun, hstage]
  simp only [List.filter_nil, List.append_nil, turnPlaces, List.count_append, hchunk]
  change S''.waitingQueue.count q + (reqsOf S''.pendingBatch).count q + _ + _ + _ ≤ _
  rw [hwaiting, List.count_append, hn.waitingQueue.count_eq q, hd.pendingBatch, hn.pendingBatch]
  omega

/-- Without a new prefill batch the running one decodes. -/
theorem InTurn.decode (hi : i < cfg.ppSize) (h : InTurn complete cfg i flight S) {S'' : Sched M}
    {out : Option ScheduleBatch} (hn : NotPrefilled cfg S S') (hd : Decoded S' S'' out)
    (hfull : cfg.ppSize = 1 ∨ (S.stages (cfg.prev i)).beingChunkedReq = none) :
    Placed complete cfg ((i + 1) % cfg.ppSize) (fun j => decide (j = i) || flight j)
      (S''.setLastBatch out) := by
  have hchunk : S''.stage.beingChunkedReq = (S.stages i).beingChunkedReq := by
    rw [hd.beingChunkedReq, hn.stage_eq hi h hfull]
  obtain ⟨hstage, hothers⟩ := hd.dispatched h hn
  have hframe := hn.toFrame.trans hd.toFrame
  have hnotOwn : ∀ b, ((S''.setLastBatch out).stages i).lastBatch ≠ .own b := by
    intro b hb
    rw [hstage] at hb
    cases out <;> simp at hb
  refine h.next hi hframe.nextReq hothers (hd.places_le hi h hn hfull)
    ⟨fun b hb => ?_, fun hb => ?_, fun q hq => ?_⟩ (fun q => ?_) (fun q hq => ?_)
    (fun j hj hne q hq => ?_)
  · exact absurd hb (hnotOwn b)
  · cases hout : out with
    | none =>
      rw [hstage, hout] at hb
      simp at hb
    | some decode =>
      have hmode := hd.mode decode hout
      subst hout
      rw [hstage]
      exact ⟨decode, hd.running, hmode⟩
  · rw [hstage] at hq
    exact Or.inr (h.moved q (hchunk ▸ hq)).1
  · rw [Stage.ownReqs_eq_nil hnotOwn, if_neg (by simp), add_zero]
    exact (hframe.heap q).isBeingChunked
  · rw [hstage] at hq
    exact (hframe.heap q).ppIdx.trans (h.moved q (hchunk ▸ hq)).2
  · change (S''.heap q).ppIdx ≠ some j
    rw [(hframe.heap q).ppIdx, Ne, h.ppIdx j hj hne q hq]
    rintro rfl
    rcases hfull with hone | hnone
    · omega
    · rw [hq] at hnone
      simp at hnone

end Sched

end FastPP
