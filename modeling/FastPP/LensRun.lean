import FastPP.DueTokens
import FastPP.Arrivals

namespace FastPP

namespace Sched

variable {M : Type} {cfg : Config} {complete : Prop} {i j q : Nat} {flight : Nat → Bool}
  {S S' : Sched M}
  {places places' : List Nat} {count count' : Nat → Nat}

/-- `output_ids_len` of every request that has a place, or is not finished, is its count. -/
structure LensCounted (places : List Nat) (count : Nat → Nat) (S : Sched M) : Prop where
  lens : ∀ q, (q ∈ places ∨ (S.heap q).finished = false) → (S.heap q).outputIdsLen = count q
  unhandled : ∀ q, S.nextReq ≤ q → (S.heap q).outputIdsLen = 0

theorem LensCounted.congr (h : LensCounted places count S) (hcount : ∀ q, count' q = count q) :
    LensCounted places count' S :=
  ⟨fun q hq => (h.lens q hq).trans (hcount q).symm, h.unhandled⟩

/-- Places are left and requests finish, but no `output_ids_len` moves. -/
theorem LensCounted.mono (h : LensCounted places count S) (hlens : LensKept S S')
    (hfinished : FinishKept S S') (hplaces : ∀ q ∈ places', q ∈ places)
    (hnext : S'.nextReq = S.nextReq) : LensCounted places' count S' := by
  refine ⟨fun q hq => (hlens q).trans (h.lens q ?_), fun q hq => ?_⟩
  · rcases hq with hq | hq
    · exact Or.inl (hplaces q hq)
    · exact Or.inr (hfinished.unfinished hq)
  · rw [hnext] at hq
    exact (hlens q).trans (h.unhandled q hq)

/-- A handled request had its place before messages arrived. -/
theorem Received.mem_places (hr : Received cfg S S') (hq : q ∈ S'.places cfg i)
    (hlt : q < S.nextReq) : q ∈ S.places cfg i := by
  have hstages : S'.places cfg i = S'.waitingQueue ++ (reqsOf S.pendingBatch ++
      ((S.stages i).settled ++ (S.others cfg i ++
        (S.stages (cfg.prev i)).beingChunkedReq.toList))) := by
    rw [Sched.places, hr.pendingBatch, hr.stages, others_congr cfg fun j _ => congrFun hr.stages j]
  rw [hstages] at hq
  rcases List.mem_append.mp hq with hq | hq
  · rcases List.mem_append.mp (hr.waitingQueue.subset hq) with hq | hq
    · exact List.mem_append_left _ hq
    · have hnew := (List.mem_range'_1.mp hq).1
      omega
  · exact List.mem_append_right _ hq

/-- A new request has no output tokens. -/
theorem LensCounted.receive (h : LensCounted (S.places cfg i) count S)
    (hcount : ∀ q, S.nextReq ≤ q → count q = 0) (hr : Received cfg S S') :
    LensCounted (S'.places cfg i) count S' := by
  have hnew : ∀ q, S.nextReq ≤ q → (S'.heap q).outputIdsLen = 0 := by
    intro q hq
    rcases hr.heap q with ⟨_, hS⟩ | ⟨_, input, _, hS⟩
    · rw [hS]
      exact h.unhandled q hq
    · rw [hS]
      unfold handledReq
      dsimp only
      split
      next => rfl
      next => rfl
  refine ⟨fun q hq => ?_, fun q hq => hnew q (hr.nextReq.trans hq)⟩
  by_cases hlt : q < S.nextReq
  · rcases hr.heap q with ⟨_, hS⟩ | ⟨hle, _⟩
    · rw [hS] at hq ⊢
      refine h.lens q ?_
      rcases hq with hq | hq
      · exact Or.inl (hr.mem_places hq hlt)
      · exact Or.inr hq
    · omega
  · rw [hnew q (by omega), hcount q (by omega)]

/-- A request of the last batch is settled there, unless its chunk goes on. -/
theorem Placed.mem_settled (hi : i < cfg.ppSize) (h : Placed complete cfg i flight S)
    (hj : j < cfg.ppSize) (hq : q ∈ reqsOf (S.stages j).last)
    (hends : ¬ ((S.stages j).beingChunkedReq = some q ∧ q ∈ (S.stages j).ownReqs)) :
    q ∈ (S.stages j).settled := by
  cases hlast : (S.stages j).last with
  | none => simp [hlast, reqsOf] at hq
  | some b =>
    have hmem : q ∈ b.reqs := by simpa [hlast, reqsOf] using hq
    rcases (h.last_cases hi hj hlast).2 with ⟨hown, _⟩ | ⟨_, hsome, _⟩
    · have hreqs : (S.stages j).ownReqs = b.reqs := by rw [Stage.ownReqs, hown]
      refine List.mem_append_right _ (List.mem_filter.mpr ⟨hreqs ▸ hmem, ?_⟩)
      simpa using fun hchunk => hends ⟨hchunk, hreqs ▸ hmem⟩
    · refine List.mem_append_left _ ?_
      simpa [reqsOf, hsome] using hmem

/-- Only requests of the last batch whose chunks do not go on count at the merge. -/
theorem Placed.counting_ends (hi : i < cfg.ppSize) (h : Placed complete cfg i flight S)
    (hcur : S.cur = i)
    (hq : q ∈ S.counting) : q ∈ reqsOf (S.stages i).last ∧
      ¬ ((S.stages i).beingChunkedReq = some q ∧ q ∈ (S.stages i).ownReqs) := by
  have hstage : S.stage = S.stages i := by rw [stage, hcur]
  unfold counting at hq
  rw [hstage] at hq
  cases hlast : (S.stages i).last with
  | none => simp [hlast] at hq
  | some b =>
    rw [hlast] at hq
    dsimp only at hq
    rcases (h.last_cases hi hi hlast).2 with ⟨hown, _⟩ | ⟨hrun, hsome, hdecode, _⟩
    · rw [if_pos ((h.stages i hi).own b hown).1] at hq
      have hmem := List.mem_filter.mp (joining_sublist.subset hq)
      rw [hstage] at hmem
      exact ⟨by simpa [reqsOf] using hmem.1, fun hgoes => by simp [hgoes.1] at hmem⟩
    · have hnil : (S.stages i).ownReqs = [] :=
        Stage.ownReqs_eq_nil fun b hb => by rw [hrun] at hb; simp at hb
      obtain ⟨b', hb', hmode, _⟩ := (h.stages i hi).aliased hrun
      obtain rfl : b = b' := Option.some.inj (hsome.symm.trans hb')
      rw [if_neg (by simp [hmode, ForwardMode.isExtend])] at hq
      exact ⟨by simpa [reqsOf] using hq, by simp [hnil]⟩

variable [MemoryPools M]

/-- A finished request of the last batch that does not join the running ones has lost its
place. -/
theorem Placed.joins (hi : i < cfg.ppSize) (h : Placed complete cfg i flight S) (hcur : S.cur = i)
    (hm : S.mergeLastBatch = some S') {last : ScheduleBatch}
    (hown : (S.stages i).lastBatch = .own last) (hq : q ∈ last.reqs)
    (hends : (S.stages i).beingChunkedReq ≠ some q) (hplace : q ∈ S'.turnPlaces cfg i) :
    q ∈ S.joining last := by
  have hstage : S.stage = S.stages i := by rw [stage, hcur]
  obtain ⟨hframe, hwaiting, hpending, _, _⟩ := h.merge_moved hi hcur hm
  have hcarried := h.merge_carried hi hcur hm q
  have hstage' : S'.stages i = S'.stage := by rw [stage, hframe.cur, hcur]
  have hone := h.once.le_one q
  have hpos := List.count_pos_iff.mpr hplace
  have hsettled : 0 < ((S.stages i).ownReqs.filter
      fun q => (S.stages i).beingChunkedReq != some q).count q := by
    refine List.count_pos_iff.mpr (List.mem_filter.mpr ⟨?_, by simpa using hends⟩)
    simpa [Stage.ownReqs, hown] using hq
  by_contra hnot
  have hmerged : reqsOf S'.stage.runningBatch =
      reqsOf S.stage.runningBatch ++ S.joining last := by
    rcases h.merge_cases hi hcur hm with ⟨last', hown', hmerged⟩ | ⟨hnil, _⟩
    · obtain rfl : last = last' := by simpa [hown] using hown'
      exact hmerged.running
    · simp [Stage.ownReqs, hown] at hnil
      simp [hnil] at hq
  have hjoin := List.count_eq_zero.mpr hnot
  rw [hstage] at hmerged
  simp only [Sched.places, turnPlaces, Stage.settled, List.count_append, hwaiting, hpending,
    hstage', hmerged, hjoin,
    others_congr cfg fun j hj => hframe.stages j (hcur ▸ hj)] at hone hpos
  omega

/-- The last batch counts its requests that still have a place, or are not finished. -/
theorem Placed.ends_counting (hi : i < cfg.ppSize) (h : Placed complete cfg i flight S)
    (hcur : S.cur = i)
    (hm : S.mergeLastBatch = some S') (hlast : q ∈ reqsOf (S.stages i).last)
    (hends : ¬ ((S.stages i).beingChunkedReq = some q ∧ q ∈ (S.stages i).ownReqs))
    (hq : q ∈ S'.turnPlaces cfg i ∨ (S.heap q).finished = false) : q ∈ S.counting := by
  have hstage : S.stage = S.stages i := by rw [stage, hcur]
  unfold counting
  rw [hstage]
  cases hb : (S.stages i).last with
  | none => simp [hb, reqsOf] at hlast
  | some b =>
    have hmem : q ∈ b.reqs := by simpa [hb, reqsOf] using hlast
    dsimp only
    rcases (h.last_cases hi hi hb).2 with ⟨hown, _⟩ | ⟨hrun, hsome, _⟩
    · rw [if_pos ((h.stages i hi).own b hown).1]
      have hchunk : (S.stages i).beingChunkedReq ≠ some q := fun hsome =>
        hends ⟨hsome, by simpa [Stage.ownReqs, hown] using hmem⟩
      rcases hq with hplace | hunfinished
      · exact h.joins hi hcur hm hown hmem hchunk hplace
      · unfold joining
        rw [hstage]
        split
        next => exact hmem
        next p hp =>
          refine List.mem_filter.mpr ⟨hmem, ?_⟩
          have hne : p ≠ q := fun heq => hchunk (heq ▸ hp)
          simp [ScheduleBatch.keeps, hunfinished, hne]
    · obtain ⟨b', hb', hmode, _⟩ := (h.stages i hi).aliased hrun
      obtain rfl : b = b' := Option.some.inj (hsome.symm.trans hb')
      rw [if_neg (by simp [hmode, ForwardMode.isExtend])]
      exact hmem

/-- At its turn a micro-batch counts the tokens of its last batch. -/
theorem LensCounted.merge (hi : i < cfg.ppSize) (h : Placed complete cfg i flight S)
    (hcur : S.cur = i)
    (hc : LensCounted (S.places cfg i) count S) (hm : S.mergeLastBatch = some S')
    (hcount : ∀ q, count' q = count q + if q ∈ reqsOf (S.stages i).last ∧
      ¬ ((S.stages i).beingChunkedReq = some q ∧ q ∈ (S.stages i).ownReqs) then 1 else 0) :
    LensCounted (S'.turnPlaces cfg i) count' S' := by
  obtain ⟨hframe, _, _, _, _⟩ := h.merge_moved hi hcur hm
  refine ⟨fun q hq => ?_, fun q hq => ?_⟩
  · rw [hframe.finished] at hq
    have hiff : q ∈ S.counting ↔ q ∈ reqsOf (S.stages i).last ∧
        ¬ ((S.stages i).beingChunkedReq = some q ∧ q ∈ (S.stages i).ownReqs) :=
      ⟨h.counting_ends hi hcur, fun hends => h.ends_counting hi hcur hm hends.1 hends.2 hq⟩
    have hbefore : q ∈ S.places cfg i ∨ (S.heap q).finished = false := by
      rcases hq with hq | hq
      · have hpos := List.count_pos_iff.mpr hq
        have hle := h.merge_places_le hi hcur hm q
        exact Or.inl (List.count_pos_iff.mp (by omega))
      · exact Or.inr hq
    rw [mergeLastBatch_len hm, hc.lens q hbefore, hcount q]
    simp only [hiff]
  · have hnot : q ∉ S.counting := fun hmem => by
      obtain ⟨hlast, hends⟩ := h.counting_ends hi hcur hmem
      have hplace : q ∈ S.places cfg i :=
        List.mem_append_right _ (List.mem_append_right _
          (List.mem_append_left _ (h.mem_settled hi hi hlast hends)))
      have hlt := h.once.lt hplace
      rw [hframe.nextReq] at hq
      omega
    rw [mergeLastBatch_len hm, if_neg hnot]
    exact hc.unhandled q (hframe.nextReq ▸ hq)

end Sched

/-- The micro-batch of step `d`, seen from step `n`. -/
theorem turnsAgo_mod {p n d : Nat} (hp : 0 < p) (hd : d < n) (hle : n ≤ d + p) :
    turnsAgo p (n % p) (d % p) = n - 1 - d := by
  obtain ⟨k, rfl⟩ := Nat.exists_eq_add_of_lt hd
  have hlt : d % p < p := Nat.mod_lt _ hp
  have hmod : (d + k + 1) % p = if d % p + k + 1 < p then d % p + k + 1 else d % p + k + 1 - p := by
    have hsplit : (d + (k + 1)) % p = (d % p + (k + 1)) % p := by simp
    rw [Nat.add_assoc, hsplit, ← Nat.add_assoc]
    split
    next hsmall => exact Nat.mod_eq_of_lt hsmall
    next hlarge => rw [Nat.mod_eq_sub_mod (by omega), Nat.mod_eq_of_lt (by omega)]
  rw [hmod]
  unfold turnsAgo
  split <;> split <;> omega

namespace Sched

variable {M : Type} [MemoryPools M] {cfg : Config} {complete : Prop} {S S' : Sched M}

section Scheduling

variable {i : Nat} {flight : Nat → Bool} {input : StepInput} {sample : Nat → Nat}
  {merged balanced prefilled decoded : Sched M} {newBatch out : Option ScheduleBatch}

omit [MemoryPools M] in
theorem Prefilled.results {batch : ScheduleBatch} {canRunList : List Nat}
    (h : Prefilled cfg S S' batch canRunList) (q : Nat) :
    (S'.heap q).outputIds = (S.heap q).outputIds ∧
      (S'.heap q).finished = (S.heap q).finished :=
  ⟨(h.heap q).outputIds, (h.heap q).finished⟩

/-- After the merge, scheduling leaves the results of all requests alone. -/
theorem SchedulePhases.results
    (p : SchedulePhases cfg input S merged balanced prefilled decoded newBatch out) (q : Nat) :
    (decoded.heap q).outputIds = (merged.heap q).outputIds ∧
      (decoded.heap q).finished = (merged.heap q).finished := by
  rw [← rebalanceIfEnabled_heap p.rebalance]
  have hprefilled : (prefilled.heap q).outputIds = (balanced.heap q).outputIds ∧
      (prefilled.heap q).finished = (balanced.heap q).finished := by
    rcases getNewBatchPrefill_spec p.prefill with ⟨_, hnot⟩ | ⟨_, _, _, _, _, _, hp⟩
    · exact ⟨(hnot.heap q).outputIds, (hnot.heap q).finished⟩
    · exact hp.results q
  have hdecoded : (decoded.heap q).outputIds = (prefilled.heap q).outputIds ∧
      (decoded.heap q).finished = (prefilled.heap q).finished := by
    rcases orDecode_spec p.decode with ⟨_, _, rfl⟩ | ⟨_, hdecoded⟩
    · exact ⟨rfl, rfl⟩
    · exact ⟨(hdecoded.heap q).outputIds, (hdecoded.heap q).finished⟩
  exact ⟨hdecoded.1.trans hprefilled.1, hdecoded.2.trans hprefilled.2⟩

theorem mergeLastBatch_frame (h : S.mergeLastBatch = some S') : Frame S S' := by
  rcases mergeLastBatch_spec h with ⟨_, _, _, hmerged⟩ | ⟨_, hquiet⟩
  · exact hmerged.toFrame
  · exact hquiet.toFrame

theorem SchedulePhases.nextReq
    (p : SchedulePhases cfg input S merged balanced prefilled decoded newBatch out) :
    decoded.nextReq = merged.nextReq := by
  have hall := (getNextBatchToRun_grown p.getNextBatchToRun).nextReq
  have hmerged := (mergeLastBatch_frame p.merge).nextReq
  rw [hall, hmerged]
  rfl

/-- After the merge no request gains a place. -/
theorem Turn.places_le {r n : Nat} (hr : r < cfg.ppSize) (hcount : S.curPP = .after cfg.ppSize r n)
    (h : Placed complete cfg (n % cfg.ppSize)
      (flying cfg.ppSize (cfg.ppSize - 1 - r) (n % cfg.ppSize)) S)
    (hroom : ¬ S.FetchesWhenFull cfg input)
    (t : Turn cfg input sample S merged balanced prefilled decoded newBatch out S') (q : Nat) :
    ((decoded.setLastBatch out).places cfg ((n % cfg.ppSize + 1) % cfg.ppSize)).count q ≤
      (merged.turnPlaces cfg (n % cfg.ppSize)).count q := by
  have hi : n % cfg.ppSize < cfg.ppSize := Nat.mod_lt _ (by omega)
  have hmerged := (h.receive (receive_spec cfg input S)).merge hi (receive_cur hcount)
    (not_flying_self hr _) t.merge
  have hbalanced := (hmerged.rebalance_moved t.rebalance).2.2 q
  obtain ⟨hturn, hcases, _⟩ := t.placed hr hcount h hroom
  refine Nat.le_trans ?_ hbalanced
  rcases hcases with ⟨_, hnot, hdecoded, hfull⟩ | ⟨batch, _, _, adder, _, rfl, rfl, _, hp⟩
  · exact hdecoded.places_le hi hturn hnot hfull q
  · exact hp.places_le hi hturn q

omit [MemoryPools M] in
/-- The requests of the last batches are handled ones. -/
theorem Placed.last_lt {j q : Nat} (hi : i < cfg.ppSize) (h : Placed complete cfg i flight S)
    (hj : j < cfg.ppSize) (hq : q ∈ reqsOf (S.stages j).last) : q < S.nextReq := by
  by_cases hgoes : (S.stages j).beingChunkedReq = some q ∧ q ∈ (S.stages j).ownReqs
  · exact h.fresh j hj q hgoes.1
  · refine h.once.lt (List.count_pos_iff.mp ?_)
    have hpos := List.count_pos_iff.mpr (h.mem_settled hi hj hq hgoes)
    rw [places_count cfg S hi hj]
    omega

end Scheduling

variable {r n : Nat} {mem : M} {inputs : Nat → StepInput} {samples : Nat → Nat → Nat}

/-- The counters before step `n` of rank `r`: `output_ids` has the tokens of the results that
arrived, `output_ids_len` those of the batches whose micro-batches had another turn. -/
structure TokensCounted (cfg : Config) (r : Nat) (mem : M) (inputs : Nat → StepInput)
    (samples : Nat → Nat → Nat) (n : Nat) (S : Sched M) : Prop where
  known : ∀ d < n, ∀ q ∈ batchAt cfg r mem inputs samples d, q < S.nextReq
  outputs : ∀ q, (S.heap q).outputIds.length =
    dueCount cfg r mem inputs samples (n - (cfg.ppSize - 1 - r)) q
  lens : LensCounted (S.places cfg (n % cfg.ppSize))
    (dueCount cfg r mem inputs samples (n - cfg.ppSize)) S

/-- A request without batches so far has no tokens. -/
theorem TokensCounted.dueCount_zero (h : TokensCounted cfg r mem inputs samples n S) {m q : Nat}
    (hm : m ≤ n) (hq : S.nextReq ≤ q) : dueCount cfg r mem inputs samples m q = 0 := by
  have hnone : ∀ d < m, dueAt cfg r mem inputs samples d q = false := by
    intro d hd
    have hnot : q ∉ batchAt cfg r mem inputs samples d := fun hmem => by
      have hlt := h.known d (by omega) q hmem
      omega
    simp [dueAt, hnot]
  have hzero : dueCount cfg r mem inputs samples 0 q = 0 := rfl
  rw [← hzero]
  exact dueCount_eq (Nat.zero_le m) fun d _ hd => hnone d hd

/-- Arriving requests have no output tokens. -/
theorem TokensCounted.receive_outputs (h : TokensCounted cfg r mem inputs samples n S)
    (hr : Received cfg S S') (q : Nat) : (S'.heap q).outputIds.length =
      dueCount cfg r mem inputs samples (n - (cfg.ppSize - 1 - r)) q := by
  rcases hr.heap q with ⟨_, hS⟩ | ⟨hle, input, _, hS⟩
  · rw [hS]
    exact h.outputs q
  · rw [hS, h.dueCount_zero (by omega) hle]
    unfold handledReq
    dsimp only
    split
    next => rfl
    next => rfl

/-- After the merge of step `n` the tokens of the batch of this micro-batch count. -/
theorem TokensCounted.merge (hr : r < cfg.ppSize) (hcount : S.curPP = .after cfg.ppSize r n)
    (hplaced : Placed complete cfg (n % cfg.ppSize)
      (flying cfg.ppSize (cfg.ppSize - 1 - r) (n % cfg.ppSize)) S)
    (hflights : Flights cfg (n % cfg.ppSize) n (batchAt cfg r mem inputs samples)
      (goesOnAfter cfg r mem inputs samples) S)
    (h : TokensCounted cfg r mem inputs samples n S)
    (hm : (S.receive cfg (inputs n)).mergeLastBatch = some S') :
    LensCounted (S'.turnPlaces cfg (n % cfg.ppSize))
      (dueCount cfg r mem inputs samples (n + 1 - cfg.ppSize)) S' := by
  have hi : n % cfg.ppSize < cfg.ppSize := Nat.mod_lt _ (by omega)
  have hreceived := receive_spec cfg (inputs n) S
  have hlens := h.lens.receive (fun q hq => h.dueCount_zero (by omega) hq) hreceived
  refine hlens.merge hi (hplaced.receive hreceived) (receive_cur hcount) hm fun q => ?_
  have hlast := hflights.last _ hi
  have hgoes := hflights.goesOn _ hi q
  rw [turnsAgo_self] at hlast hgoes
  rw [hreceived.stages]
  by_cases hfull : cfg.ppSize ≤ n
  · have hlt : n % cfg.ppSize + cfg.ppSize - 1 - n % cfg.ppSize < n := by omega
    have hstep : n - 1 - (n % cfg.ppSize + cfg.ppSize - 1 - n % cfg.ppSize) = n - cfg.ppSize := by
      omega
    have hdue : q ∈ reqsOf (S.stages (n % cfg.ppSize)).last ∧
        ¬ ((S.stages (n % cfg.ppSize)).beingChunkedReq = some q ∧
          q ∈ (S.stages (n % cfg.ppSize)).ownReqs) ↔
        dueAt cfg r mem inputs samples (n - cfg.ppSize) q = true := by
      rw [hgoes, hlast, if_pos hlt, hstep, dueAt, Bool.and_eq_true, decide_eq_true_eq]
      simp only [hlt, true_and, Bool.not_eq_true', Bool.not_eq_true]
    rw [show n + 1 - cfg.ppSize = n - cfg.ppSize + 1 by omega, dueCount_succ]
    simp only [hdue]
  · have hnot : ¬ n % cfg.ppSize + cfg.ppSize - 1 - n % cfg.ppSize < n := by omega
    have hnone : q ∉ reqsOf (S.stages (n % cfg.ppSize)).last := by
      rw [hlast, if_neg hnot]
      simp
    rw [show n + 1 - cfg.ppSize = n - cfg.ppSize by omega, if_neg fun h => hnone h.1, Nat.add_zero]

/-- In every run the counters follow the results. -/
theorem run_tokensCounted (hr : r < cfg.ppSize)
    (hroom : ∀ k < n, ∀ S, run cfg r mem inputs samples k = some S →
      ¬ S.FetchesWhenFull cfg (inputs k))
    (hfill : ∀ k < n, ∀ S, run cfg r mem inputs samples k = some S → ¬ S.FillsShort cfg (inputs k))
    (hrun : run cfg r mem inputs samples n = some S) :
    TokensCounted cfg r mem inputs samples n S := by
  induction n generalizing S with
  | zero =>
    obtain rfl := Option.some.inj hrun
    refine ⟨by simp, fun q => ?_, fun q _ => ?_, fun q _ => rfl⟩
    · rw [Nat.zero_sub]
      rfl
    · rw [Nat.zero_sub]
      rfl
  | succ n ih =>
    obtain ⟨S₁, merged, balanced, prefilled, decoded, newBatch, out, hbefore, t⟩ :=
      exists_runTurn hrun
    have hi : n % cfg.ppSize < cfg.ppSize := Nat.mod_lt _ (by omega)
    have hnow := hroom n (by omega) S₁ hbefore
    have hbounds : ∀ k < n, ∀ S, run cfg r mem inputs samples k = some S →
        ¬ S.FetchesWhenFull cfg (inputs k) := fun k hk => hroom k (by omega)
    have hcounted := ih hbounds (fun k hk => hfill k (by omega)) hbefore
    obtain ⟨hcount, hplaced⟩ :=
      run_placed hr hbounds (fun (_ : True) k hk => hfill k (by omega)) hbefore
    have hflights := run_flights hr hbounds hbefore
    obtain ⟨_, hplaced'⟩ := run_placed hr hroom (fun (_ : True) => hfill) hrun
    have p := t.schedulePhases
    have hreceived := receive_spec cfg (inputs n) S₁
    have hmerged := mergeLastBatch_frame t.merge
    have hlanded := t.landed hr hcount hplaced hnow
    have hnext : S.nextReq = (S₁.receive cfg (inputs n)).nextReq := by
      rw [hlanded.nextReq, ← hmerged.nextReq, ← p.nextReq]
      rfl
    refine ⟨fun d hd q hq => ?_, fun q => ?_, ?_⟩
    · by_cases hlt : d < n
      · have hold := hcounted.known d hlt q hq
        have hle := hreceived.nextReq
        omega
      · obtain rfl : d = n := by omega
        refine hplaced'.last_lt (Nat.mod_lt _ (by omega)) hi ?_
        rw [hlanded.last, t.last hr hcount hplaced hnow, ← reqsOf_batchAt hbefore p]
        exact hq
    · obtain ⟨_, _, hdispatched⟩ := t.placed hr hcount hplaced hnow
      have hold : (decoded.heap q).outputIds.length =
          dueCount cfg r mem inputs samples (n - (cfg.ppSize - 1 - r)) q := by
        rw [(p.results q).1, (hmerged.heap q).outputIds]
        exact hcounted.receive_outputs hreceived q
      have happends := (t.flights hr hcount hplaced hflights hnow hbefore hrun).appends hr hi
        (t.arriving hcount) hdispatched (t.resultComplete (hfill n (by omega) S₁ hbefore)) t.finish q
      rw [happends, List.length_append, hold]
      by_cases hle : cfg.ppSize - 1 - r ≤ n
      · have hdue : (cfg.ppSize - 1 - r ≤ n ∧
            q ∈ batchAt cfg r mem inputs samples (n - (cfg.ppSize - 1 - r)) ∧
            goesOnAfter cfg r mem inputs samples (n - (cfg.ppSize - 1 - r)) q = false) ↔
            dueAt cfg r mem inputs samples (n - (cfg.ppSize - 1 - r)) q = true := by
          rw [dueAt, Bool.and_eq_true, decide_eq_true_eq]
          simp only [hle, true_and, Bool.not_eq_true']
        rw [show n + 1 - (cfg.ppSize - 1 - r) = n - (cfg.ppSize - 1 - r) + 1 by omega,
          dueCount_succ]
        simp only [hdue]
        split <;> rfl
      · rw [if_neg fun h => hle h.1,
          show n + 1 - (cfg.ppSize - 1 - r) = n - (cfg.ppSize - 1 - r) by omega]
        rfl
    · have hlens := hcounted.merge hr hcount hplaced hflights t.merge
      have hkept : LensKept merged S := p.lens.trans fun q => (hlanded.heap q).outputIdsLen
      have hfinished : FinishKept merged S :=
        (FinishKept.of_eq fun q => (p.results q).2).trans hlanded.finished
      refine hlens.mono hkept hfinished (fun q hq => ?_) ?_
      · rw [show (n + 1) % cfg.ppSize = (n % cfg.ppSize + 1) % cfg.ppSize by simp,
          hlanded.places] at hq
        have hpos := List.count_pos_iff.mpr hq
        have hle := t.places_le hr hcount hplaced hnow q
        exact List.count_pos_iff.mp (by omega)
      · rw [hlanded.nextReq, ← p.nextReq]
        rfl

end Sched

end FastPP
