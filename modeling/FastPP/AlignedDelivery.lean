import FastPP.AlignedRun

namespace FastPP

theorem Stage.modifyLast_own {stage : Stage} {f : ScheduleBatch → ScheduleBatch} {b : ScheduleBatch}
    (h : stage.lastBatch = .own b) :
    stage.modifyLast f = { stage with lastBatch := .own (f b) } := by
  rw [modifyLast, h]

theorem Stage.modifyLast_running {stage : Stage} {f : ScheduleBatch → ScheduleBatch}
    (h : stage.lastBatch = .running) :
    stage.modifyLast f = { stage with runningBatch := stage.runningBatch.map f } := by
  rw [modifyLast, h]

namespace Sched

variable {cfg : Config} {i idx : Nat} {flight : Nat → Bool} {S S' : Sched Memory}

/-- What the delivery of a result does to the rows of the requests. -/
structure OutputsDelivered (idx : Nat) (batch : ScheduleBatch) (nextTokenIds : List Nat)
    (S S' : Sched Memory) : Prop where
  params : ∀ q, (S.heap q).SameParams (S'.heap q)
  kept : ∀ q ∉ (S.stages idx).settled, RowKept S S' q
  appended : ∀ q ∈ batch.reqs, q ∈ (S.stages idx).settled →
    (S'.rows false).poolIdx q = (S.rows true).poolIdx q ∧
      (S'.rows false).seqLen q = (S.rows true).seqLen q ∧
      (S'.heap q).outputIds = (S.heap q).outputIds ++
        [nextTokenIds.getD (batch.reqs.idxOf q) 0]
  other : ∀ q ∉ batch.reqs, RowKept S S' q

theorem Placed.outputsDelivered {batch : ScheduleBatch} {nextTokenIds : List Nat}
    (hi : i < cfg.ppSize) (h : Placed True cfg i flight S)
    (hidx : idx < cfg.ppSize) (hlast : (S.stages idx).last = some batch)
    (hflight : flight idx = true)
    (holdest : ∀ j < cfg.ppSize, flight j = true → j ≠ idx →
      turnsAgo cfg.ppSize i j < turnsAgo cfg.ppSize i idx)
    (hlength : nextTokenIds.length = batch.reqs.length)
    (hd : S.deliver cfg idx batch nextTokenIds = some S') :
    OutputsDelivered idx batch nextTokenIds S S' := by
  obtain ⟨_, hdelivered⟩ := h.deliver hi hidx hlast hflight holdest (fun _ => hlength.ge) hd
  have hnodup := (h.last_cases hi hidx hlast).1
  have hdue := fun q => h.due_iff hi trivial hidx hlast hflight holdest (q := q)
  have hpool := (deliver_rows hd hnodup).reqPoolIdx
  have hout : ∀ q ∈ batch.reqs, (S'.heap q).outputIds = (S.heap q).outputIds ++
      if dueOf batch (S.heap q).isBeingChunked = true then
        [nextTokenIds.getD (batch.reqs.idxOf q) 0]
      else [] := fun q hq =>
    deliver_outputs hd hnodup (by rwa [reached_eq hlength.ge])
  have hparams := fun q => (hdelivered.processed q).sameParams
  have horigin : ∀ q, (S'.heap q).originInputIds = (S.heap q).originInputIds := fun q => by
    obtain ⟨_, _, _, _, _, _, hq⟩ := hdelivered.processed q
    rw [hq]
  have hother : ∀ q ∉ batch.reqs, RowKept S S' q := fun q hq =>
    ⟨hparams q, horigin q, by rw [hdelivered.untouched hq], congrFun hpool q⟩
  refine ⟨hparams, fun q hq => ?_, fun q hq hsettled => ?_, hother⟩
  · by_cases hmem : q ∈ batch.reqs
    · refine ⟨hparams q, horigin q, ?_, congrFun hpool q⟩
      have hundue := fun htrue => hq ((hdue q hmem).mp htrue)
      rw [hout q hmem, if_neg hundue, List.append_nil]
    · exact hother q hmem
  · have htokens := hout q hq
    rw [if_pos ((hdue q hq).mpr hsettled)] at htokens
    refine ⟨?_, ?_, htokens⟩
    · simp only [rows, hpool]
    · simp [rows, horigin, htokens]

/-- The tokens of a batch, by request. -/
theorem nextTokenIds_eq {batch : ScheduleBatch} {nextTokenIds : List Nat}
    (hnodup : batch.reqs.Nodup) (hlength : nextTokenIds.length = batch.reqs.length) :
    nextTokenIds = batch.reqs.map fun q => nextTokenIds.getD (batch.reqs.idxOf q) 0 := by
  refine List.ext_getElem (by simp [hlength]) fun j h₁ h₂ => ?_
  simp [hnodup.idxOf_getElem, h₁]

/-- A batch whose result was delivered has the tokens for its next decode. -/
theorem OutputsDelivered.aligned {batch : ScheduleBatch} {nextTokenIds : List Nat}
    {chunk : Option Nat} (h : OutputsDelivered idx batch nextTokenIds S S')
    (ha : S.AlignedBut chunk true batch) (hnodup : batch.reqs.Nodup)
    (hlength : nextTokenIds.length = batch.reqs.length)
    (hsettled : ∀ q ∈ batch.reqs, chunk ≠ some q → q ∈ (S.stages idx).settled) :
    S'.AlignedBut chunk false { batch with outputIds := some nextTokenIds } := by
  obtain ⟨rows, hfields, hrows, _⟩ := ha
  have hfields' : batch.AlignedFields S'.heap
      { rows with outputId := fun q => nextTokenIds.getD (batch.reqs.idxOf q) 0 } :=
    hfields.congr (fun q _ => h.params q) (fun _ _ => rfl) fun _ _ => rfl
  refine ⟨{ rows with outputId := fun q => nextTokenIds.getD (batch.reqs.idxOf q) 0 },
    ⟨hfields'.reqPoolIndices, hfields'.seqLens, hfields'.seqLensSum, hfields'.sampling,
      hfields'.returnLogprob, hfields'.topLogprobsNums⟩, fun q hq hne => ?_, fun _ =>
    ⟨congrArg some (nextTokenIds_eq hnodup hlength), fun q hq hne => ?_⟩⟩
  · obtain ⟨hpool, hlen, _⟩ := h.appended q hq (hsettled q hq hne)
    rw [hpool, hlen]
    exact hrows q hq hne
  · obtain ⟨_, _, htokens⟩ := h.appended q hq (hsettled q hq hne)
    rw [Req.lastToken, htokens]
    simp

theorem AlignedAt.alignedBut {dispatched : Bool} {batch : ScheduleBatch}
    (h : S.AlignedAt dispatched batch) : S.AlignedBut none dispatched batch :=
  ⟨S.rows dispatched, h.toAlignedFields, fun _ _ _ => ⟨rfl, rfl⟩, fun hnot => by
    subst hnot
    exact ⟨h.outputIds rfl, fun q hq _ => ⟨rfl, h.started rfl q hq⟩⟩⟩

theorem BatchesKept.deliver {batch : ScheduleBatch} {nextTokenIds : List Nat}
    (hi : i < cfg.ppSize) (h : Placed True cfg i flight S) (hk : BatchesKept cfg flight S)
    (hidx : idx < cfg.ppSize) (hlast : (S.stages idx).last = some batch)
    (hflight : flight idx = true)
    (holdest : ∀ j < cfg.ppSize, flight j = true → j ≠ idx →
      turnsAgo cfg.ppSize i j < turnsAgo cfg.ppSize i idx)
    (hlength : nextTokenIds.length = batch.reqs.length)
    (hd : S.deliver cfg idx batch nextTokenIds = some S') :
    BatchesKept cfg (fun j => flight j && decide (j ≠ idx)) S' := by
  obtain ⟨_, hdelivered⟩ := h.deliver hi hidx hlast hflight holdest (fun _ => hlength.ge) hd
  have hout := h.outputsDelivered hi hidx hlast hflight holdest hlength hd
  obtain ⟨hnodup, hcases⟩ := h.last_cases hi hidx hlast
  have hcount := h.settled_count hi hidx
  have hpending : S'.pendingBatch = S.pendingBatch := by
    obtain ⟨_, _, _, rfl⟩ := hdelivered.others
    rfl
  refine ⟨fun b hb hne => ?_, fun j hj => ?_⟩
  · rw [hpending] at hb
    refine (hk.pending b hb hne).keep fun q hq => hout.kept q fun hmem => ?_
    have hle := hcount q
    have hpos := List.count_pos_iff.mpr hmem
    have hin : q ∈ reqsOf S.pendingBatch := by simpa [reqsOf, hb] using hq
    have := List.count_pos_iff.mpr hin
    omega
  · have hstages : S'.stages = Function.update S.stages idx ((S.stages idx).modifyLast fun b =>
        { b with outputIds := some nextTokenIds }) := by
      obtain ⟨_, _, _, rfl⟩ := hdelivered.others
      rfl
    rcases eq_or_ne j idx with rfl | hne
    · rw [hstages, Function.update_self]
      have hstage := hk.stages j hj
      rw [hflight] at hstage
      simp only [ne_eq, not_true_eq_false, decide_false, Bool.and_false]
      rcases hcases with ⟨hown, _⟩ | ⟨hrun, hsome, _⟩
      · have hreqs : (S.stages j).ownReqs = batch.reqs := by rw [Stage.ownReqs, hown]
        have hsettled : ∀ q ∈ batch.reqs, (S.stages j).beingChunkedReq ≠ some q →
            q ∈ (S.stages j).settled := fun q hq hne => by
          rw [Stage.settled, hreqs]
          exact List.mem_append_right _ (List.mem_filter.mpr ⟨hq, by simpa using hne⟩)
        rw [Stage.modifyLast_own hown]
        refine ⟨fun b hb hne => ?_, fun b hb => ?_⟩
        · have hb : (S.stages j).runningBatch = some b := hb
          have hold := hstage.running b hb hne
          rw [hown] at hold
          simp only [reduceCtorEq, decide_false, Bool.and_false] at hold ⊢
          refine hold.keep fun q hq => hout.other q fun hmem => ?_
          have hin : q ∈ reqsOf (S.stages j).runningBatch := by simpa [reqsOf, hb] using hq
          by_cases hchunk : (S.stages j).beingChunkedReq = some q
          · have := h.order j hj j hj q hchunk (List.mem_append_left _ hin)
            omega
          · have hle := hcount q
            have hrun := List.count_pos_iff.mpr hin
            have hown' : q ∈ (S.stages j).ownReqs.filter
                fun q => (S.stages j).beingChunkedReq != some q := by
              rw [hreqs]
              exact List.mem_filter.mpr ⟨hmem, by simpa using hchunk⟩
            have hpos := List.count_pos_iff.mpr hown'
            rw [Stage.settled, List.count_append] at hle
            omega
        · simp only [LastBatch.own.injEq] at hb
          subst hb
          exact hout.aligned (hstage.own batch hown) hnodup hlength hsettled
      · rw [Stage.modifyLast_running hrun, hsome]
        refine ⟨fun b hb hne => ?_, fun b hb => by simp [hrun] at hb⟩
        obtain rfl := Option.some.inj hb
        have hold := hstage.running batch hsome hne
        rw [hrun] at hold
        have hbut := hout.aligned hold.alignedBut hnodup hlength fun q hq _ => by
          rw [Stage.settled, hsome]
          exact List.mem_append_left _ hq
        exact hbut.alignedAt (by simp)
    · rw [hstages, Function.update_of_ne hne]
      simp only [hne, ne_eq, not_false_eq_true, decide_true, Bool.and_true]
      refine (hk.stages j hj).keep (fun q _ => hout.params q) fun q hq =>
        hout.kept q fun hmem => ?_
      have hle := hcount q
      have hpos := List.count_pos_iff.mpr hmem
      have := List.count_pos_iff.mpr (mem_others hj hne hq)
      omega

/-- A micro-batch without a batch has nothing in flight. -/
theorem BatchesKept.idle {ratio : Rat} (hk : BatchesKept cfg flight S)
    (hlast : (S.stages idx).last = none) :
    BatchesKept cfg (fun j => flight j && decide (j ≠ idx)) { S with newTokenRatio := ratio } := by
  have hrow : ∀ q, RowKept S { S with newTokenRatio := ratio } q := fun _ =>
    ⟨⟨rfl, rfl, rfl⟩, rfl, rfl, rfl⟩
  refine ⟨fun b hb hne => (hk.pending b hb hne).keep fun q _ => hrow q, fun j hj => ?_⟩
  have hstage := (hk.stages j hj).keep (fun q _ => (hrow q).params) fun q _ => hrow q
  rcases eq_or_ne j idx with rfl | hne
  · simp only [ne_eq, not_true_eq_false, decide_false, Bool.and_false]
    refine ⟨fun b hb hne => ?_, fun b hb => ?_⟩
    · have hnot : (S.stages j).lastBatch ≠ .running := fun hrun => by
        rw [Stage.last, hrun] at hlast
        change (S.stages j).runningBatch = some b at hb
        rw [hb] at hlast
        simp at hlast
      have hrun := hstage.running b hb hne
      simpa [hnot] using hrun
    · change (S.stages j).lastBatch = .own b at hb
      rw [Stage.last, hb] at hlast
      simp at hlast
  · simpa [hne] using hstage

theorem BatchesKept.congr {flight' : Nat → Bool} (hk : BatchesKept cfg flight S)
    (hflight : ∀ j < cfg.ppSize, flight' j = flight j) : BatchesKept cfg flight' S :=
  ⟨hk.pending, fun j hj => hflight j hj ▸ hk.stages j hj⟩

end Sched

end FastPP
