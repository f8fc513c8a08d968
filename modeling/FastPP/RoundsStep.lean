import FastPP.RoundFrames

namespace FastPP

namespace Sched

variable {M : Type} [MemoryPools M] {cfg : Config} {complete : Prop} {i idx : Nat}
  {flight : Nat → Bool}
  {S S' : Sched M} {chunks : Nat → List Chunk}

theorem chunkAfter_eq_some_iff {carried new chunk : Option Nat}
    (h : chunkAfter carried new = some chunk) (q : Nat) :
    chunk = some q ↔ carried = some q ∨ new = some q := by
  unfold chunkAfter at h
  split at h
  next =>
    rw [Option.some.inj h]
    simp
  next p =>
    split at h
    next => simp at h
    next hnone =>
      rw [← Option.some.inj h, Option.not_isSome_iff_eq_none.mp hnone]
      simp

omit [MemoryPools M] in
theorem takeListed_heap (S : Sched M) (list : List Nat) (chunk : Option Nat) (q : Nat) :
    ((S.takeListed list chunk).heap q).prefixLen = (S.heap q).prefixLen ∧
      ((S.takeListed list chunk).heap q).fillIds = (S.heap q).fillIds ∧
      ((S.takeListed list chunk).heap q).target = (S.heap q).target := by
  rw [takeListed_eq]
  exact ⟨rfl, rfl, rfl⟩

omit [MemoryPools M] in
theorem takeListed_stage (S : Sched M) (list : List Nat) (chunk : Option Nat) :
    (S.takeListed list chunk).stage = { S.stage with beingChunkedReq := chunk } := by
  rw [takeListed_eq]
  exact setStage_stage S { S.stage with beingChunkedReq := chunk }

/-- A listed request is carried or waiting, and not both. -/
theorem InTurn.listed_cases {fetched selected : Sched M} {adder : PrefillAdder}
    (hi : i < cfg.ppSize) (h : InTurn complete cfg i flight S)
    (hf : S.fetchChunkedPrefill cfg = some fetched)
    (hs : fetched.selectPrefill cfg = some (selected, adder)) {q : Nat}
    (hq : q ∈ adder.canRunList) :
    ((S.stages (cfg.prev i)).beingChunkedReq = some q ∧ q ∉ S.waitingQueue) ∨
      ((S.stages (cfg.prev i)).beingChunkedReq ≠ some q ∧ q ∈ S.waitingQueue) := by
  obtain ⟨hunique, _, _⟩ := h.canRunList_new hi hf hs
  have hfetched := fetchChunkedPrefill_spec hf
  obtain ⟨_, hwaiting, _, _, added, hsub, hlist, _⟩ := selectPrefill_spec hs
  rw [hfetched.stage, h.fetched hi] at hlist hunique
  rw [hfetched.waitingQueue] at hunique hwaiting
  have hapart : (S.stages (cfg.prev i)).beingChunkedReq = some q → q ∉ S.waitingQueue :=
    fun hsome hmem => (List.nodup_append.mp hunique).2.2 q (by simp [hsome]) q hmem rfl
  rw [hlist] at hq
  rcases List.mem_append.mp hq with hq | hq
  · have hsome : (S.stages (cfg.prev i)).beingChunkedReq = some q := Option.mem_toList.mp hq
    exact Or.inl ⟨hsome, hapart hsome⟩
  · have hmem := hwaiting.mem_iff.mp (hsub.subset hq)
    exact Or.inr ⟨fun hsome => hapart hsome hmem, hmem⟩

theorem InTurn.carried_listed {fetched selected : Sched M} {adder : PrefillAdder}
    (hi : i < cfg.ppSize) (h : InTurn complete cfg i flight S)
    (hf : S.fetchChunkedPrefill cfg = some fetched)
    (hs : fetched.selectPrefill cfg = some (selected, adder)) {q : Nat}
    (hq : (S.stages (cfg.prev i)).beingChunkedReq = some q) : q ∈ adder.canRunList := by
  obtain ⟨_, _, _, _, added, _, hlist, _⟩ := selectPrefill_spec hs
  rw [(fetchChunkedPrefill_spec hf).stage, h.fetched hi, hq] at hlist
  simp [hlist]

/-- The listed requests compute their next chunks. -/
theorem RoundsInTurn.call {fetched selected : Sched M} {adder : PrefillAdder}
    {chunk : Option Nat} (hi : i < cfg.ppSize) (h : InTurn complete cfg i flight S)
    (hk : RoundsInTurn cfg i chunks S) (hbudget : S.ChunkBudget cfg)
    (hf : S.fetchChunkedPrefill cfg = some fetched)
    (hs : fetched.selectPrefill cfg = some (selected, adder))
    (hc : chunkAfter selected.stage.beingChunkedReq adder.newBeingChunkedReq = some chunk)
    {q : Nat} (hq : q ∈ adder.canRunList) :
    InRounds (chunks q ++ [(selected.heap q).chunk (decide (q ∈ S.waitingQueue))]) ∧
      (((selected.heap q).chunk (decide (q ∈ S.waitingQueue))).isLast = true ↔
        chunk ≠ some q) := by
  have hfetched := fetchChunkedPrefill_spec hf
  obtain ⟨htokens, hsize, hsole, hmoved⟩ := fetchChunkedPrefill_tokens hf
  have hchunk : fetched.stage.beingChunkedReq = (S.stages (cfg.prev i)).beingChunkedReq := by
    rw [hfetched.stage, h.fetched hi]
  have hbudget' : fetched.ChunkBudget cfg := by
    intro size hsome
    have hbs : fetched.runningBs = S.runningBs := by rw [runningBs, hfetched.stage]; rfl
    rw [hbs]
    exact hbudget size (hsize ▸ hsome)
  -- the carried request continues where its last chunk stops
  have hstart : ∀ q, (S.stages (cfg.prev i)).beingChunkedReq = some q → ∀ c,
      (chunks q).getLast? = some c → (fetched.heap q).prefixLen = c.stop ∧
        (fetched.heap q).target = c.target ∧ c.isLast = false := by
    intro q hsome c hlast
    obtain ⟨c', hlast', hmore, hstop, htarget, hstay⟩ := hk.carried q hsome
    obtain rfl : c = c' := Option.some.inj (hlast.symm.trans hlast')
    refine ⟨?_, (htokens q).target.trans htarget, hmore⟩
    by_cases hone : cfg.ppSize = 1
    · rw [hsole hone]
      exact hstay hone
    · rw [hmoved hone q (h.cur.symm ▸ hsome)]
      exact hstop
  have hlt : ∀ q, fetched.stage.beingChunkedReq = some q →
      (fetched.heap q).prefixLen < (fetched.heap q).target := by
    intro q hsome
    rw [hchunk] at hsome
    obtain ⟨c, hlast, _⟩ := hk.carried q hsome
    obtain ⟨_, htarget, hmore⟩ := hstart q hsome c hlast
    have hwithin := (hk.rounds q).within c (List.mem_of_getLast? hlast)
    have hne : c.stop ≠ c.target := of_decide_eq_false hmore
    have := hwithin.le_target
    omega
  obtain ⟨hcut, hpre⟩ := selectPrefill_cut hs hbudget'
    (h.canRunList_new hi hf hs).1 hlt
  have hcut : (selected.heap q).Cut (chunk = some q) :=
    (hcut q hq).congr (chunkAfter_eq_some_iff hc q).symm
  have hends : ((selected.heap q).chunk (decide (q ∈ S.waitingQueue))).isLast = true ↔
      chunk ≠ some q := by
    unfold Chunk.isLast Req.chunk
    rw [decide_eq_true_eq]
    constructor
    · intro heq hgoes
      have := (hcut.part hgoes).2
      dsimp only at heq
      omega
    · exact hcut.whole
  have hwithin : ((selected.heap q).chunk (decide (q ∈ S.waitingQueue))).Within := by
    refine ⟨hcut.le, ?_, fun hmore => (hcut.part ?_).1⟩
    · change (selected.heap q).fillIds.length ≤ (selected.heap q).target
      by_cases hgoes : chunk = some q
      · exact (hcut.part hgoes).2.le
      · exact (hcut.whole hgoes).le
    · by_contra hne
      rw [hends.mpr hne] at hmore
      simp at hmore
  refine ⟨(hk.rounds q).snoc hwithin (fun a ha => ?_) fun hnil => ?_, hends⟩
  · unfold Chunk.Follows
    rcases h.listed_cases hi hf hs hq with ⟨hcarried, hnot⟩ | ⟨hnew, hwaits⟩
    · obtain ⟨hstop, htarget, hmore⟩ := hstart q hcarried a ha
      rw [if_neg (by simp [hmore])]
      refine ⟨decide_eq_false hnot, ?_, ?_⟩
      · exact hstop.symm.trans (hpre q (hchunk.trans hcarried)).symm
      · exact ((selectPrefill_spec hs).heap q).target.trans htarget
    · rw [if_pos (hk.settled q hnew a ha)]
      exact decide_eq_true hwaits
  · rcases h.listed_cases hi hf hs hq with ⟨hcarried, _⟩ | ⟨_, hwaits⟩
    · obtain ⟨c, hlast, _⟩ := hk.carried q hcarried
      simp [hnil] at hlast
    · exact decide_eq_true hwaits

/-- The chunks of all requests after a batch with the listed ones was formed. -/
def withListed (chunks : Nat → List Chunk) (waitingQueue : List Nat) (selected : Sched M)
    (list : List Nat) (q : Nat) : List Chunk :=
  chunks q ++ if q ∈ list then [(selected.heap q).chunk (decide (q ∈ waitingQueue))] else []

/-- The new prefill batch computes the next chunks of its requests. -/
theorem RoundsInTurn.prefill {fetched selected : Sched M} {adder : PrefillAdder}
    {batch : ScheduleBatch} (hi : i < cfg.ppSize) (h : InTurn complete cfg i flight S)
    (hk : RoundsInTurn cfg i chunks S) (hbudget : S.ChunkBudget cfg)
    (p : PrefillPhases cfg S fetched selected S' adder batch)
    (hpre : Prefilled cfg S S' batch adder.canRunList) :
    RoundsKept cfg ((i + 1) % cfg.ppSize)
      (withListed chunks S.waitingQueue selected adder.canRunList)
      (S'.setLastBatch (some batch)) := by
  obtain ⟨_, formed, chunk, extended, hx⟩ := p.extends
  have hcall := fun q (hq : q ∈ adder.canRunList) =>
    hk.call hi h hbudget p.fetch p.select hx.carried hq
  have hcur : S'.cur = i := by rw [Sched.cur, hpre.curPP]; exact h.cur
  have hstage : S.stage = S.stages i := by rw [stage, h.cur]
  obtain ⟨hothers, hlast⟩ := setLastBatch_stages S' (some batch)
  rw [hcur] at hothers hlast
  have hmode : batch.forwardMode.isDecode = false := by
    have := hpre.mode
    cases hm : batch.forwardMode <;> simp_all [ForwardMode.isExtend, ForwardMode.isDecode]
  have hstages : ∀ j, j ≠ i → (S'.setLastBatch (some batch)).stages j = S.stages j := fun j hj =>
    (hothers j hj).trans (hpre.stages j (h.cur ▸ hj))
  have hchunk : S'.stage.beingChunkedReq = chunk := by
    have hmix := mixChunk_spec (by rw [(prepareForExtend_spec hx.extend).2.2]; rfl) hx.mix
    have hquiet := (prepareForExtend_spec hx.extend).1
    rw [hmix.beingChunkedReq, hquiet.stage, takeListed_stage]
  have hprev : ((S'.setLastBatch (some batch)).stages
      (cfg.prev ((i + 1) % cfg.ppSize))).beingChunkedReq = chunk := by
    rw [prev_succ hi, hlast]
    exact hchunk
  have hrunning : ∀ q ∈ reqsOf S'.stage.runningBatch, chunks q ≠ [] := by
    intro q hq
    rcases hpre.reqs with ⟨_, hsame⟩ | ⟨_, hnone⟩
    · exact hk.running q (by rwa [hsame, hstage] at hq)
    · simp [hnone, reqsOf] at hq
  have hbatch : ∀ q ∈ batch.reqs, q ∈ adder.canRunList ∨ chunks q ≠ [] := by
    intro q hq
    rcases hpre.reqs with ⟨hreqs, _⟩ | ⟨hreqs, _⟩
    · exact Or.inl (hreqs ▸ hq)
    · rw [hreqs] at hq
      refine (List.mem_append.mp hq).imp_right fun hq => hk.running q ?_
      exact hstage ▸ (List.mem_filter.mp hq).1
  have hmore : ∀ q, chunks q ≠ [] →
      withListed chunks S.waitingQueue selected adder.canRunList q ≠ [] := by
    intro q hq
    simp [withListed, hq]
  have hkept : ∀ q ∈ adder.canRunList, chunk = some q → RangeKept selected S' q := by
    intro q hq hgoes
    have htake := takeListed_heap selected adder.canRunList chunk q
    have hformed := prepareForExtend_rangeKept hx.extend q
    have hnot : q ∉ reqsOf formed.stage.runningBatch := by
      intro hmem
      have hquiet := (prepareForExtend_spec hx.extend).1
      obtain ⟨_, hstage', _⟩ := (selectPrefill_spec p.select).stage
      rw [hquiet.stage, takeListed_stage, hstage', (fetchChunkedPrefill_spec p.fetch).stage] at hmem
      refine (h.canRunList_new hi p.fetch p.select).2.2 q ?_ hq
      exact List.mem_append_right _ (List.mem_append_left _ (hstage ▸ hmem))
    have hmixed := RangeKept.of_eq (mixChunk_other hx.mix hnot)
    exact ((⟨⟨htake.2.1, htake.2.2⟩, htake.1⟩ : RangeKept selected _ q).trans hformed).trans hmixed
  refine ⟨fun q => ?_, fun q hq => ?_, fun q hq c hc => ?_, fun q hq => ?_, fun j hj q hq => ?_⟩
  · by_cases hq : q ∈ adder.canRunList
    · rw [withListed, if_pos hq]
      exact (hcall q hq).1
    · rw [withListed, if_neg hq, List.append_nil]
      exact hk.rounds q
  · rw [hprev] at hq
    have hmem := hpre.chunk q (hchunk.trans hq)
    refine ⟨(selected.heap q).chunk (decide (q ∈ S.waitingQueue)), ?_, ?_, ?_, ?_, fun hown => ?_⟩
    · rw [withListed, if_pos hmem, List.getLast?_concat]
    · exact Bool.eq_false_iff.mpr fun hends => (hcall q hmem).2.mp hends hq
    · exact congrArg List.length (hkept q hmem hq).fillIds
    · exact (hkept q hmem hq).target
    · intro hone
      have hzero : (i + 1) % cfg.ppSize = i := by
        rw [hone, Nat.mod_one]
        omega
      refine absurd ?_ (hown batch)
      rw [hzero, hlast]
      simp [hmode]
  · rw [hprev] at hq
    by_cases hmem : q ∈ adder.canRunList
    · rw [withListed, if_pos hmem, List.getLast?_concat] at hc
      rw [← Option.some.inj hc]
      exact (hcall q hmem).2.mpr hq
    · rw [withListed, if_neg hmem, List.append_nil] at hc
      exact hk.settled q (fun hsome => hmem (h.carried_listed hi p.fetch p.select hsome)) c hc
  · exact hmore q (hk.pending q (hpre.pendingBatch ▸ hq))
  · by_cases hj' : j = i
    · subst hj'
      rw [hlast] at hq
      rcases List.mem_append.mp hq with hq | hq
      · exact hmore q (hrunning q hq)
      · have hmem : q ∈ batch.reqs := by
          simpa [Stage.ownReqs, hmode] using (List.mem_filter.mp hq).1
        rcases hbatch q hmem with hin | hold
        · simp [withListed, hin]
        · exact hmore q hold
    · exact hmore q (hk.others j hj hj' q (hstages j hj' ▸ hq))

/-- Without a new batch no request is prefilled. -/
theorem RoundsInTurn.decode (hi : i < cfg.ppSize) (h : InTurn complete cfg i flight S)
    (hk : RoundsInTurn cfg i chunks S) {S'' : Sched M} {out : Option ScheduleBatch}
    (hprefill : S.getNewBatchPrefill cfg = some (S', none)) (hn : NotPrefilled cfg S S')
    (hdecode : S'.orDecode cfg none = some (S'', out)) (hd : Decoded S' S'' out)
    (hfull : cfg.ppSize = 1 ∨ (S.stages (cfg.prev i)).beingChunkedReq = none) :
    RoundsKept cfg ((i + 1) % cfg.ppSize) chunks (S''.setLastBatch out) := by
  have hcur' : S'.cur = i := hn.toFrame.cur.trans h.cur
  have hcur : S''.cur = i := hd.toFrame.cur.trans hcur'
  have hstage : S.stage = S.stages i := by rw [stage, h.cur]
  obtain ⟨hothers, hlast⟩ := setLastBatch_stages S'' out
  rw [hcur] at hothers hlast
  have hframe := hn.toFrame.trans hd.toFrame
  have hstages : ∀ j, j ≠ i → (S''.setLastBatch out).stages j = S.stages j := fun j hj =>
    (hothers j hj).trans (hframe.stages j (h.cur ▸ hj))
  have hsame : ((S''.setLastBatch out).stages
      (cfg.prev ((i + 1) % cfg.ppSize))).beingChunkedReq =
        (S.stages (cfg.prev i)).beingChunkedReq := by
    rw [prev_succ hi, hlast]
    change S''.stage.beingChunkedReq = _
    rw [hd.beingChunkedReq, hn.stage, h.fetched hi]
  have hrun : ∀ q ∈ reqsOf out, q ∈ reqsOf (S.stages i).runningBatch := by
    intro q hq
    obtain ⟨_, _, hperm⟩ := hd.retracted
    have hmem := hperm.subset (List.mem_append_left _ hq)
    rw [unfinishedRunning, hn.stage, hstage] at hmem
    exact (List.mem_filter.mp hmem).1
  refine ⟨hk.rounds, fun q hq => ?_, fun q hq => hk.settled q (hsame ▸ hq), fun q hq => ?_,
    fun j hj q hq => ?_⟩
  · rw [hsame] at hq
    obtain ⟨c, hc, hmore, hstop, htarget, hstay⟩ := hk.carried q hq
    have hone : cfg.ppSize = 1 := hfull.resolve_right (by simp [hq])
    have hnot : q ∉ reqsOf (S.stages i).runningBatch := by
      intro hmem
      have hle := h.once.le_one q
      have hpos := List.count_pos_iff.mpr hmem
      simp only [turnPlaces, List.count_append, hq, Option.toList_some,
        List.count_singleton_self] at hle
      omega
    have hheap : (S''.heap q) = S.heap q := by
      rw [orDecode_other hdecode (by rwa [hn.stage, hstage])]
      obtain ⟨S₁, hfetch, hrest⟩ := Option.bind_eq_some_iff.mp hprefill
      rw [← congrFun (congrArg Sched.heap ((fetchChunkedPrefill_tokens hfetch).2.2.1 hone)) q]
      unfold prefillFetched at hrest
      split at hrest
      next => obtain ⟨rfl, _⟩ := Prod.mk.inj (Option.some.inj hrest); rfl
      next =>
        split at hrest
        next => obtain ⟨rfl, _⟩ := Prod.mk.inj (Option.some.inj hrest); rfl
        next =>
          obtain ⟨⟨S₂, adder⟩, hselect, hform⟩ := Option.bind_eq_some_iff.mp hrest
          have hlisted := h.carried_listed hi hfetch hselect hq
          rcases formPrefill_spec hform with ⟨hnil, _⟩ | ⟨_, _, hsome, _⟩
          · rw [hnil] at hlisted
            simp at hlisted
          · simp at hsome
    refine ⟨c, hc, hmore, ?_, ?_, fun _ _ => ?_⟩
    · exact (congrArg (fun r : Req => r.fillIds.length) hheap).trans hstop
    · exact (congrArg Req.target hheap).trans htarget
    · exact (congrArg Req.prefixLen hheap).trans (hstay hone)
  · refine hk.pending q ?_
    have hpending := hd.pendingBatch.trans hn.pendingBatch
    exact hpending ▸ hq
  · by_cases hj' : j = i
    · subst hj'
      rw [hlast] at hq
      rcases List.mem_append.mp hq with hq | hq
      · rw [show S''.stage.runningBatch = out from hd.running] at hq
        exact hk.running q (hrun q hq)
      · cases hout : out with
        | none => simp [Stage.ownReqs, hout] at hq
        | some b => simp [Stage.ownReqs, hout, (hd.mode b hout).1, ForwardMode.isDecode] at hq
    · exact hk.others j hj hj' q (hstages j hj' ▸ hq)

/-- Results leave the carried request where it is. -/
theorem RoundsKept.deliver {batch : ScheduleBatch} {nextTokenIds : List Nat}
    (hi : i < cfg.ppSize) (h : Placed complete cfg i flight S) (hk : RoundsKept cfg i chunks S)
    (hidx : idx < cfg.ppSize) (hlast : (S.stages idx).last = some batch)
    (hflight : flight idx = true)
    (holdest : ∀ j < cfg.ppSize, flight j = true → j ≠ idx →
      turnsAgo cfg.ppSize i j < turnsAgo cfg.ppSize i idx)
    (hall : complete → batch.reqs.length ≤ nextTokenIds.length)
    (hd : S.deliver cfg idx batch nextTokenIds = some S') : RoundsKept cfg i chunks S' := by
  obtain ⟨_, hdelivered⟩ := h.deliver hi hidx hlast hflight holdest hall hd
  have hnodup := (h.last_cases hi hidx hlast).1
  have hstages := hdelivered.stages
  have hpending : S'.pendingBatch = S.pendingBatch := by
    obtain ⟨_, _, _, rfl⟩ := hdelivered.others
    rfl
  refine ⟨hk.rounds, fun q hq => ?_, fun q hq => ?_, fun q hq => hk.pending q (hpending ▸ hq),
    fun j hj q hq => hk.begun j hj q ((hstages j).1 ▸ hq)⟩
  · rw [(hstages _).2.2] at hq
    obtain ⟨c, hc, hmore, hstop, htarget, hstay⟩ := hk.carried q hq
    have hkept : RangeKept S S' q := by
      by_cases hmem : q ∈ batch.reqs
      · refine deliver_rangeKept hd hnodup (Bool.eq_false_iff.mpr fun hdue => ?_)
        have hsettled := h.settled_of_due hi hidx hlast hflight hmem hdue
        have hlt := h.order _ (prev_lt hi) idx hidx q hq hsettled
        have hzero : turnsAgo cfg.ppSize i (cfg.prev i) = 0 := by
          rw [prev_eq hi]
          unfold turnsAgo
          split <;> split <;> omega
        omega
      · exact .of_eq (hdelivered.untouched hmem)
    refine ⟨c, hc, hmore, hkept.fillIds ▸ hstop, hkept.target.trans htarget,
      fun hown hone => hkept.prefixLen.trans (hstay (fun b hb => ?_) hone)⟩
    obtain ⟨_, _, _, rfl⟩ := hdelivered.others
    by_cases hi' : i = idx
    · subst hi'
      have hown' := hown { b with outputIds := some nextTokenIds }
      simp only [Function.update_self] at hown'
      exact hown' (by simp [Stage.modifyLast, hb])
    · refine hown b ?_
      change (Function.update S.stages idx _ i).lastBatch = .own b
      rwa [Function.update_of_ne hi']
  · exact hk.settled q ((hstages _).2.2 ▸ hq)

omit [MemoryPools M] in
theorem RoundsKept.congr {chunks' : Nat → List Chunk} (hk : RoundsKept cfg i chunks S)
    (h : ∀ q, chunks' q = chunks q) : RoundsKept cfg i chunks' S := by
  rwa [show chunks' = chunks from funext h]

end Sched

end FastPP
