import FastPP.ChunkSelection
import FastPP.AlignedStep

namespace FastPP

theorem Req.Prepared.target {r r' : Req} (h : r.Prepared r') : r'.target = r.target := by
  obtain ⟨_, _, _, _, _, _, _, rfl⟩ := h
  rfl

namespace Sched

variable {M : Type} {cfg : Config} {complete : Prop} {i : Nat} {flight : Nat → Bool}
  {S S' S'' : Sched M}

/-- The tokens of a request stay, and those of its next batch. -/
structure TokensKept (S S' : Sched M) (q : Nat) : Prop where
  fillIds : (S'.heap q).fillIds = (S.heap q).fillIds
  target : (S'.heap q).target = (S.heap q).target

theorem TokensKept.trans {q : Nat} (h : TokensKept S S' q) (h' : TokensKept S' S'' q) :
    TokensKept S S'' q :=
  ⟨h'.fillIds.trans h.fillIds, h'.target.trans h.target⟩

/-- The extend range of a request stays. -/
structure RangeKept (S S' : Sched M) (q : Nat) : Prop extends TokensKept S S' q where
  prefixLen : (S'.heap q).prefixLen = (S.heap q).prefixLen

theorem RangeKept.of_eq {q : Nat} (h : S'.heap q = S.heap q) : RangeKept S S' q :=
  ⟨⟨by rw [h], by rw [h]⟩, by rw [h]⟩

theorem RangeKept.trans {q : Nat} (h : RangeKept S S' q) (h' : RangeKept S' S'' q) :
    RangeKept S S'' q :=
  ⟨h.toTokensKept.trans h'.toTokensKept, h'.prefixLen.trans h.prefixLen⟩

theorem Received.rangeKept (hr : Received cfg S S') {q : Nat} (hq : q < S.nextReq) :
    RangeKept S S' q := by
  rcases hr.heap q with ⟨_, hS⟩ | ⟨hle, _⟩
  · exact ⟨⟨by rw [hS], by rw [hS]; rfl⟩, by rw [hS]⟩
  · omega

theorem bumpOutputLens_rangeKept (S : Sched M) (reqs : List Nat) (q : Nat) :
    RangeKept S (S.bumpOutputLens reqs) q := by
  unfold bumpOutputLens modifyReqs
  by_cases hq : q ∈ reqs
  · exact ⟨⟨by simp [hq], by simp [hq, Req.target]⟩, by simp [hq]⟩
  · exact .of_eq (by simp [hq])

theorem mergeIntoRunning_rangeKept {last : ScheduleBatch} (h : S.mergeIntoRunning last = some S')
    (q : Nat) : RangeKept S S' q := by
  unfold mergeIntoRunning at h
  split at h
  next =>
    cases Option.some.inj h
    exact .of_eq rfl
  next =>
    dsimp only at h
    have hbump := bumpOutputLens_rangeKept S last.reqs q
    split at h
    next =>
      cases Option.some.inj h
      exact hbump.trans (.of_eq rfl)
    next =>
      obtain ⟨merged, _, h⟩ := Option.bind_eq_some_iff.mp h
      cases Option.some.inj h
      exact hbump.trans (.of_eq rfl)

section Pools

variable [MemoryPools M]

theorem cacheUnfinishedReq_tokens {q : Nat} (h : S.cacheUnfinishedReq q = some S') :
    (∀ p, TokensKept S S' p) ∧ (S'.heap q).prefixLen = (S.heap q).fillIds.length := by
  obtain ⟨view, _, h⟩ := Option.bind_eq_some_iff.mp h
  cases Option.some.inj h
  refine ⟨fun p => ?_, by simp [setReq]⟩
  by_cases hp : p = q
  · subst hp
    exact ⟨by simp [setReq], by simp [setReq, Req.target]⟩
  · exact ⟨by simp [setReq, hp], by simp [setReq, hp]⟩

theorem freeReqSlot_rangeKept {q : Nat} (h : S.freeReqSlot q = some S') (p : Nat) :
    RangeKept S S' p := by
  obtain ⟨mem, _, h⟩ := Option.bind_eq_some_iff.mp h
  cases Option.some.inj h
  exact .of_eq rfl

theorem moveChunkOut_tokens {last out : ScheduleBatch} (h : S.moveChunkOut last = some (S', out)) :
    (∀ q, TokensKept S S' q) ∧ ∀ q, S.stage.beingChunkedReq = some q →
      (S.heap q).ppIdx = some S.cur → (S'.heap q).prefixLen = (S.heap q).fillIds.length := by
  unfold moveChunkOut at h
  split at h
  next hnone =>
    obtain ⟨rfl, _⟩ := Prod.mk.inj (Option.some.inj h)
    exact ⟨fun _ => ⟨rfl, rfl⟩, by simp [hnone]⟩
  next q hsome =>
    obtain ⟨_, _, h⟩ := Option.bind_eq_some_iff.mp h
    split at h
    next =>
      obtain ⟨S₁, hcache, h⟩ := Option.bind_eq_some_iff.mp h
      obtain ⟨S₂, hfree, h⟩ := Option.bind_eq_some_iff.mp h
      obtain ⟨rfl, _⟩ := Prod.mk.inj (Option.some.inj h)
      obtain ⟨hkept, hpre⟩ := cacheUnfinishedReq_tokens hcache
      have hfreed := fun p => freeReqSlot_rangeKept hfree p
      refine ⟨fun p => (hkept p).trans ⟨(hfreed p).fillIds, (hfreed p).target⟩, fun p hp _ => ?_⟩
      obtain rfl : q = p := Option.some.inj (hsome.symm.trans hp)
      exact (hfreed q).prefixLen.trans hpre
    next hidx =>
      obtain ⟨rfl, _⟩ := Prod.mk.inj (Option.some.inj h)
      refine ⟨fun _ => ⟨rfl, rfl⟩, fun p hp hcur => ?_⟩
      obtain rfl : q = p := Option.some.inj (hsome.symm.trans hp)
      exact absurd hcur hidx

/-- The merge keeps all tokens; the chunked request that stays moves its prefix to where its
last chunk stops, if that chunk was in the last batch. -/
theorem mergeLastBatch_tokens (h : S.mergeLastBatch = some S') :
    (∀ q, TokensKept S S' q) ∧ ∀ q, S.stage.beingChunkedReq = some q →
      (S.heap q).ppIdx = some S.cur →
        (S'.heap q).prefixLen = (S.heap q).fillIds.length ∨
          ((∀ b, S.stage.lastBatch = .own b → b.forwardMode.isExtend = false) ∧
            (S'.heap q).prefixLen = (S.heap q).prefixLen) := by
  unfold mergeLastBatch at h
  split at h
  next hnone =>
    cases Option.some.inj h
    refine ⟨fun _ => ⟨rfl, rfl⟩, fun q _ _ => Or.inr ⟨fun b hb => ?_, rfl⟩⟩
    rw [Stage.last, hb] at hnone
    simp at hnone
  next last hlast =>
    split at h
    next =>
      obtain ⟨⟨S₁, moved⟩, hmove, h⟩ := Option.bind_eq_some_iff.mp h
      obtain ⟨hkept, hpre⟩ := moveChunkOut_tokens hmove
      have hmerge := fun q => mergeIntoRunning_rangeKept h q
      refine ⟨fun q => (hkept q).trans ⟨(hmerge q).fillIds, (hmerge q).target⟩,
        fun q hq hcur => Or.inl ?_⟩
      exact (hmerge q).prefixLen.trans (hpre q hq hcur)
    next hmode =>
      cases Option.some.inj h
      have hbump := bumpOutputLens_rangeKept S last.reqs
      refine ⟨fun q => (hbump q).toTokensKept, fun q _ _ => Or.inr ⟨fun b hb => ?_, (hbump q).prefixLen⟩⟩
      rw [Stage.last, hb] at hlast
      rw [Option.some.inj hlast]
      simpa using hmode

theorem rebalanceIfEnabled_heap {tpot : Rat} (h : S.rebalanceIfEnabled cfg tpot = some S') :
    S'.heap = S.heap := by
  unfold rebalanceIfEnabled at h
  split at h
  next =>
    obtain ⟨_, _, _, rfl, _⟩ := (rebalance_moved h).1
    rfl
  next => rw [Option.some.inj h]

/-- The fetched request continues where its last chunk stops. -/
theorem fetchChunkedPrefill_tokens (h : S.fetchChunkedPrefill cfg = some S') :
    (∀ q, TokensKept S S' q) ∧ S'.chunkedPrefillSize = S.chunkedPrefillSize ∧
      (cfg.ppSize = 1 → S' = S) ∧
      (cfg.ppSize ≠ 1 → ∀ q, (S.stages (cfg.prev S.cur)).beingChunkedReq = some q →
        (S'.heap q).prefixLen = (S.heap q).fillIds.length) := by
  unfold fetchChunkedPrefill at h
  split at h
  next hone =>
    cases Option.some.inj h
    exact ⟨fun _ => ⟨rfl, rfl⟩, rfl, fun _ => rfl, fun hne => absurd hone hne⟩
  next hne =>
    split at h
    next hnone =>
      cases Option.some.inj h
      refine ⟨fun _ => ⟨rfl, rfl⟩, rfl, fun hone => absurd hone hne, fun _ q hq => ?_⟩
      rw [Config.prev, hnone] at hq
      simp at hq
    next q hsome =>
      obtain ⟨S₁, hcache, h⟩ := Option.bind_eq_some_iff.mp h
      obtain ⟨hkept, hpre⟩ := cacheUnfinishedReq_tokens hcache
      have hfree := fun p => freeReqSlot_rangeKept h p
      refine ⟨fun p => ?_, ?_, fun hone => absurd hone hne, fun _ p hp => ?_⟩
      · exact ⟨(hfree p).fillIds.trans (hkept p).fillIds, (hfree p).target.trans (hkept p).target⟩
      · obtain ⟨view, _, hcache⟩ := Option.bind_eq_some_iff.mp hcache
        obtain ⟨mem, _, h⟩ := Option.bind_eq_some_iff.mp h
        cases Option.some.inj hcache
        cases Option.some.inj h
        rfl
      · obtain rfl : q = p := Option.some.inj (hsome.symm.trans hp)
        exact (hfree q).prefixLen.trans hpre

end Pools

/-- The chunks of all requests so far, before the turn of `i`: the carried request has some
tokens left, and no other one that was prefilled has. -/
structure RoundsKept (cfg : Config) (i : Nat) (chunks : Nat → List Chunk) (S : Sched M) :
    Prop where
  rounds : ∀ q, InRounds (chunks q)
  carried : ∀ q, (S.stages (cfg.prev i)).beingChunkedReq = some q → ∃ c,
    (chunks q).getLast? = some c ∧ c.isLast = false ∧ (S.heap q).fillIds.length = c.stop ∧
      (S.heap q).target = c.target ∧ ((∀ b, (S.stages i).lastBatch ≠ .own b) →
        cfg.ppSize = 1 → (S.heap q).prefixLen = c.stop)
  settled : ∀ q, (S.stages (cfg.prev i)).beingChunkedReq ≠ some q → ∀ c,
    (chunks q).getLast? = some c → c.isLast = true
  pending : ∀ q ∈ reqsOf S.pendingBatch, chunks q ≠ []
  begun : ∀ j < cfg.ppSize, ∀ q ∈ (S.stages j).settled, chunks q ≠ []

/-- The same within the turn of `i`, where the carried request continues next. -/
structure RoundsInTurn (cfg : Config) (i : Nat) (chunks : Nat → List Chunk) (S : Sched M) :
    Prop where
  rounds : ∀ q, InRounds (chunks q)
  carried : ∀ q, (S.stages (cfg.prev i)).beingChunkedReq = some q → ∃ c,
    (chunks q).getLast? = some c ∧ c.isLast = false ∧ (S.heap q).fillIds.length = c.stop ∧
      (S.heap q).target = c.target ∧ (cfg.ppSize = 1 → (S.heap q).prefixLen = c.stop)
  settled : ∀ q, (S.stages (cfg.prev i)).beingChunkedReq ≠ some q → ∀ c,
    (chunks q).getLast? = some c → c.isLast = true
  pending : ∀ q ∈ reqsOf S.pendingBatch, chunks q ≠ []
  running : ∀ q ∈ reqsOf (S.stages i).runningBatch, chunks q ≠ []
  others : ∀ j < cfg.ppSize, j ≠ i → ∀ q ∈ (S.stages j).settled, chunks q ≠ []

variable {chunks : Nat → List Chunk}

theorem RoundsKept.receive (hi : i < cfg.ppSize) (h : Placed complete cfg i flight S)
    (hk : RoundsKept cfg i chunks S) (hr : Received cfg S S') : RoundsKept cfg i chunks S' := by
  refine ⟨hk.rounds, fun q hq => ?_, fun q hq => ?_, fun q hq => ?_, fun j hj q hq => ?_⟩
  · rw [hr.stages] at hq ⊢
    have hkept := hr.rangeKept (h.fresh _ (prev_lt hi) q hq)
    rw [hkept.fillIds, hkept.target, hkept.prefixLen]
    exact hk.carried q hq
  · rw [hr.stages] at hq
    exact hk.settled q hq
  · exact hk.pending q (hr.pendingBatch ▸ hq)
  · exact hk.begun j hj q (hr.stages ▸ hq)

variable [MemoryPools M]

theorem RoundsKept.merge (hi : i < cfg.ppSize) (h : Placed complete cfg i flight S)
    (hk : RoundsKept cfg i chunks S) (hcur : S.cur = i) (hlanded : flight i = false)
    (hm : S.mergeLastBatch = some S') : RoundsInTurn cfg i chunks S' := by
  obtain ⟨htokens, hpre⟩ := mergeLastBatch_tokens hm
  have hturn := h.merge hi hcur hlanded hm
  have hstage : S.stage = S.stages i := by rw [stage, hcur]
  obtain ⟨hframe, hpending⟩ : Frame S S' ∧ S'.pendingBatch = S.pendingBatch := by
    rcases mergeLastBatch_spec hm with ⟨_, _, _, hmerged⟩ | ⟨_, hquiet⟩
    · exact ⟨hmerged.toFrame, hmerged.pendingBatch⟩
    · exact ⟨hquiet.toFrame, hquiet.pendingBatch⟩
  have hstages : ∀ j, j ≠ i → S'.stages j = S.stages j := fun j hj => hframe.stages j (hcur ▸ hj)
  have hrunning : ∀ q ∈ reqsOf (S'.stages i).runningBatch, q ∈ (S.stages i).settled := by
    intro q hq
    have hstage' : S'.stages i = S'.stage := by rw [stage, hframe.cur, hcur]
    rcases h.merge_cases hi hcur hm with ⟨last, hown, hmerged⟩ | ⟨_, hquiet⟩
    · rw [hstage', hmerged.running, hstage] at hq
      rcases List.mem_append.mp hq with hq | hq
      · exact List.mem_append_left _ hq
      · refine List.mem_append_right _ ?_
        have hsub := (joining_sublist : (S.joining last).Sublist _).subset hq
        rw [hstage] at hsub
        simpa [Stage.ownReqs, hown] using hsub
    · rw [hquiet.allStages] at hq
      exact List.mem_append_left _ hq
  -- the carried request is the same one before and after the merge
  have hsame : (S'.stages (cfg.prev i)).beingChunkedReq =
      (S.stages (cfg.prev i)).beingChunkedReq := by
    by_cases hself : cfg.prev i = i
    · have hone := (prev_self hi).mp hself
      have hstage' : S'.stages i = S'.stage := by rw [stage, hframe.cur, hcur]
      rw [hself]
      rcases h.merge_cases hi hcur hm with ⟨last, _, hmerged⟩ | ⟨_, hquiet⟩
      · rw [hstage', hmerged.beingChunkedReq, chunkLeft, hstage]
        cases hb : (S.stages i).beingChunkedReq with
        | none => rfl
        | some q =>
          have hidx := (h.ppIdx i hi q hb).mpr hself.symm
          simp [Option.filter, hidx, hcur]
      · rw [hquiet.allStages]
    · rw [hstages _ hself]
  refine ⟨hk.rounds, fun q hq => ?_, fun q hq => ?_, fun q hq => ?_, fun q hq => ?_,
    fun j hj hne q hq => ?_⟩
  · rw [hsame] at hq
    obtain ⟨c, hlast, hmore, hstop, htarget, hstay⟩ := hk.carried q hq
    refine ⟨c, hlast, hmore, (htokens q).fillIds ▸ hstop, (htokens q).target.trans htarget,
      fun hone => ?_⟩
    have hself := (prev_self hi).mpr hone
    rw [hself] at hq
    have hidx := (h.ppIdx i hi q hq).mpr hself.symm
    rcases hpre q (hstage ▸ hq) (hcur ▸ hidx) with hmoved | ⟨hnot, hkept⟩
    · exact hmoved.trans hstop
    · refine hkept.trans (hstay (fun b hb => ?_) hone)
      have hmode := hnot b (hstage ▸ hb)
      rw [((h.stages i hi).own b hb).1] at hmode
      simp at hmode
  · exact hk.settled q (hsame ▸ hq)
  · exact hk.pending q (hpending ▸ hq)
  · exact hk.begun i hi q (hrunning q hq)
  · exact hk.begun j hj q (hstages j hne ▸ hq)

theorem RoundsInTurn.rebalance {tpot : Rat} (h : InTurn complete cfg i flight S)
    (hk : RoundsInTurn cfg i chunks S) (hr : S.rebalanceIfEnabled cfg tpot = some S') :
    RoundsInTurn cfg i chunks S' := by
  have hheap := rebalanceIfEnabled_heap hr
  unfold rebalanceIfEnabled at hr
  split at hr
  next =>
    obtain ⟨hbatches, hperm⟩ := rebalance_moved hr
    have hframe := hbatches.toFrame
    have hstage : S.stage = S.stages i := by rw [stage, h.cur]
    have hstage' : S'.stage = S'.stages i := by rw [stage, hframe.cur, h.cur]
    have hstages : ∀ j, j ≠ i → S'.stages j = S.stages j := fun j hj =>
      hframe.stages j (h.cur ▸ hj)
    have hchunk : ∀ j, (S'.stages j).beingChunkedReq = (S.stages j).beingChunkedReq := by
      intro j
      by_cases hj : j = i
      · obtain ⟨stage, _, _, hS, hb⟩ := hbatches
        rw [hj, ← hstage, ← hb, ← hstage', hS]
        exact congrArg Stage.beingChunkedReq (setStage_stage S stage)
      · rw [hstages j hj]
    have hmoved : ∀ q ∈ reqsOf S'.stage.runningBatch ++ reqsOf S'.pendingBatch,
        chunks q ≠ [] := by
      intro q hq
      rcases List.mem_append.mp (hperm.mem_iff.mp hq) with hq | hq
      · exact hk.running q (hstage ▸ (List.mem_filter.mp hq).1)
      · exact hk.pending q hq
    refine ⟨hk.rounds, fun q hq => ?_, fun q hq => hk.settled q (hchunk _ ▸ hq),
      fun q hq => hmoved q (List.mem_append_right _ hq), fun q hq => ?_,
      fun j hj hne q hq => hk.others j hj hne q (hstages j hne ▸ hq)⟩
    · rw [hheap]
      exact hk.carried q (hchunk _ ▸ hq)
    · exact hmoved q (List.mem_append_left _ (hstage' ▸ hq))
  next =>
    rw [← Option.some.inj hr]
    exact hk

end Sched

end FastPP
