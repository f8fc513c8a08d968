import FastPP.RoundsStep
import FastPP.BatchCalls

namespace FastPP

/-- The requests of a batch that generate their next token with it. -/
def ScheduleBatch.decodes (batch : ScheduleBatch) : List Nat :=
  if batch.forwardMode.isDecode then batch.reqs else batch.decodingReqs.getD []

namespace Sched

variable {M : Type} [MemoryPools M] {cfg : Config} {complete : Prop} {i idx : Nat}
  {flight : Nat → Bool}
  {S S' : Sched M} {chunks : Nat → List Chunk}

/-- No prefill batch is formed without a call of `prepare_for_extend`. -/
theorem extendCall_eq_none {input : StepInput} {balanced : Sched M}
    (hbefore : S.beforePrefill cfg input = some balanced)
    (h : balanced.getNewBatchPrefill cfg = some (S', none)) : S.extendCall cfg input = none := by
  obtain ⟨S₁, hfetch, h⟩ := Option.bind_eq_some_iff.mp h
  unfold extendCall
  rw [hbefore]
  simp only [Option.bind_eq_bind, Option.bind_some, hfetch]
  unfold prefillFetched at h
  split at h
  next hskip => rw [if_pos hskip]
  next hgoes =>
    rw [if_neg hgoes]
    split at h
    next hfull => rw [if_pos hfull]
    next hroom =>
      rw [if_neg hroom]
      obtain ⟨⟨S₂, adder⟩, hselect, hform⟩ := Option.bind_eq_some_iff.mp h
      rcases formPrefill_spec hform with ⟨hnil, _⟩ | ⟨_, _, hsome, _⟩
      · have hnil : adder.canRunList = [] := hnil
        simp [hselect, hnil]
      · simp at hsome

/-- Scheduling reads the waiting queue as the messages left it. -/
theorem beforePrefill_waitingQueue {input : StepInput} {balanced : Sched M}
    (h : S.beforePrefill cfg input = some balanced) :
    balanced.waitingQueue = (S.receive cfg input).waitingQueue := by
  obtain ⟨merged, hmerge, hr⟩ := Option.bind_eq_some_iff.mp h
  have hmerged : merged.waitingQueue = (S.receive cfg input).waitingQueue := by
    rcases mergeLastBatch_spec hmerge with ⟨_, _, _, hmerged⟩ | ⟨_, hquiet⟩
    · exact hmerged.waitingQueue
    · exact hquiet.waitingQueue
  rw [← hmerged]
  unfold rebalanceIfEnabled at hr
  split at hr
  next =>
    obtain ⟨_, _, _, rfl, _⟩ := (rebalance_moved hr).1
    rfl
  next => rw [Option.some.inj hr]

theorem mixChunk_decodingReqs {batch out : ScheduleBatch}
    (h : S.mixChunk cfg batch = some (S', out)) (hnone : batch.decodingReqs = none) :
    ∀ q ∈ out.decodingReqs.getD [], q ∈ reqsOf S.stage.runningBatch := by
  have hsame : ∀ q ∈ batch.decodingReqs.getD [], q ∈ reqsOf S.stage.runningBatch := by
    simp [hnone]
  unfold mixChunk at h
  split at h
  next =>
    obtain ⟨_, rfl⟩ := Prod.mk.inj (Option.some.inj h)
    exact hsame
  next running hrun =>
    split at h
    next =>
      obtain ⟨filtered, hfilter, h⟩ := Option.bind_eq_some_iff.mp h
      obtain ⟨⟨S₁, mixed⟩, hmixed, h⟩ := Option.bind_eq_some_iff.mp h
      obtain ⟨_, rfl⟩ := Prod.mk.inj (Option.some.inj h)
      unfold mixUnfinished at hmixed
      split at hmixed
      next =>
        obtain ⟨_, rfl⟩ := Prod.mk.inj (Option.some.inj hmixed)
        exact hsame
      next =>
        obtain ⟨⟨S₂, decode⟩, hdecode, hmixed⟩ := Option.bind_eq_some_iff.mp hmixed
        obtain ⟨_, _, hmixed⟩ := Option.bind_eq_some_iff.mp hmixed
        obtain ⟨_, _, hmixed⟩ := Option.bind_eq_some_iff.mp hmixed
        obtain ⟨_, _, hmixed⟩ := Option.bind_eq_some_iff.mp hmixed
        obtain ⟨_, _, hmixed⟩ := Option.bind_eq_some_iff.mp hmixed
        obtain ⟨_, _, hmixed⟩ := Option.bind_eq_some_iff.mp hmixed
        obtain ⟨_, rfl⟩ := Prod.mk.inj (Option.some.inj hmixed)
        intro q hq
        have hmem : q ∈ decode.reqs := hq
        rw [(prepareForDecode_spec hdecode).2.1, ScheduleBatch.filterBatch_reqs hfilter] at hmem
        simpa [reqsOf, hrun] using (List.mem_filter.mp hmem).1
    next =>
      obtain ⟨_, rfl⟩ := Prod.mk.inj (Option.some.inj h)
      exact hsame

theorem prepareForExtend_decodingReqs {reqs : List Nat} {batch : ScheduleBatch}
    (h : S.prepareForExtend reqs = some (S', batch)) : batch.decodingReqs = none := by
  obtain ⟨_, _, h⟩ := Option.bind_eq_some_iff.mp h
  obtain ⟨_, _, h⟩ := Option.bind_eq_some_iff.mp h
  obtain ⟨_, _, h⟩ := Option.bind_eq_some_iff.mp h
  obtain ⟨_, _, h⟩ := Option.bind_eq_some_iff.mp h
  obtain ⟨_, rfl⟩ := Prod.mk.inj (Option.some.inj h)
  rfl

omit [MemoryPools M] in
/-- The running requests have had their last chunks. -/
theorem RoundsInTurn.ended (h : InTurn complete cfg i flight S) (hk : RoundsInTurn cfg i chunks S)
    {q : Nat}
    (hq : q ∈ reqsOf (S.stages i).runningBatch) :
    ∃ c, (chunks q).getLast? = some c ∧ c.isLast = true := by
  obtain ⟨c, hc⟩ := Option.isSome_iff_exists.mp (List.getLast?_isSome.mpr (hk.running q hq))
  refine ⟨c, hc, hk.settled q (fun hsome => ?_) c hc⟩
  have hle := h.once.le_one q
  have hpos := List.count_pos_iff.mpr hq
  simp only [turnPlaces, List.count_append, hsome, Option.toList_some,
    List.count_singleton_self] at hle
  omega

/-- What one iteration dispatches at index `i`: each chunk that goes on is recorded with its
batch, and only requests whose last chunk was dispatched before decode. -/
structure Dispatched (cfg : Config) (input : StepInput) (i : Nat) (chunks : Nat → List Chunk)
    (S T : Sched M) (out : Option ScheduleBatch) : Prop where
  kept : RoundsKept cfg ((i + 1) % cfg.ppSize)
    (fun q => chunks q ++ (S.chunkOf cfg input q).toList) (T.setLastBatch out)
  decodes : ∀ b, out = some b → ∀ q ∈ b.decodes,
    ∃ c, (chunks q).getLast? = some c ∧ c.isLast = true
  last : ((T.setLastBatch out).stages i).last = out
  goesOn : ∀ q, ((T.setLastBatch out).stages i).beingChunkedReq = some q ∧
      q ∈ ((T.setLastBatch out).stages i).ownReqs ↔
    (S.chunkOf cfg input q).any (fun c => !c.isLast) = true

/-- The batch that comes out of scheduling continues the chunks. -/
theorem RoundsKept.schedule {input : StepInput} {merged balanced prefilled decoded : Sched M}
    {newBatch out : Option ScheduleBatch} (hi : i < cfg.ppSize) (h : Placed complete cfg i flight S)
    (hk : RoundsKept cfg i chunks S) (hcur : (S.receive cfg input).cur = i)
    (hlanded : flight i = false) (hroom : ¬ S.FetchesWhenFull cfg input)
    (hbudget : balanced.ChunkBudget cfg)
    (p : SchedulePhases cfg input S merged balanced prefilled decoded newBatch out) :
    Dispatched cfg input i chunks S decoded out := by
  have hreceived := receive_spec cfg input S
  have hreceive := h.receive hreceived
  have hmerged := hreceive.merge hi hcur hlanded p.merge
  have hturn := hmerged.rebalance p.rebalance
  have hin := ((hk.receive hi h hreceived).merge hi hreceive hcur hlanded p.merge).rebalance hmerged
    p.rebalance
  have hbefore := p.beforePrefill
  have hstage : balanced.stage = balanced.stages i := by rw [stage, hturn.cur]
  have hprefill := p.prefill
  rcases getNewBatchPrefill_spec hprefill with
    ⟨rfl, hnot⟩ | ⟨batch, fetched, selected, adder, rfl, hphases, hpre⟩
  · have hdecode := p.decode
    rcases orDecode_spec hdecode with ⟨hsome, _⟩ | ⟨_, hdecoded⟩
    · simp at hsome
    · have hfull : cfg.ppSize = 1 ∨ (balanced.stages (cfg.prev i)).beingChunkedReq = none := by
        by_contra hcon
        rw [not_or] at hcon
        refine hroom ⟨balanced, hbefore, hcon.1,
          hturn.cur.symm ▸ Option.isSome_iff_ne_none.mpr hcon.2, ?_⟩
        exact hnot.full.resolve_left fun hfetched =>
          hcon.2 ((hturn.fetched hi).symm.trans hfetched)
      have hcur' : decoded.cur = i := hdecoded.toFrame.cur.trans (hnot.toFrame.cur.trans hturn.cur)
      have hnone : ∀ q, S.chunkOf cfg input q = none := fun q => by
        rw [chunkOf, extendCall_eq_none hbefore hprefill]
        rfl
      have hlast := (setLastBatch_stages decoded out).2
      rw [hcur'] at hlast
      have hrun : decoded.stage.runningBatch = out := hdecoded.running
      refine ⟨?_, fun b hb q hq => ?_, ?_, fun q => ?_⟩
      · refine (hin.decode hi hturn hprefill hnot hdecode hdecoded hfull).congr fun q => ?_
        simp [hnone]
      · obtain ⟨_, _, hperm⟩ := hdecoded.retracted
        have hmode := (hdecoded.mode b hb).1
        rw [ScheduleBatch.decodes, hmode, if_pos (by rfl)] at hq
        have hmem := hperm.subset (List.mem_append_left _ (show q ∈ reqsOf out by
          simpa [reqsOf, hb] using hq))
        rw [unfinishedRunning, hnot.stage, hstage] at hmem
        exact hin.ended hturn (List.mem_filter.mp hmem).1
      · rw [hlast]
        cases hout : out with
        | none => rfl
        | some b =>
          simp only [(hdecoded.mode b hout).1, Stage.last, ForwardMode.isDecode, if_true]
          rw [hrun, hout]
      · rw [hnone, hlast]
        cases hout : out with
        | none => simp [Stage.ownReqs]
        | some b => simp [Stage.ownReqs, (hdecoded.mode b hout).1, ForwardMode.isDecode]
  · obtain ⟨_, formed, chunk, extended, hx⟩ := hphases.extends
    have hcall := hphases.extendCall hbefore hprefill hx.carried
    have hchunkOf : ∀ q, S.chunkOf cfg input q = if q ∈ adder.canRunList then
        some ((selected.heap q).chunk (decide (q ∈ balanced.waitingQueue))) else none := by
      intro q
      rw [chunkOf, hcall, beforePrefill_waitingQueue hbefore]
      have htake := takeListed_heap selected adder.canRunList chunk q
      have hsame : ∀ fresh, ((selected.takeListed adder.canRunList chunk).heap q).chunk fresh =
          (selected.heap q).chunk fresh := fun fresh => by
        simp only [Req.chunk, htake.1, htake.2.1, htake.2.2]
      change (if q ∈ adder.canRunList then some (Req.chunk _ _) else none) = _
      rw [hsame]
    have hcalls := fun q (hq : q ∈ adder.canRunList) =>
      hin.call hi hturn hbudget hphases.fetch hphases.select hx.carried hq
    have hmix := mixChunk_spec (by rw [(prepareForExtend_spec hx.extend).2.2]; rfl) hx.mix
    have hquiet := (prepareForExtend_spec hx.extend).1
    have hchunk : prefilled.stage.beingChunkedReq = chunk := by
      rw [hmix.beingChunkedReq, hquiet.stage, takeListed_stage]
    rcases orDecode_spec p.decode with ⟨_, rfl, rfl⟩ | ⟨hnone, _⟩
    · have hcur' : decoded.cur = i := by rw [Sched.cur, hpre.curPP]; exact hturn.cur
      have hlast := (setLastBatch_stages decoded (some batch)).2
      rw [hcur'] at hlast
      simp only [hpre.isDecode, Bool.false_eq_true, if_false] at hlast
      refine ⟨?_, fun b hb q hq => ?_, by rw [hlast]; rfl, fun q => ?_⟩
      · refine (hin.prefill hi hturn hbudget hphases hpre).congr fun q => ?_
        simp only [hchunkOf, withListed]
        split <;> rfl
      · obtain rfl := Option.some.inj hb
        rw [ScheduleBatch.decodes, hpre.isDecode] at hq
        have hmem := mixChunk_decodingReqs hx.mix (prepareForExtend_decodingReqs hx.extend) q
          (by simpa using hq)
        obtain ⟨_, hstage', _⟩ := (selectPrefill_spec hphases.select).stage
        rw [hquiet.stage, takeListed_stage, hstage',
          (fetchChunkedPrefill_spec hphases.fetch).stage] at hmem
        exact hin.ended hturn (hstage ▸ hmem)
      · rw [hlast, hchunkOf]
        change decoded.stage.beingChunkedReq = some q ∧ q ∈ batch.reqs ↔ _
        rw [hchunk]
        have hsub : ∀ q ∈ adder.canRunList, q ∈ batch.reqs := fun q hq => by
          rcases hpre.reqs with ⟨hreqs, _⟩ | ⟨hreqs, _⟩ <;> rw [hreqs] <;> simp [hq]
        by_cases hq : q ∈ adder.canRunList
        · have hends := (hcalls q hq).2
          rw [if_pos hq, Option.any_some]
          cases hl : ((selected.heap q).chunk (decide (q ∈ balanced.waitingQueue))).isLast with
          | true => simpa using fun hsome => absurd hsome (hends.mp hl)
          | false =>
            have hgoes : chunk = some q := by
              by_contra hne
              rw [hends.mpr hne] at hl
              simp at hl
            simpa [hgoes] using hsub q hq
        · rw [if_neg hq]
          simpa using fun hsome => absurd (hpre.chunk q (hchunk.trans hsome)) hq
    · simp at hnone

end Sched

theorem Stage.modifyLast_last_reqs (stage : Stage) {f : ScheduleBatch → ScheduleBatch}
    (hreqs : ∀ b, (f b).reqs = b.reqs) : reqsOf (stage.modifyLast f).last = reqsOf stage.last := by
  obtain ⟨running, last, chunk⟩ := stage
  cases last with
  | idle => rfl
  | own b => simp [modifyLast, Stage.last, reqsOf, hreqs]
  | running => cases running <;> simp [modifyLast, Stage.last, reqsOf, hreqs]

namespace Sched

variable {M : Type} {cfg : Config} {complete : Prop} {i idx n : Nat} {flight : Nat → Bool}
  {S S' : Sched M}
  {batch : Nat → List Nat} {goesOn : Nat → Nat → Bool}

/-- Each micro-batch holds the batch that was dispatched at its last turn, before step `n`, with
a record of the chunk that goes on after it. -/
structure Flights (cfg : Config) (i n : Nat) (batch : Nat → List Nat)
    (goesOn : Nat → Nat → Bool) (S : Sched M) : Prop where
  last : ∀ j < cfg.ppSize, reqsOf (S.stages j).last =
    if turnsAgo cfg.ppSize i j < n then batch (n - 1 - turnsAgo cfg.ppSize i j) else []
  goesOn : ∀ j < cfg.ppSize, ∀ q,
    ((S.stages j).beingChunkedReq = some q ∧ q ∈ (S.stages j).ownReqs) ↔
      turnsAgo cfg.ppSize i j < n ∧ goesOn (n - 1 - turnsAgo cfg.ppSize i j) q = true

/-- The turn of `i` replaces its batch; all others are one step older. -/
theorem Flights.dispatch (hi : i < cfg.ppSize) (h : Flights cfg i n batch goesOn S)
    (hstages : ∀ j, j ≠ i → S'.stages j = S.stages j)
    (hlast : reqsOf (S'.stages i).last = batch n)
    (hgoes : ∀ q, ((S'.stages i).beingChunkedReq = some q ∧ q ∈ (S'.stages i).ownReqs) ↔
      goesOn n q = true) : Flights cfg ((i + 1) % cfg.ppSize) (n + 1) batch goesOn S' := by
  have hage : ∀ j < cfg.ppSize, j ≠ i →
      (turnsAgo cfg.ppSize ((i + 1) % cfg.ppSize) j < n + 1 ↔ turnsAgo cfg.ppSize i j < n) ∧
        n + 1 - 1 - turnsAgo cfg.ppSize ((i + 1) % cfg.ppSize) j =
          n - 1 - turnsAgo cfg.ppSize i j := by
    intro j hj hne
    rw [turnsAgo_succ hi hj hne]
    constructor <;> omega
  refine ⟨fun j hj => ?_, fun j hj q => ?_⟩
  · by_cases hne : j = i
    · rw [hne, turnsAgo_succ_self hi, if_pos (by omega), hlast]
      rfl
    · simp only [hage j hj hne, hstages j hne]
      exact h.last j hj
  · by_cases hne : j = i
    · rw [hne, turnsAgo_succ_self hi, hgoes]
      simp
    · rw [hstages j hne, (hage j hj hne).1, (hage j hj hne).2]
      exact h.goesOn j hj q

theorem Flights.congr (h : Flights cfg i n batch goesOn S)
    (hlast : ∀ j, reqsOf (S'.stages j).last = reqsOf (S.stages j).last)
    (hown : ∀ j, (S'.stages j).ownReqs = (S.stages j).ownReqs)
    (hchunk : ∀ j, (S'.stages j).beingChunkedReq = (S.stages j).beingChunkedReq) :
    Flights cfg i n batch goesOn S' := by
  refine ⟨fun j hj => (hlast j).trans (h.last j hj), fun j hj q => ?_⟩
  rw [hown, hchunk]
  exact h.goesOn j hj q

theorem flights_init (cfg : Config) (r : Nat) (mem : M) :
    Flights cfg 0 0 batch goesOn (Sched.init cfg r mem) := by
  refine ⟨fun j _ => ?_, fun j _ q => ?_⟩
  · rw [if_neg (by omega)]
    rfl
  · simp [Sched.init]

/-- The result of a batch is dropped for the chunk that goes on, whose counter is positive, and
for no other request of the batch. -/
theorem Placed.arrives {b : ScheduleBatch} (hi : i < cfg.ppSize) (h : Placed True cfg i flight S)
    (hidx : idx < cfg.ppSize) (hlast : (S.stages idx).last = some b) (hflight : flight idx = true)
    (holdest : ∀ j < cfg.ppSize, flight j = true → j ≠ idx →
      turnsAgo cfg.ppSize i j < turnsAgo cfg.ppSize i idx) {q : Nat} (hq : q ∈ b.reqs) :
    (dueOf b (S.heap q).isBeingChunked = true ↔
        ¬ ((S.stages idx).beingChunkedReq = some q ∧ q ∈ (S.stages idx).ownReqs)) ∧
      ((S.heap q).isBeingChunked = 0 ↔
        ¬ ((S.stages idx).beingChunkedReq = some q ∧ q ∈ (S.stages idx).ownReqs)) := by
  have hdue := h.due_iff hi trivial hidx hlast hflight holdest hq
  have hapart : (S.stages idx).beingChunkedReq = some q → q ∉ (S.stages idx).settled :=
    fun hchunk hmem => absurd (h.order idx hidx idx hidx q hchunk hmem) (by omega)
  have hzero : q ∈ (S.stages idx).settled → (S.heap q).isBeingChunked = 0 := by
    intro hsettled
    rw [h.exact trivial q, Int.natCast_eq_zero]
    refine List.countP_eq_zero.mpr fun j hj => ?_
    simp only [Bool.and_eq_true, decide_eq_true_eq, not_and]
    intro hflies hchunk _
    have hne : j ≠ idx := by
      rintro rfl
      exact hapart hchunk hsettled
    have hyoung := h.order j (List.mem_range.mp hj) idx hidx q hchunk hsettled
    have hold := holdest j (List.mem_range.mp hj) hflies hne
    omega
  have hgoes : q ∈ (S.stages idx).settled ↔
      ¬ ((S.stages idx).beingChunkedReq = some q ∧ q ∈ (S.stages idx).ownReqs) := by
    rcases (h.last_cases hi hidx hlast).2 with ⟨hown, _⟩ | ⟨hrun, hsome, _⟩
    · have hreqs : (S.stages idx).ownReqs = b.reqs := by rw [Stage.ownReqs, hown]
      constructor
      · exact fun hsettled hgoes => hapart hgoes.1 hsettled
      · intro hnot
        refine List.mem_append_right _ (List.mem_filter.mpr ⟨hreqs ▸ hq, ?_⟩)
        simpa using fun hchunk => hnot ⟨hchunk, hreqs ▸ hq⟩
    · have hnil : (S.stages idx).ownReqs = [] :=
        Stage.ownReqs_eq_nil fun b hb => by rw [hrun] at hb; simp at hb
      refine iff_of_true (List.mem_append_left _ ?_) (by simp [hnil])
      simpa [reqsOf, hsome] using hq
  refine ⟨hdue.trans hgoes, ⟨fun hcount => ?_, fun hnot => hzero (hgoes.mpr hnot)⟩⟩
  refine hgoes.mp (hdue.mp ?_)
  simp [dueOf, hcount]

section Arriving

variable {r : Nat}

/-- The batch whose result arrives at the end of the turn of `i` was dispatched
`pp_size - 1 - pp_rank` steps before. -/
theorem Flights.arriving (hr : r < cfg.ppSize) (hi : i < cfg.ppSize)
    (hf : Flights cfg ((i + 1) % cfg.ppSize) (n + 1) batch goesOn S) :
    reqsOf (S.stages ((r + i + 1) % cfg.ppSize)).last =
        (if cfg.ppSize - 1 - r ≤ n then batch (n - (cfg.ppSize - 1 - r)) else []) ∧
      ∀ q ∈ reqsOf (S.stages ((r + i + 1) % cfg.ppSize)).last,
        ((S.stages ((r + i + 1) % cfg.ppSize)).beingChunkedReq = some q ∧
          q ∈ (S.stages ((r + i + 1) % cfg.ppSize)).ownReqs) ↔
        goesOn (n - (cfg.ppSize - 1 - r)) q = true := by
  have hlt : (r + i + 1) % cfg.ppSize < cfg.ppSize := Nat.mod_lt _ (by omega)
  have hbatch := hf.last _ hlt
  have hgoes := hf.goesOn _ hlt
  rw [turnsAgo_arriving hr hi, Nat.add_sub_cancel] at hbatch hgoes
  simp only [Nat.lt_succ_iff] at hbatch hgoes
  refine ⟨hbatch, fun q hq => ?_⟩
  rw [hbatch] at hq
  by_cases hle : cfg.ppSize - 1 - r ≤ n
  · exact (hgoes q).trans (and_iff_right hle)
  · simp [hle] at hq

variable {out : Option ScheduleBatch}

/-- The result takes effect for every request of its batch but the one whose chunk goes on,
which alone is still counted as chunked. -/
theorem Flights.arrives (hr : r < cfg.ppSize) (hi : i < cfg.ppSize)
    (h : Placed True cfg ((i + 1) % cfg.ppSize)
      (fun j => decide (j = i) || flying cfg.ppSize (cfg.ppSize - 1 - r) i j) S)
    (hf : Flights cfg ((i + 1) % cfg.ppSize) (n + 1) batch goesOn S) {b : ScheduleBatch}
    (hlast : (S.stages ((r + i + 1) % cfg.ppSize)).last = some b) {q : Nat} (hq : q ∈ b.reqs) :
    (dueOf b (S.heap q).isBeingChunked = true ↔
        goesOn (n - (cfg.ppSize - 1 - r)) q = false) ∧
      ((S.heap q).isBeingChunked = 0 ↔ goesOn (n - (cfg.ppSize - 1 - r)) q = false) := by
  have hlt : (r + i + 1) % cfg.ppSize < cfg.ppSize := Nat.mod_lt _ (by omega)
  obtain ⟨hflight, holdest, _⟩ := flying_next hr hi
  have hgoes := (hf.arriving hr hi).2 q (by simpa [hlast, reqsOf] using hq)
  have harrive := h.arrives (Nat.mod_lt _ (by omega)) hlt hlast hflight holdest hq
  rwa [hgoes, Bool.not_eq_true] at harrive

/-- The tokens of the result that arrives at the end of the iteration that dispatches `out`. -/
def arrivingTokens (cfg : Config) (sample : Nat → Nat) (S : Sched M) (out : Option ScheduleBatch) :
    List Nat :=
  (runBatch cfg sample out ((S.setLastBatch out).stages S.curPP.getPp).last).getD []

/-- What the result of a step appends to `output_ids`. -/
theorem Flights.appends [MemoryPools M] {sample : Nat → Nat} (hr : r < cfg.ppSize)
    (hi : i < cfg.ppSize) (hidx : S.curPP.getPp = (r + i + 1) % cfg.ppSize)
    (h : Placed True cfg ((i + 1) % cfg.ppSize)
      (fun j => decide (j = i) || flying cfg.ppSize (cfg.ppSize - 1 - r) i j)
      (S.setLastBatch out))
    (hf : Flights cfg ((i + 1) % cfg.ppSize) (n + 1) batch goesOn (S.setLastBatch out))
    (hall : S.ResultComplete cfg sample out)
    (hfinish : S.finishStep cfg sample out = some S') (q : Nat) :
    (S'.heap q).outputIds = (S.heap q).outputIds ++
      if cfg.ppSize - 1 - r ≤ n ∧ q ∈ batch (n - (cfg.ppSize - 1 - r)) ∧
          goesOn (n - (cfg.ppSize - 1 - r)) q = false then
        [(S.arrivingTokens cfg sample out).getD ((batch (n - (cfg.ppSize - 1 - r))).idxOf q) 0]
      else [] := by
  have hlt : (r + i + 1) % cfg.ppSize < cfg.ppSize := Nat.mod_lt _ (by omega)
  have hbatch := (hf.arriving hr hi).1
  rcases (h.finish hr hi hidx (fun _ => hall) hfinish).2 with
    ⟨b, nextTokenIds, hlast, hresult, hdeliver, hdelivered⟩ | ⟨hnone, ratio, rfl⟩
  · have hreqs : b.reqs = if cfg.ppSize - 1 - r ≤ n then
        batch (n - (cfg.ppSize - 1 - r)) else [] := by
      simpa [hlast, reqsOf] using hbatch
    by_cases hq : q ∈ b.reqs
    · have hle : cfg.ppSize - 1 - r ≤ n := by
        by_contra hnot
        rw [hreqs, if_neg hnot] at hq
        simp at hq
      rw [if_pos hle] at hreqs
      have hnodup := (h.last_cases (Nat.mod_lt _ (by omega)) hlt hlast).1
      have htokens : S.arrivingTokens cfg sample out = nextTokenIds := by
        rw [arrivingTokens, hidx, hlast, hresult, Option.getD_some]
      have hlength := hall b nextTokenIds (by rwa [hidx]) hresult
      rw [deliver_outputs hdeliver hnodup (by rwa [reached_eq hlength]), htokens]
      show (S.heap q).outputIds ++ (if dueOf b (S.heap q).isBeingChunked = true then _ else _) = _
      have hdue : dueOf b (S.heap q).isBeingChunked = true ↔
          goesOn (n - (cfg.ppSize - 1 - r)) q = false := (hf.arrives hr hi h hlast hq).1
      rw [hreqs] at hq ⊢
      simp only [hdue, hle, hq, true_and]
    · have hnot : ¬ (cfg.ppSize - 1 - r ≤ n ∧ q ∈ batch (n - (cfg.ppSize - 1 - r)) ∧
          goesOn (n - (cfg.ppSize - 1 - r)) q = false) := fun hdue => hq (by
        rw [hreqs, if_pos hdue.1]
        exact hdue.2.1)
      rw [if_neg hnot, List.append_nil, hdelivered.untouched hq]
      rfl
  · have hnot : ¬ (cfg.ppSize - 1 - r ≤ n ∧ q ∈ batch (n - (cfg.ppSize - 1 - r)) ∧
        goesOn (n - (cfg.ppSize - 1 - r)) q = false) := fun hdue => by
      rw [hnone, if_pos hdue.1] at hbatch
      have hnil : batch (n - (cfg.ppSize - 1 - r)) = [] := hbatch.symm
      simp [hnil] at hdue
    rw [if_neg hnot, List.append_nil]
    rfl

end Arriving

end Sched

end FastPP
