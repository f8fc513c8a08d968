import FastPP.RowRun
import FastPP.Stranded
import Mathlib.Data.List.Flatten

namespace FastPP

theorem count_filter_eq_ite {α : Type} [DecidableEq α] (p : α → Bool) (l : List α) (a : α) :
    (l.filter p).count a = if p a then l.count a else 0 := by
  split
  next h => exact List.count_filter h
  next h => exact List.count_eq_zero.mpr fun hmem => h (List.mem_filter.mp hmem).2

namespace Sched

variable {cfg : Config} {complete : Prop} {slots : List Nat} {i idx : Nat} {flight : Nat → Bool}
  {S S' : Sched Memory}

theorem Placed.settled_count {M : Type} {S : Sched M} (h : Placed complete cfg i flight S)
    (hi : i < cfg.ppSize) (hidx : idx < cfg.ppSize) (q : Nat) :
    (S.stages idx).settled.count q + (S.others cfg idx).count q +
      (reqsOf S.pendingBatch).count q ≤ 1 := by
  have hle := h.once.le_one q
  rw [places_count cfg S hi hidx] at hle
  omega

/-- The result of a batch matters to its settled requests, not to a chunk that goes on. -/
theorem Placed.settled_of_due {M : Type} {S : Sched M} {batch : ScheduleBatch}
    (hi : i < cfg.ppSize) (h : Placed complete cfg i flight S) (hidx : idx < cfg.ppSize)
    (hlast : (S.stages idx).last = some batch) (hflight : flight idx = true) {q : Nat}
    (hq : q ∈ batch.reqs) (hdue : dueOf batch (S.heap q).isBeingChunked = true) :
    q ∈ (S.stages idx).settled := by
  rcases (h.last_cases hi hidx hlast).2 with ⟨hown, hextend⟩ | ⟨_, hsome, _, _⟩
  · have hreqs : (S.stages idx).ownReqs = batch.reqs := by rw [Stage.ownReqs, hown]
    rw [Stage.settled, hreqs]
    refine List.mem_append_right _ (List.mem_filter.mpr ⟨hq, ?_⟩)
    by_contra hchunk
    have hcounted := h.counted q
    rw [chunksInFlight_split S flight q hidx,
      if_pos ⟨hflight, by simpa using hchunk, hreqs ▸ hq⟩] at hcounted
    rw [dueOf, hextend, Bool.false_or, decide_eq_true_eq] at hdue
    omega
  · rw [Stage.settled, hsome]
    exact List.mem_append_left _ hq

/-- It matters to all of them when the counters are exact. -/
theorem Placed.due_iff {M : Type} {S : Sched M} {batch : ScheduleBatch}
    (hi : i < cfg.ppSize) (h : Placed complete cfg i flight S) (hcomplete : complete)
    (hidx : idx < cfg.ppSize) (hlast : (S.stages idx).last = some batch)
    (hflight : flight idx = true)
    (holdest : ∀ j < cfg.ppSize, flight j = true → j ≠ idx →
      turnsAgo cfg.ppSize i j < turnsAgo cfg.ppSize i idx) {q : Nat} (hq : q ∈ batch.reqs) :
    dueOf batch (S.heap q).isBeingChunked = true ↔ q ∈ (S.stages idx).settled := by
  refine ⟨h.settled_of_due hi hidx hlast hflight hq, fun hsettled => ?_⟩
  rcases (h.last_cases hi hidx hlast).2 with ⟨hown, hextend⟩ | ⟨_, _, hdecode, _⟩
  · have hnone : S.chunksInFlight cfg flight q = 0 := by
      refine List.countP_eq_zero.mpr fun j hj => ?_
      simp only [Bool.and_eq_true, decide_eq_true_eq, not_and]
      intro hflies hchunk _
      have hyoung := h.order j (List.mem_range.mp hj) idx hidx q hchunk hsettled
      have hne : j ≠ idx := by
        rintro rfl
        omega
      have hold := holdest j (List.mem_range.mp hj) hflies hne
      omega
    rw [dueOf, h.exact hcomplete q, hnone]
    simp
  · simp [dueOf, hdecode]

/-- The settled requests of a batch that are finished while its result puts no row of theirs
back: it came without their tokens, or their counters were too high. -/
def unfreed (batch : ScheduleBatch) (nextTokenIds : List Nat) (idx : Nat) (S S' : Sched Memory) :
    List Nat :=
  batch.reqs.filter fun q => decide (q ∈ (S.stages idx).settled) && ((S'.heap q).finished &&
    !(decide (q ∈ reached batch nextTokenIds) && dueOf batch (S.heap q).isBeingChunked))

/-- What a result does to the rows in use: the settled requests that finish with it are
those that put their rows back. -/
structure RowsDelivered (complete : Prop) (cfg : Config) (flight : Nat → Bool) (idx : Nat)
    (batch : ScheduleBatch) (nextTokenIds : List Nat) (S S' : Sched Memory) : Prop where
  rows : S.mem.Frees ((reached batch nextTokenIds).filter fun q =>
    dueOf batch (S.heap q).isBeingChunked && (S'.heap q).finished) S'.mem
  held : (S.heldAt flight idx).Perm (((reached batch nextTokenIds).filter fun q =>
      dueOf batch (S.heap q).isBeingChunked && (S'.heap q).finished) ++
        (unfreed batch nextTokenIds idx S S' ++
          S'.heldAt (fun j => flight j && decide (j ≠ idx)) idx))
  unfreed : complete → unfreed batch nextTokenIds idx S S' = []
  others : S'.heldOthers cfg (fun j => flight j && decide (j ≠ idx)) idx =
    S.heldOthers cfg flight idx
  pendingBatch : S'.pendingBatch = S.pendingBatch
  pending : ∀ q ∈ reqsOf S.pendingBatch, (S'.heap q).finished = (S.heap q).finished

theorem Placed.rowsDelivered {batch : ScheduleBatch} {nextTokenIds : List Nat}
    (hi : i < cfg.ppSize) (h : Placed complete cfg i flight S)
    (hidx : idx < cfg.ppSize) (hlast : (S.stages idx).last = some batch)
    (hflight : flight idx = true)
    (holdest : ∀ j < cfg.ppSize, flight j = true → j ≠ idx →
      turnsAgo cfg.ppSize i j < turnsAgo cfg.ppSize i idx)
    (hall : complete → batch.reqs.length ≤ nextTokenIds.length)
    (hd : S.deliver cfg idx batch nextTokenIds = some S') :
    RowsDelivered complete cfg flight idx batch nextTokenIds S S' := by
  obtain ⟨_, hdelivered⟩ := h.deliver hi hidx hlast hflight holdest hall hd
  have hnodup := (h.last_cases hi hidx hlast).1
  have hsub := (reached_sublist batch nextTokenIds).subset
  have hstages := hdelivered.stages
  have hdue := fun q => h.settled_of_due hi hidx hlast hflight (q := q)
  have hcount := h.settled_count hi hidx
  have hsame : ∀ q ∉ (S.stages idx).settled, (S'.heap q).finished = (S.heap q).finished := by
    intro q hq
    by_cases hmem : q ∈ reached batch nextTokenIds
    · refine deliver_undue hd hnodup hmem (Bool.eq_false_iff.mpr fun htrue => hq ?_)
      exact hdue q (hsub hmem) htrue
    · rw [hdelivered.other q hmem]
  refine ⟨deliver_rows hd hnodup, List.perm_iff_count.mpr fun q => ?_, fun hcomplete => ?_, ?_, ?_,
    fun q hq => ?_⟩
  · have hfreed : ((reached batch nextTokenIds).filter fun q =>
        dueOf batch (S.heap q).isBeingChunked && (S'.heap q).finished).count q =
        if decide (q ∈ reached batch nextTokenIds) && (dueOf batch (S.heap q).isBeingChunked &&
          (S'.heap q).finished) then 1 else 0 := by
      by_cases hmem : q ∈ reached batch nextTokenIds
      · rw [count_filter_eq_ite, List.count_eq_one_of_mem
          (hnodup.sublist (reached_sublist batch nextTokenIds)) hmem]
        simp [hmem]
      · rw [List.count_eq_zero.mpr fun hin => hmem (List.mem_filter.mp hin).1]
        simp [hmem]
    unfold heldAt unfreed
    rw [List.count_append, List.count_append, hfreed, (hstages idx).1]
    by_cases hsettled : q ∈ (S.stages idx).settled
    · by_cases hmem : q ∈ batch.reqs
      · have hone : (S.stages idx).settled.count q = 1 := by
          have := hcount q
          have hpos := List.count_pos_iff.mpr hsettled
          omega
        have hbatch : batch.reqs.count q = 1 := List.count_eq_one_of_mem hnodup hmem
        cases hfin : (S'.heap q).finished <;>
          by_cases hin : q ∈ reached batch nextTokenIds <;>
          cases hdueq : dueOf batch (S.heap q).isBeingChunked <;>
          simp [count_filter_eq_ite, holds, reqsOf, hlast, hflight, hmem, hone, hbatch, hsettled,
            hfin, hin, hdueq]
      · have hfin : (S'.heap q).finished = (S.heap q).finished := by
          rw [hdelivered.untouched hmem]
        have hout : q ∉ reached batch nextTokenIds := fun hin => hmem (hsub hin)
        have hzero : batch.reqs.count q = 0 := List.count_eq_zero.mpr hmem
        simp [count_filter_eq_ite, holds, reqsOf, hlast, hmem, hfin, hout, hzero]
    · have hzero : ∀ p : Nat → Bool, ((S.stages idx).settled.filter p).count q = 0 := fun p =>
        List.count_eq_zero.mpr fun hin => hsettled (List.mem_filter.mp hin).1
      have hundue : (decide (q ∈ reached batch nextTokenIds) &&
          (dueOf batch (S.heap q).isBeingChunked && (S'.heap q).finished)) = false := by
        by_contra htrue
        simp only [Bool.not_eq_false, Bool.and_eq_true, decide_eq_true_eq] at htrue
        exact hsettled (hdue q (hsub htrue.1) htrue.2.1)
      rw [hzero, hzero, hundue]
      simp [count_filter_eq_ite, hsettled]
  · refine List.filter_eq_nil_iff.mpr fun q hq => ?_
    rw [reached_eq (hall hcomplete)]
    by_cases hsettled : q ∈ (S.stages idx).settled
    · have htrue := (h.due_iff hi hcomplete hidx hlast hflight holdest hq).mpr hsettled
      simp [hq, htrue]
    · simp [hsettled]
  · refine heldOthers_congr (fun j hj => ?_) (fun j _ hne => by simp [hne])
      fun j hj hne q hq => hsame q fun hmem => ?_
    · obtain ⟨_, _, _, rfl⟩ := hdelivered.others
      exact Function.update_of_ne hj _ _
    · have hle := hcount q
      have hpos := List.count_pos_iff.mpr hmem
      have hother := List.count_pos_iff.mpr (mem_others hj hne hq)
      omega
  · obtain ⟨_, _, _, rfl⟩ := hdelivered.others
    rfl
  · refine hsame q fun hmem => ?_
    have hle := hcount q
    have hpos := List.count_pos_iff.mpr hmem
    have hpending := List.count_pos_iff.mpr hq
    omega

/-- The requests that finish with a result are those that put their rows back; no slot is lost
when it has a token for each of its requests. -/
theorem RowsKept.deliver {batch : ScheduleBatch} {nextTokenIds : List Nat}
    (hi : i < cfg.ppSize) (h : Placed complete cfg i flight S)
    (hk : RowsKept cfg slots i flight S)
    (hidx : idx < cfg.ppSize) (hlast : (S.stages idx).last = some batch)
    (hflight : flight idx = true)
    (holdest : ∀ j < cfg.ppSize, flight j = true → j ≠ idx →
      turnsAgo cfg.ppSize i j < turnsAgo cfg.ppSize i idx)
    (hall : complete → batch.reqs.length ≤ nextTokenIds.length)
    (hd : S.deliver cfg idx batch nextTokenIds = some S') :
    ∃ slots' lost, (slots' ++ lost).Perm slots ∧ (complete → lost = []) ∧
      RowsKept cfg slots' i (fun j => flight j && decide (j ≠ idx)) S' := by
  obtain ⟨_, hdelivered⟩ := h.deliver hi hidx hlast hflight holdest hall hd
  have hrows := h.rowsDelivered hi hidx hlast hflight holdest hall hd
  have hperm : (S.held cfg flight i).Perm (((reached batch nextTokenIds).filter fun q =>
      dueOf batch (S.heap q).isBeingChunked && (S'.heap q).finished) ++
        (unfreed batch nextTokenIds idx S S' ++
          S'.held cfg (fun j => flight j && decide (j ≠ idx)) i)) := by
    refine List.perm_iff_count.mpr fun q => ?_
    have hbefore := (held_perm cfg S flight hi hidx).count_eq q
    have hafter := (held_perm cfg S' (fun j => flight j && decide (j ≠ idx)) hi hidx).count_eq q
    have hat := hrows.held.count_eq q
    rw [hrows.others, hrows.pendingBatch, (hdelivered.stages (cfg.prev i)).2.2] at hafter
    simp only [List.count_append] at hbefore hafter hat ⊢
    omega
  obtain ⟨slots', hlost, hledger⟩ := ((hk.ledger.perm hperm).frees hrows.rows).forget
  refine ⟨slots', _, hlost, fun hcomplete => ?_, fun q hq => ?_, hledger⟩
  · rw [hrows.unfreed hcomplete]
    rfl
  · rw [hrows.pendingBatch] at hq
    rw [hrows.pending q hq, hk.pending q hq]

theorem heldAt_idle (ratio : Rat) (flight : Nat → Bool) (hlast : (S.stages idx).last = none) (j : Nat) :
    ({ S with newTokenRatio := ratio } : Sched Memory).heldAt
      (fun j => flight j && decide (j ≠ idx)) j = S.heldAt flight j := by
  refine List.filter_congr fun q _ => ?_
  rcases eq_or_ne j idx with rfl | hne
  · simp [holds, hlast, reqsOf]
  · simp [holds, hne]

/-- A micro-batch without a batch changes nothing when its turn to be processed comes. -/
theorem RowsKept.idle {ratio : Rat} (hk : RowsKept cfg slots i flight S)
    (hlast : (S.stages idx).last = none) :
    RowsKept cfg slots i (fun j => flight j && decide (j ≠ idx))
      { S with newTokenRatio := ratio } := by
  have hat := heldAt_idle ratio flight hlast
  refine ⟨hk.pending, ?_⟩
  have hheld : ({ S with newTokenRatio := ratio } : Sched Memory).held cfg
      (fun j => flight j && decide (j ≠ idx)) i = S.held cfg flight i := by
    unfold held heldOthers
    rw [hat i, List.flatMap_congr fun j _ => hat j]
  rw [hheld]
  exact hk.ledger

theorem RowsKept.congr {flight' : Nat → Bool} (hi : i < cfg.ppSize)
    (hk : RowsKept cfg slots i flight S) (hflight : ∀ j < cfg.ppSize, flight' j = flight j) :
    RowsKept cfg slots i flight' S := by
  refine ⟨hk.pending, ?_⟩
  have hheld : S.held cfg flight' i = S.held cfg flight i := by
    unfold held
    rw [heldAt_congr rfl (hflight i hi) fun _ _ => rfl,
      heldOthers_congr (fun _ _ => rfl) (fun j hj _ => hflight j hj) fun _ _ _ _ _ => rfl]
  rw [hheld]
  exact hk.ledger

/-- One iteration keeps the ledger of request slots, but for those that it loses. -/
theorem RowsKept.step {input : StepInput} {sample : Nat → Nat} {out : Option ScheduleBatch}
    {r k : Nat} (hp : 2 ≤ cfg.ppSize) (hr : r < cfg.ppSize)
    (hcount : S.curPP = .after cfg.ppSize r k)
    (h : Placed complete cfg (k % cfg.ppSize)
      (flying cfg.ppSize (cfg.ppSize - 1 - r) (k % cfg.ppSize)) S)
    (hk : RowsKept cfg slots (k % cfg.ppSize)
      (flying cfg.ppSize (cfg.ppSize - 1 - r) (k % cfg.ppSize)) S)
    (hroom : ¬ S.FetchesWhenFull cfg input) (hfill : complete → ¬ S.FillsShort cfg input)
    (hstep : S.step cfg input sample = some (S', out)) :
    ∃ slots' lost, (slots' ++ lost).Perm slots ∧ (complete → lost = []) ∧
      RowsKept cfg slots' ((k + 1) % cfg.ppSize)
        (flying cfg.ppSize (cfg.ppSize - 1 - r) ((k + 1) % cfg.ppSize)) S' := by
  obtain ⟨merged, balanced, prefilled, decoded, newBatch, t⟩ := exists_turn hstep
  obtain ⟨hturn, hcases, hplaced⟩ := t.placed hr hcount h hroom
  have hi : k % cfg.ppSize < cfg.ppSize := Nat.mod_lt _ (by omega)
  have hidx := t.arriving hcount
  have hreceived := receive_spec cfg input S
  have hcur : (S.receive cfg input).cur = k % cfg.ppSize := receive_cur hcount
  rw [show (k + 1) % cfg.ppSize = (k % cfg.ppSize + 1) % cfg.ppSize by simp]
  generalize k % cfg.ppSize = i at h hk hturn hcases hplaced hi hidx hcur ⊢
  have hlanded := not_flying_self hr i
  have hreceive := h.receive hreceived
  have hmerge := (hk.receive hi h hreceived).merge hp hi hreceive hcur hlanded t.merge
  have hbalanced := hmerge.rebalance hp hi (hreceive.merge hi hcur hlanded t.merge) t.rebalance
  have hdispatched : RowsKept cfg slots ((i + 1) % cfg.ppSize)
      (fun j => decide (j = i) || flying cfg.ppSize (cfg.ppSize - 1 - r) i j)
      (decoded.setLastBatch out) := by
    rcases hcases with ⟨rfl, hnot, hdecoded, hfull⟩ |
      ⟨batch, _, _, _, rfl, rfl, rfl, hphases, hpre⟩
    · exact hbalanced.decode hp hi hturn t.prefill hnot t.decode hdecoded
        (hfull.resolve_left (by omega))
    · exact hbalanced.prefill hp hi hturn hphases hpre
  obtain ⟨hflight, holdest, hrest⟩ := flying_next hr hi
  have hlt : (r + i + 1) % cfg.ppSize < cfg.ppSize := Nat.mod_lt _ (by omega)
  have hnext : (i + 1) % cfg.ppSize < cfg.ppSize := Nat.mod_lt _ (by omega)
  have hall := fun hcomplete => t.resultComplete (hfill hcomplete)
  rcases (hplaced.finish hr hi hidx hall t.finish).2 with
    ⟨batch, nextTokenIds, hlast, hresult, hdeliver, _⟩ | ⟨hlast, ratio, rfl⟩
  · obtain ⟨slots', lost, hlost, hnone, hkept⟩ :=
      hdispatched.deliver hnext hplaced hlt hlast hflight holdest
        (fun hcomplete => hall hcomplete batch nextTokenIds (by rwa [hidx]) hresult) hdeliver
    exact ⟨slots', lost, hlost, hnone, hkept.congr hnext fun j hj => (hrest j hj).symm⟩
  · exact ⟨slots, [], by simp, fun _ => rfl,
      (hdispatched.idle hlast).congr hnext fun j hj => (hrest j hj).symm⟩

theorem rowsKept_init (cfg : Config) (r size tokens : Nat) (flight : Nat → Bool) :
    RowsKept cfg (List.range size) 0 flight (Sched.init cfg r (Memory.clear size tokens)) := by
  have hheld : (Sched.init cfg r (Memory.clear size tokens)).held cfg flight 0 = [] := by
    simp [held, heldAt, heldOthers, Sched.init, reqsOf, Stage.settled, Stage.ownReqs]
  refine ⟨by simp [Sched.init, reqsOf], ?_⟩
  rw [hheld]
  refine ⟨?_, by simp⟩
  simp [FreeList.Conserved, Sched.init, Memory.clear, ReqToTokenPool.clear]

theorem run_rowsKept {r size tokens n : Nat} {inputs : Nat → StepInput}
    {samples : Nat → Nat → Nat} (hp : 2 ≤ cfg.ppSize) (hr : r < cfg.ppSize)
    (hroom : ∀ k < n, ∀ S, run cfg r (Memory.clear size tokens) inputs samples k = some S →
      ¬ S.FetchesWhenFull cfg (inputs k))
    (hfill : complete → ∀ k < n, ∀ S,
      run cfg r (Memory.clear size tokens) inputs samples k = some S →
        ¬ S.FillsShort cfg (inputs k))
    (hrun : run cfg r (Memory.clear size tokens) inputs samples n = some S) :
    ∃ slots lost, (slots ++ lost).Perm (List.range size) ∧ (complete → lost = []) ∧
      RowsKept cfg slots (n % cfg.ppSize)
        (flying cfg.ppSize (cfg.ppSize - 1 - r) (n % cfg.ppSize)) S := by
  induction n generalizing S with
  | zero =>
    cases Option.some.inj hrun
    rw [Nat.zero_mod]
    exact ⟨_, [], by simp, fun _ => rfl, rowsKept_init cfg r size tokens _⟩
  | succ n ih =>
    obtain ⟨S₁, hbefore, hrun⟩ := Option.bind_eq_some_iff.mp hrun
    obtain ⟨⟨S₂, out⟩, hstep, hrun⟩ := Option.bind_eq_some_iff.mp hrun
    cases Option.some.inj hrun
    have hroom' := fun k (hk : k < n) => hroom k (by omega)
    have hfill' := fun hcomplete k (hk : k < n) => hfill hcomplete k (by omega)
    obtain ⟨hcount, hplaced⟩ := run_placed hr hroom' hfill' hbefore
    obtain ⟨slots, lost, hslots, hnone, hkept⟩ := ih hroom' hfill' hbefore
    obtain ⟨slots', lost', hslots', hnone', hkept'⟩ :=
      hkept.step hp hr hcount hplaced (hroom n (by omega) S₁ hbefore)
        (fun hcomplete => hfill hcomplete n (by omega) S₁ hbefore) hstep
    refine ⟨slots', lost' ++ lost, ?_, fun hcomplete => ?_, hkept'⟩
    · rw [← List.append_assoc]
      exact (hslots'.append_right lost).trans hslots
    · rw [hnone hcomplete, hnone' hcomplete]
      rfl

end Sched

namespace Sched

variable {M : Type} {cfg : Config} {complete : Prop} {slots : List Nat} {i : Nat}
  {flight : Nat → Bool} {S : Sched Memory}

/-- A request that is pending, in a running batch or in a prefill batch not yet merged,
other than between two chunks, and whose last result was not processed yet. -/
def Live (cfg : Config) (flight : Nat → Bool) (S : Sched M) (q : Nat) : Prop :=
  q ∈ reqsOf S.pendingBatch ∨
    ∃ j < cfg.ppSize, q ∈ (S.stages j).settled ∧ S.holds flight j q = true

/-- No slot is free twice or in use, and each one is free, in use or one of the `lost`. -/
structure SlotsSafe (cfg : Config) (size : Nat) (lost : List Nat) (flight : Nat → Bool)
    (S : Sched Memory) : Prop where
  nodup : S.mem.reqToTokenPool.freeSlots.Nodup
  live : ∀ q, S.Live cfg flight q ∨ S.stage.beingChunkedReq = some q →
    ∃ row, S.mem.reqPoolIdx q = some row ∧ row ∉ S.mem.reqToTokenPool.freeSlots
  kept : ∃ holders : List Nat, holders.Nodup ∧
    (∀ q ∈ holders, S.Live cfg flight q ∨ S.stage.beingChunkedReq = some q) ∧
    (S.mem.reqToTokenPool.freeSlots ++ holders.flatMap S.mem.rowsOf ++ lost).Perm
      (List.range size)

theorem held_mem_iff {S : Sched M} (hi : i < cfg.ppSize) (q : Nat) :
    q ∈ S.held cfg flight i ↔
      S.Live cfg flight q ∨ (S.stages (cfg.prev i)).beingChunkedReq = some q := by
  have hall : q ∈ S.heldAt flight i ∨ q ∈ S.heldOthers cfg flight i ↔
      ∃ j < cfg.ppSize, q ∈ (S.stages j).settled ∧ S.holds flight j q = true := by
    constructor
    · rintro (hq | hq)
      · exact ⟨i, hi, List.mem_filter.mp hq⟩
      · obtain ⟨j, hj, hq⟩ := List.mem_flatMap.mp hq
        exact ⟨j, List.mem_range.mp (List.mem_filter.mp hj).1, List.mem_filter.mp hq⟩
    · rintro ⟨j, hj, hq⟩
      rcases eq_or_ne j i with rfl | hne
      · exact Or.inl (List.mem_filter.mpr hq)
      · exact Or.inr (List.mem_flatMap.mpr ⟨j, by simp [hj, hne], List.mem_filter.mpr hq⟩)
  rw [held, Live, ← hall]
  simp only [List.mem_append, Option.mem_toList]
  tauto

theorem held_nodup {S : Sched M} (h : Placed complete cfg i flight S) :
    (S.held cfg flight i).Nodup := by
  refine h.once.nodup.sublist (List.Sublist.trans ?_ (List.sublist_append_right _ _))
  refine (List.Sublist.refl _).append (List.filter_sublist.append ?_)
  exact (List.Sublist.flatMap_right _ fun _ _ => List.filter_sublist).append (.refl _)

theorem RowsKept.slotsSafe {size : Nat} {lost : List Nat} (hi : i < cfg.ppSize)
    (h : Placed complete cfg i flight S) (hslots : (slots ++ lost).Perm (List.range size))
    (hk : RowsKept cfg slots i flight S)
    (hcarried : S.stage.beingChunkedReq = (S.stages (cfg.prev i)).beingChunkedReq) :
    S.SlotsSafe cfg size lost flight := by
  have hnodup : slots.Nodup :=
    (List.nodup_append.mp (hslots.nodup_iff.mpr List.nodup_range)).1
  refine ⟨hk.ledger.conserved.nodup_free hnodup, fun q hq => ?_, S.held cfg flight i,
    held_nodup h, fun q hq => ?_, ?_⟩
  · rw [hcarried] at hq
    have hheld := (held_mem_iff hi q).mpr hq
    obtain ⟨row, hrow⟩ := Option.isSome_iff_exists.mp (hk.ledger.placed q hheld)
    refine ⟨row, hrow, hk.ledger.conserved.not_mem_free hnodup hheld ?_⟩
    simp [Memory.rowsOf, hrow]
  · rw [hcarried]
    exact (held_mem_iff hi q).mp hq
  · exact ((show List.Perm _ slots from hk.ledger.conserved).append_right lost).trans hslots

/-- Request slots are safe in every state that a rank reaches, as long as no iteration
fetches a chunked request into a full micro-batch; and none is lost as long as no iteration
leaves requests without their result. -/
theorem run_slotsSafe {r size tokens n : Nat} {inputs : Nat → StepInput}
    {samples : Nat → Nat → Nat} (hp : 2 ≤ cfg.ppSize) (hr : r < cfg.ppSize)
    (hroom : ∀ k < n, ∀ S, run cfg r (Memory.clear size tokens) inputs samples k = some S →
      ¬ S.FetchesWhenFull cfg (inputs k))
    (hrun : run cfg r (Memory.clear size tokens) inputs samples n = some S) :
    ∃ lost,
      S.SlotsSafe cfg size lost (flying cfg.ppSize (cfg.ppSize - 1 - r) (n % cfg.ppSize)) ∧
      ((∀ k < n, ∀ S, run cfg r (Memory.clear size tokens) inputs samples k = some S →
        ¬ S.FillsShort cfg (inputs k)) → lost = []) := by
  obtain ⟨hcount, hplaced⟩ := run_placed hr hroom (fun hfill => hfill) hrun
  obtain ⟨slots, lost, hslots, hnone, hkept⟩ := run_rowsKept hp hr hroom (fun hfill => hfill) hrun
  refine ⟨lost, hkept.slotsSafe (Nat.mod_lt _ (by omega)) hplaced hslots ?_, hnone⟩
  cases n with
  | zero =>
    cases Option.some.inj hrun
    rfl
  | succ n =>
    have hprev : cfg.prev ((n + 1) % cfg.ppSize) = n % cfg.ppSize := by
      have hturn : n % cfg.ppSize < cfg.ppSize := Nat.mod_lt _ (by omega)
      rw [← Nat.mod_add_mod, prev_succ hturn]
    rw [hprev, stage, Sched.cur, hcount, PPCounter.after_get]

end Sched

/-- A short and a long request, one after the other. -/
def longSecond (step : Nat) : StepInput where
  recvReqs := if step = 0 then [.generate (plainInput 1 [5] 8)]
    else if step = 1 then [.generate (plainInput 2 [1, 2, 3, 4, 5, 6, 7, 8, 9, 10] 8)] else []
  availableSize := 100
  chunkSync := none
  tpot := 0

/-- The first of two ranks with the long request in three chunks. -/
def chunkedRun (cfg : Config) : Nat → Option (Sched Memory) :=
  Sched.run cfg 0 (Memory.clear 4 100) longSecond fun _ i => i

theorem run_slotsSafe_chunked : ∃ S, chunkedRun twoRanks 4 = some S ∧
    S.SlotsSafe twoRanks 4 [] (Sched.flying 2 1 0) := by
  have hroom : ∀ k < 4, ((chunkedRun twoRanks k).all fun S =>
      !decide (S.FetchesWhenFull twoRanks (longSecond k))) = true := by
    decide +kernel
  have hfill : ∀ k < 4, ((chunkedRun twoRanks k).all fun S =>
      !decide (S.FillsShort twoRanks (longSecond k))) = true := by
    decide +kernel
  have hsome : (chunkedRun twoRanks 4).isSome = true := by
    decide +kernel
  obtain ⟨S, hS⟩ := Option.isSome_iff_exists.mp hsome
  obtain ⟨lost, hsafe, hnone⟩ := Sched.run_slotsSafe (r := 0) (by decide : 2 ≤ twoRanks.ppSize)
    (by decide) (fun k hk S₁ hrun => by
      have hk' := (Option.all_eq_true _ _).mp (hroom k hk) S₁ hrun
      simpa using hk') hS
  refine ⟨S, hS, ?_⟩
  rwa [hnone fun k hk S₁ hrun => ?_] at hsafe
  have hk' := (Option.all_eq_true _ _).mp (hfill k hk) S₁ hrun
  simpa using hk'

/-- Two ranks that run one request at a time. -/
def fullStage : Config :=
  { twoRanks with maxRunningRequests := 1, enableBatchRebalancing := false }

/-- The row of the long request is put back again at each step at which the full
micro-batch of the short one fetches it. -/
theorem carried_slot_freed_again : ∃ S, chunkedRun fullStage 4 = some S ∧
    S.mem.reqToTokenPool.freeSlots = [3, 1, 1, 1] ∧
    ¬ S.mem.reqToTokenPool.freeSlots.Nodup := by
  have hview : (chunkedRun fullStage 4).map (fun S => S.mem.reqToTokenPool.freeSlots) =
      some [3, 1, 1, 1] := by
    decide +kernel
  obtain ⟨S, hS, hfree⟩ := Option.map_eq_some_iff.mp hview
  exact ⟨S, hS, hfree, by rw [hfree]; decide⟩

end FastPP
