import FastPP.RebalanceMoves
import Mathlib.Tactic.Linarith
import Mathlib.Tactic.Ring

namespace FastPP

namespace Sched

variable {M : Type}

/-- The unfinished requests of the current running batch. -/
def unfinishedRunning (S : Sched M) : List Nat :=
  (reqsOf S.stage.runningBatch).filter fun q => !(S.heap q).finished

theorem filterRunningBatch_some {S : Sched M} {batch filtered : ScheduleBatch}
    (hrun : S.stage.runningBatch = some batch)
    (hfilter : batch.filterBatch S.heap none = some filtered) :
    S.filterRunningBatch = some { S.setStage { S.stage with runningBatch := some filtered } with
      batchIsFull := if filtered.batchSize < batch.batchSize then false else S.batchIsFull } := by
  unfold filterRunningBatch
  rw [hrun]
  simp only [hfilter, Option.bind_eq_bind, Option.bind_some]
  rfl

theorem filterRunningBatch_spec {S S' : Sched M} (h : S.filterRunningBatch = some S') :
    OnlyBatches S S' ∧ S'.pendingBatch = S.pendingBatch ∧
      reqsOf S'.stage.runningBatch = S.unfinishedRunning := by
  cases hrun : S.stage.runningBatch with
  | none =>
    have hS : S' = S := by
      simp only [filterRunningBatch, hrun] at h
      exact (Option.some.inj h).symm
    subst hS
    exact ⟨OnlyBatches.refl _, rfl, by simp [unfinishedRunning, hrun, reqsOf]⟩
  | some batch =>
    have hfil : ∃ filtered, batch.filterBatch S.heap none = some filtered := by
      simp only [filterRunningBatch, hrun] at h
      obtain ⟨filtered, hfilter, _⟩ := Option.bind_eq_some_iff.mp h
      exact ⟨filtered, hfilter⟩
    obtain ⟨filtered, hfilter⟩ := hfil
    cases Option.some.inj (h.symm.trans (filterRunningBatch_some hrun hfilter))
    refine ⟨⟨_, S.pendingBatch, _, rfl, rfl⟩, rfl, ?_⟩
    change reqsOf (S.setStage _).stage.runningBatch = _
    rw [setStage_stage]
    have hreqs := ScheduleBatch.filterBatch_reqs hfilter
    simp only [reqsOf, Option.map_some, Option.getD_some, hreqs, unfinishedRunning, hrun]
    exact List.filter_congr fun q _ => by simp [ScheduleBatch.keeps]

theorem neg_le_nReqsTotal (cfg : Config) (S : Sched M) : -(cfg.ppSize : Int) ≤ S.nReqsTotal cfg := by
  have hsum : ∀ js : List Nat, -(js.length : Int) ≤ (js.map fun j =>
      (sizeOf? (S.stages j).last : Int) -
        (if j ≠ S.cur ∧ (S.stages j).beingChunkedReq.isSome then 1 else 0)).sum := by
    intro js
    induction js with
    | nil => simp
    | cons j js ih =>
      simp only [List.length_cons, List.map_cons, List.sum_cons]
      split <;> omega
  have h := hsum (List.range cfg.ppSize)
  rw [List.length_range] at h
  unfold nReqsTotal
  omega

/-- The size that `rebalance` gives the running batch, from the number of all
requests and the sizes of the running and the pending batch. -/
def targetSize (cfg : Config) (headroom : Bool) (total running pending : Int) : Int :=
  let baseTh : Int := cfg.brBaseUnit * cfg.ppSize
  let th := total / baseTh * baseTh
  let currentLocalLimit := th / cfg.ppSize + cfg.brBaseUnit
  if 0 < th ∧ (total : Rat) < th + cfg.brLoadAlpha * baseTh ∧ headroom = false then
    min (th / cfg.ppSize) (running + pending)
  else if 0 < total / cfg.ppSize - running ∧ 0 < pending then
    min (total / cfg.ppSize) (running + pending)
  else if headroom = false ∧ currentLocalLimit < running then currentLocalLimit
  else running

theorem filter_pending_eq {S : Sched M}
    (h : ∀ q ∈ reqsOf S.pendingBatch, (S.heap q).finished = false) :
    (reqsOf S.stage.runningBatch ++ reqsOf S.pendingBatch).filter
      (fun q => !(S.heap q).finished) = S.unfinishedRunning ++ reqsOf S.pendingBatch := by
  have hpending : (reqsOf S.pendingBatch).filter (fun q => !(S.heap q).finished) =
      reqsOf S.pendingBatch := List.filter_eq_self.mpr fun q hq => by simp [h q hq]
  rw [List.filter_append, hpending, unfinishedRunning]

theorem localLimit_nonneg {total pp unit : Int} (hpp : 0 < pp) (hunit : 0 < unit)
    (h : -pp ≤ total) : 0 ≤ total / (unit * pp) * (unit * pp) / pp + unit := by
  have hbase : pp ≤ unit * pp := by nlinarith
  have hquot : -1 ≤ total / (unit * pp) := by
    rw [Int.le_ediv_iff_mul_le (by positivity)]
    linarith
  rw [show total / (unit * pp) * (unit * pp) = total / (unit * pp) * unit * pp by ring,
    Int.mul_ediv_cancel _ (by omega)]
  nlinarith

/-- What the case distinction does to the two batches, and the size it reaches. -/
theorem rebalanceMoves_spec {cfg : Config} {headroom useTpotFirst : Bool} {S S' : Sched M}
    (hpp : 0 < cfg.ppSize) (hunit : 0 < cfg.brBaseUnit)
    (h : S.rebalanceMoves cfg headroom useTpotFirst = some S') :
    OnlyBatches S S' ∧
      Moved useTpotFirst (reqsOf S.stage.runningBatch) (reqsOf S.pendingBatch)
        (reqsOf S'.stage.runningBatch) (reqsOf S'.pendingBatch) ∧
      (sizeOf? S'.stage.runningBatch : Int) = targetSize cfg headroom (S.nReqsTotal cfg)
        (sizeOf? S.stage.runningBatch) (sizeOf? S.pendingBatch) := by
  have hlimit := localLimit_nonneg (Int.natCast_pos.mpr hpp) (Int.natCast_pos.mpr hunit)
    (neg_le_nReqsTotal cfg S)
  unfold rebalanceMoves at h
  unfold targetSize
  dsimp only at h ⊢
  generalize hth : S.nReqsTotal cfg / ((cfg.brBaseUnit : Int) * cfg.ppSize) *
    ((cfg.brBaseUnit : Int) * cfg.ppSize) = th at h hlimit ⊢
  split at h
  next hband =>
    rw [if_pos hband]
    have hdesired : 0 ≤ th / (cfg.ppSize : Int) := Int.ediv_nonneg hband.1.le (by omega)
    split at h
    next hover =>
      obtain ⟨hbatches, hmoved, hsize⟩ := moveToPending_spec (by omega) h
      exact ⟨hbatches, hmoved, by omega⟩
    next hover =>
      split at h
      next hunder =>
        obtain ⟨hbatches, hmoved, hsize⟩ := takeFromPending_spec (by omega) h
        exact ⟨hbatches, hmoved, by omega⟩
      next hstay =>
        cases Option.some.inj h
        exact ⟨OnlyBatches.refl S, Moved.stay _ _, by omega⟩
  next hband =>
    rw [if_neg hband]
    split at h
    next hneed =>
      rw [if_pos hneed]
      obtain ⟨hbatches, hmoved, hsize⟩ := takeFromPending_spec (by omega) h
      exact ⟨hbatches, hmoved, by omega⟩
    next hneed =>
      rw [if_neg hneed]
      split at h
      next hshed =>
        rw [if_pos hshed.1]
        obtain ⟨hbatches, hmoved, hsize⟩ := moveToPending_spec (by omega) h
        exact ⟨hbatches, hmoved, by omega⟩
      next hstay =>
        cases Option.some.inj h
        refine ⟨OnlyBatches.refl S, Moved.stay _ _, ?_⟩
        split
        next hover => exact absurd ⟨hover, by omega⟩ hstay
        next => rfl

theorem absentOrEmpty_iff {batch : Option ScheduleBatch} :
    absentOrEmpty batch = true ↔ reqsOf batch = [] := by
  cases batch <;> simp [absentOrEmpty, reqsOf, ScheduleBatch.isEmpty]

theorem filterBatch_empty {heap : Nat → Req} {chunk : Option Nat} {batch : ScheduleBatch}
    (h : batch.reqs = []) : batch.filterBatch heap chunk = some batch := by
  obtain ⟨reqs, _⟩ := batch
  simp only at h
  subst h
  rfl

theorem filterRunningBatch_empty {S : Sched M} (h : reqsOf S.stage.runningBatch = []) :
    S.filterRunningBatch = some S := by
  unfold filterRunningBatch
  split
  next => rfl
  next batch hsome =>
    have hnil : batch.reqs = [] := by simpa [reqsOf, hsome] using h
    rw [filterBatch_empty hnil, ← hsome]
    simp only [Option.bind_eq_bind, hsome, Option.bind_some, lt_self_iff_false, if_false]
    rw [← hsome, setStage_self]
    rfl

variable [MemoryPools M]

/-- What `rebalance` promises: the unfinished running and the pending requests only
move between the two batches, and the running batch gets the target size. -/
structure RebalanceLaw (cfg : Config) (tpot : Rat) (S S' : Sched M) : Prop where
  moved : Moved (S.useTpotFirst cfg tpot) S.unfinishedRunning (reqsOf S.pendingBatch)
    (reqsOf S'.stage.runningBatch) (reqsOf S'.pendingBatch)
  unfinished : (∀ q ∈ reqsOf S.pendingBatch, (S.heap q).finished = false) →
    (reqsOf S'.stage.runningBatch ++ reqsOf S'.pendingBatch).Perm
      ((reqsOf S.stage.runningBatch ++ reqsOf S.pendingBatch).filter
        fun q => !(S.heap q).finished)
  size : ∃ filtered, S.filterRunningBatch = some filtered ∧
    (sizeOf? S'.stage.runningBatch : Int) =
      targetSize cfg (S.hasKvHeadroom cfg tpot) (filtered.nReqsTotal cfg)
        S.unfinishedRunning.length (reqsOf S.pendingBatch).length

/-- Every signal that `rebalance` reads survives the filter of the running batch. -/
theorem filterRunningBatch_signals {S S' : Sched M} (cfg : Config) (tpot : Rat)
    (h : S.filterRunningBatch = some S') :
    S'.hasKvHeadroom cfg tpot = S.hasKvHeadroom cfg tpot ∧
      S'.useTpotFirst cfg tpot = S.useTpotFirst cfg tpot ∧ S'.heap = S.heap ∧
      S'.pendingBatch = S.pendingBatch ∧ reqsOf S'.stage.runningBatch = S.unfinishedRunning := by
  obtain ⟨⟨stage, pending, full, rfl, _⟩, hpending, hrunning⟩ := filterRunningBatch_spec h
  exact ⟨rfl, rfl, rfl, hpending, hrunning⟩

/-- A `rebalance` that returns obeys the law. -/
theorem rebalanceLaw_of_eq {cfg : Config} {tpot : Rat} {S S' : Sched M}
    (hpp : 0 < cfg.ppSize) (hunit : 0 < cfg.brBaseUnit)
    (h : S.rebalance cfg tpot = some S') : RebalanceLaw cfg tpot S S' := by
  have build : ∀ {filtered : Sched M}, S.filterRunningBatch = some filtered →
      Moved (S.useTpotFirst cfg tpot) S.unfinishedRunning (reqsOf S.pendingBatch)
        (reqsOf S'.stage.runningBatch) (reqsOf S'.pendingBatch) →
      (sizeOf? S'.stage.runningBatch : Int) =
        targetSize cfg (S.hasKvHeadroom cfg tpot) (filtered.nReqsTotal cfg)
          S.unfinishedRunning.length (reqsOf S.pendingBatch).length →
      RebalanceLaw cfg tpot S S' := by
    intro filtered hfilter hmoved hsize
    refine ⟨hmoved, fun hunfinished => ?_, filtered, hfilter, hsize⟩
    rw [filter_pending_eq hunfinished]
    exact hmoved.perm
  unfold rebalance at h
  split at h
  next hempty =>
    cases Option.some.inj h
    simp only [Bool.and_eq_true, absentOrEmpty_iff] at hempty
    have hfilter := filterRunningBatch_empty hempty.1
    have hnone : S.unfinishedRunning = [] := by simp [unfinishedRunning, hempty.1]
    refine build hfilter ?_ ?_
    · rw [hnone, hempty.1]
      exact Moved.stay _ _
    · have hlimit := localLimit_nonneg (Int.natCast_pos.mpr hpp) (Int.natCast_pos.mpr hunit)
        (neg_le_nReqsTotal cfg S)
      rw [sizeOf?_eq, hempty.1, hnone, hempty.2]
      unfold targetSize
      dsimp only
      generalize S.nReqsTotal cfg / ((cfg.brBaseUnit : Int) * cfg.ppSize) *
        ((cfg.brBaseUnit : Int) * cfg.ppSize) = th at hlimit ⊢
      split
      next hband =>
        have hdesired : 0 ≤ th / (cfg.ppSize : Int) := Int.ediv_nonneg hband.1.le (by omega)
        simp [hdesired]
      next =>
        rw [if_neg (by simp)]
        split
        next hover => simp only [List.length_nil, Nat.cast_zero] at hover; omega
        next => rfl
  next =>
    obtain ⟨filtered, hfilter, h⟩ := Option.bind_eq_some_iff.mp h
    obtain ⟨hhead, hmode, _, hpend, hrun⟩ := filterRunningBatch_signals cfg tpot hfilter
    rw [if_neg (Nat.mul_pos hunit hpp).ne'] at h
    obtain ⟨_, hmoved, hsize⟩ := rebalanceMoves_spec hpp hunit h
    rw [hmode, hrun, hpend] at hmoved
    rw [hhead, sizeOf?_eq filtered.stage.runningBatch, sizeOf?_eq filtered.pendingBatch, hrun,
      hpend] at hsize
    exact build hfilter hmoved hsize

/-- Only the two batches change, and they share the same unfinished requests. -/
theorem rebalance_moved {cfg : Config} {tpot : Rat} {S S' : Sched M}
    (h : S.rebalance cfg tpot = some S') :
    OnlyBatches S S' ∧ (reqsOf S'.stage.runningBatch ++ reqsOf S'.pendingBatch).Perm
      (S.unfinishedRunning ++ reqsOf S.pendingBatch) := by
  unfold rebalance at h
  split at h
  next hempty =>
    cases Option.some.inj h
    simp only [Bool.and_eq_true, absentOrEmpty_iff] at hempty
    exact ⟨OnlyBatches.refl S, by simp [unfinishedRunning, hempty.1]⟩
  next =>
    obtain ⟨filtered, hfilter, h⟩ := Option.bind_eq_some_iff.mp h
    obtain ⟨_, _, _, hpend, hrun⟩ := filterRunningBatch_signals cfg tpot hfilter
    split at h
    next => simp at h
    next hne =>
      have hunit := Nat.pos_of_ne_zero (Nat.mul_ne_zero_iff.mp hne).1
      have hpp := Nat.pos_of_ne_zero (Nat.mul_ne_zero_iff.mp hne).2
      obtain ⟨hbatches, hmoved, _⟩ := rebalanceMoves_spec hpp hunit h
      refine ⟨(filterRunningBatch_spec hfilter).1.trans hbatches, ?_⟩
      rw [← hrun, ← hpend]
      exact hmoved.perm

end Sched

end FastPP
