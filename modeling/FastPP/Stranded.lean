import FastPP.EventLoop
import FastPP.RebalanceLaw

namespace FastPP

namespace Sched

variable {M : Type} [MemoryPools M]

/-- One rebalance for each of the next `n` micro-batch indices. -/
def rebalanceRound (cfg : Config) (tpot : Rat) : Nat → Sched M → Option (Sched M)
  | 0, S => some S
  | n + 1, S => do
    let S ← { S with curPP := S.curPP.next }.rebalance cfg tpot
    rebalanceRound cfg tpot n S

/-- Requests are pending, none is waiting and every micro-batch is idle. -/
structure Drained (cfg : Config) (S : Sched M) : Prop where
  pending : reqsOf S.pendingBatch ≠ []
  waiting : S.waitingQueue = []
  lastIdle : ∀ j < cfg.ppSize, reqsOf (S.stages j).last = []
  runningIdle : ∀ j < cfg.ppSize, reqsOf (S.stages j).runningBatch = []

/-- Some micro-batch has running requests. -/
def SomeRunning (cfg : Config) (S : Sched M) : Prop :=
  ∃ j < cfg.ppSize, reqsOf (S.stages j).runningBatch ≠ []

/-- `n_reqs_total` at index `i` of an idle system. -/
def pendingShare (cfg : Config) (S : Sched M) (i : Nat) : Int :=
  sizeOf? S.pendingBatch -
    (List.range cfg.ppSize).countP fun j => decide (j ≠ i) && (S.stages j).beingChunkedReq.isSome

/-- The micro-batch index that the counter reaches after `k + 1` calls of `next`. -/
def upcoming (S : Sched M) (k : Nat) : Nat := ((S.curPP.currentIdx + 1 + k) % S.curPP.ppSize).toNat

omit [MemoryPools M] in
theorem nReqsTotal_idle {cfg : Config} {S : Sched M}
    (idle : ∀ j < cfg.ppSize, reqsOf (S.stages j).last = []) :
    S.nReqsTotal cfg = S.pendingShare cfg S.cur := by
  have hsum : ∀ js : List Nat, (∀ j ∈ js, reqsOf (S.stages j).last = []) →
      (js.map fun j => (sizeOf? (S.stages j).last : Int) -
        (if j ≠ S.cur ∧ (S.stages j).beingChunkedReq.isSome then 1 else 0)).sum =
      -(js.countP fun j => decide (j ≠ S.cur) && (S.stages j).beingChunkedReq.isSome : Nat) := by
    intro js
    induction js with
    | nil => simp
    | cons j js ih =>
      intro hjs
      have hlast : sizeOf? (S.stages j).last = 0 := by
        rw [sizeOf?_eq, hjs j (by simp)]; rfl
      simp only [List.map_cons, List.sum_cons, List.countP_cons,
        ih fun k hk => hjs k (List.mem_cons_of_mem j hk), hlast]
      by_cases hj : j ≠ S.cur ∧ (S.stages j).beingChunkedReq.isSome
      · simp [hj]
      · simp [hj]
  have h := hsum (List.range cfg.ppSize) fun j hj => idle j (List.mem_range.mp hj)
  unfold nReqsTotal pendingShare
  omega

/-- An idle system takes from the pending batch exactly when the pending share
reaches the number of ranks; otherwise nothing changes. -/
theorem rebalance_idle {cfg : Config} {tpot : Rat} {S S' : Sched M} (hpp : 0 < cfg.ppSize)
    (hunit : 0 < cfg.brBaseUnit) (drained : S.Drained cfg) (hcur : S.cur < cfg.ppSize)
    (h : S.rebalance cfg tpot = some S') :
    if (cfg.ppSize : Int) ≤ S.pendingShare cfg S.cur then
      reqsOf S'.stage.runningBatch ≠ []
    else S' = S := by
  have hrun : reqsOf S.stage.runningBatch = [] := drained.runningIdle S.cur hcur
  have hfilter := filterRunningBatch_empty hrun
  have htotal := nReqsTotal_idle drained.lastIdle
  have hpend : 0 < (sizeOf? S.pendingBatch : Int) := by
    have := List.length_pos_of_ne_nil drained.pending
    rw [sizeOf?_eq]; omega
  have hbase : (cfg.ppSize : Int) ≤ cfg.brBaseUnit * cfg.ppSize := by nlinarith
  have hlimit := localLimit_nonneg (Int.natCast_pos.mpr hpp) (Int.natCast_pos.mpr hunit)
    (neg_le_nReqsTotal cfg S)
  split
  next hshare =>
    obtain ⟨filtered, hfiltered, hsize⟩ := (rebalanceLaw_of_eq hpp hunit h).size
    cases Option.some.inj (hfilter.symm.trans hfiltered)
    have hnone : S.unfinishedRunning = [] := by simp [unfinishedRunning, hrun]
    intro hnil
    rw [sizeOf?_eq, hnil, hnone, ← sizeOf?_eq S.pendingBatch, htotal] at hsize
    have hquot : 1 ≤ S.pendingShare cfg S.cur / cfg.ppSize := by
      rw [Int.le_ediv_iff_mul_le (by omega)]; omega
    unfold targetSize at hsize
    simp only [List.length_nil, Nat.cast_zero] at hsize
    split at hsize
    next hband =>
      have hth : 1 ≤ S.pendingShare cfg S.cur / (cfg.brBaseUnit * cfg.ppSize) *
          (cfg.brBaseUnit * cfg.ppSize) / (cfg.ppSize : Int) := by
        rw [Int.le_ediv_iff_mul_le (by omega)]
        have hpos : 0 < S.pendingShare cfg S.cur / ((cfg.brBaseUnit : Int) * cfg.ppSize) := by
          by_contra hneg
          have := hband.1
          nlinarith
        nlinarith
      omega
    next =>
      rw [if_pos ⟨by omega, hpend⟩] at hsize
      omega
  next hshare =>
    have hth : S.nReqsTotal cfg / ((cfg.brBaseUnit : Int) * cfg.ppSize) ≤ 0 := by
      rw [htotal]
      have : S.pendingShare cfg S.cur / ((cfg.brBaseUnit : Int) * cfg.ppSize) < 1 := by
        rw [Int.ediv_lt_iff_lt_mul (by nlinarith)]
        omega
      omega
    have hquot : S.nReqsTotal cfg / (cfg.ppSize : Int) < 1 := by
      rw [htotal, Int.ediv_lt_iff_lt_mul (by omega)]
      omega
    have hlast : (sizeOf? S.stage.runningBatch : Int) = 0 := by rw [sizeOf?_eq, hrun]; rfl
    unfold rebalance at h
    split at h
    next => exact (Option.some.inj h).symm
    next =>
      simp only [hfilter, Option.bind_eq_bind, Option.bind_some] at h
      rw [if_neg (Nat.mul_pos hunit hpp).ne'] at h
      unfold rebalanceMoves at h
      dsimp only at h
      rw [if_neg (fun hband => absurd hband.1 (by nlinarith)), hlast,
        if_neg (fun hneed => absurd hneed.1 (by omega)),
        if_neg (fun hshed => absurd hshed.2 (by omega))] at h
      exact (Option.some.inj h).symm

/-- The state in which the next micro-batch index is rebalanced. -/
def advance (S : Sched M) : Sched M := { S with curPP := S.curPP.next }

omit [MemoryPools M] in
theorem advance_cur (S : Sched M) : S.advance.cur = S.upcoming 0 := by
  simp [advance, cur, PPCounter.get, PPCounter.next, upcoming]

omit [MemoryPools M] in
theorem upcoming_succ {S S' : Sched M} (h : S'.curPP = S.curPP.next) (k : Nat) :
    S'.upcoming k = S.upcoming (k + 1) := by
  simp only [upcoming, h, PPCounter.next, add_assoc, Int.emod_add_emod]
  congr 3
  omega

omit [MemoryPools M] in
theorem upcoming_lt {S : Sched M} (hpos : 0 < S.curPP.ppSize) (k : Nat) :
    S.upcoming k < S.curPP.ppSize := by
  have hnonneg := Int.emod_nonneg (S.curPP.currentIdx + 1 + k)
    (by omega : (S.curPP.ppSize : Int) ≠ 0)
  have hlt := Int.emod_lt_of_pos (S.curPP.currentIdx + 1 + k)
    (by omega : 0 < (S.curPP.ppSize : Int))
  unfold upcoming
  omega

omit [MemoryPools M] in
/-- A round reaches every index, and none twice. -/
theorem upcoming_inj {S : Sched M} {k l : Nat} (hk : k < S.curPP.ppSize)
    (hl : l < S.curPP.ppSize) (h : S.upcoming k = S.upcoming l) : k = l := by
  have hpos : (S.curPP.ppSize : Int) ≠ 0 := by omega
  have hnonneg := Int.emod_nonneg (S.curPP.currentIdx + 1 + k) hpos
  have hnonneg' := Int.emod_nonneg (S.curPP.currentIdx + 1 + l) hpos
  have heq : (S.curPP.currentIdx + 1 + k) % S.curPP.ppSize =
      (S.curPP.currentIdx + 1 + l) % S.curPP.ppSize := by
    unfold upcoming at h
    omega
  have hkl : ((k : Int)) % S.curPP.ppSize = l % S.curPP.ppSize := Int.emod_add_cancel_left.mp heq
  rw [Int.emod_eq_of_lt (by omega) (by omega), Int.emod_eq_of_lt (by omega) (by omega)] at hkl
  omega

omit [MemoryPools M] in
theorem exists_upcoming {S : Sched M} {i : Nat} (hi : i < S.curPP.ppSize) :
    ∃ k < S.curPP.ppSize, S.upcoming k = i := by
  have hpos : (S.curPP.ppSize : Int) ≠ 0 := by omega
  have hnonneg := Int.emod_nonneg (i - (S.curPP.currentIdx + 1)) hpos
  have hlt := Int.emod_lt_of_pos (i - (S.curPP.currentIdx + 1))
    (by omega : 0 < (S.curPP.ppSize : Int))
  refine ⟨((i - (S.curPP.currentIdx + 1)) % S.curPP.ppSize).toNat, by omega, ?_⟩
  have hcancel : (S.curPP.currentIdx + 1 + (i - (S.curPP.currentIdx + 1)) % S.curPP.ppSize) %
      S.curPP.ppSize = i := by
    rw [Int.add_emod_emod, show S.curPP.currentIdx + 1 + (i - (S.curPP.currentIdx + 1)) = (i : Int)
      by ring, Int.emod_eq_of_lt (by omega) (by omega)]
  rw [upcoming, Int.toNat_of_nonneg hnonneg, hcancel, Int.toNat_natCast]

omit [MemoryPools M] in
theorem OnlyBatches.frame {S S' : Sched M} (h : OnlyBatches S S') :
    S'.curPP = S.curPP ∧ S'.heap = S.heap ∧ S'.waitingQueue = S.waitingQueue ∧
      ∀ j, j ≠ S.cur → S'.stages j = S.stages j := by
  obtain ⟨stage, pending, full, rfl, _⟩ := h
  exact ⟨rfl, rfl, rfl, fun j hj => Function.update_of_ne hj _ _⟩

section Round

variable {cfg : Config} {rows : Rows}

/-- Over idle indices a round raises nothing and touches only those indices. -/
theorem rebalanceRound_total (tpot : Rat) (hpp : 0 < cfg.ppSize) (hunit : 0 < cfg.brBaseUnit) {n : Nat}
    {S : Sched M} (hn : n ≤ cfg.ppSize) (hsize : S.curPP.ppSize = cfg.ppSize)
    (aligned : AlignedUnlessEmpty S.heap rows S.pendingBatch)
    (idle : ∀ k < n, reqsOf (S.stages (S.upcoming k)).runningBatch = []) :
    ∃ S', rebalanceRound cfg tpot n S = some S' ∧
      ∀ j, (∀ k < n, S.upcoming k ≠ j) → S'.stages j = S.stages j := by
  induction n generalizing S with
  | zero => exact ⟨S, rfl, fun _ _ => rfl⟩
  | succ n ih =>
    have hrun : reqsOf S.advance.stage.runningBatch = [] := by
      rw [Sched.stage, advance_cur]
      exact idle 0 (by omega)
    obtain ⟨S₁, h₁, aligned₁⟩ := rebalance_total (S := S.advance) tpot
      hpp hunit ⟨fun b hb hne => absurd (by simpa [reqsOf, hb] using hrun) hne, aligned⟩
    obtain ⟨hcounter, _, _, hstages⟩ := (rebalance_moved h₁).1.frame
    have hshift : ∀ k, S₁.upcoming k = S.upcoming (k + 1) := upcoming_succ hcounter
    have hsize₁ : S₁.curPP.ppSize = cfg.ppSize := by rw [hcounter]; exact hsize
    have hother : ∀ k < n, S.upcoming (k + 1) ≠ S.advance.cur := by
      intro k hk heq
      rw [advance_cur] at heq
      exact absurd (upcoming_inj (by omega) (by omega) heq) (by omega)
    obtain ⟨S', h', hkeep⟩ := ih (S := S₁) (by omega) hsize₁ aligned₁.pending fun k hk => by
      rw [hshift, hstages _ (hother k hk)]
      exact idle (k + 1) (by omega)
    refine ⟨S', by simp only [rebalanceRound]; exact Option.bind_eq_some_iff.mpr ⟨S₁, h₁, h'⟩,
      fun j hj => ?_⟩
    rw [hkeep j fun k hk => hshift k ▸ hj (k + 1) (by omega), hstages j]
    · rfl
    · rw [advance_cur]
      exact (hj 0 (by omega)).symm

/-- A round over an idle system moves a request exactly when some index it reaches
has a pending share of at least the number of ranks. -/
theorem rebalanceRound_idle (tpot : Rat) (hpp : 0 < cfg.ppSize) (hunit : 0 < cfg.brBaseUnit) {n : Nat}
    {S : Sched M} (hn : n ≤ cfg.ppSize) (hsize : S.curPP.ppSize = cfg.ppSize)
    (drained : S.Drained cfg) (aligned : AlignedUnlessEmpty S.heap rows S.pendingBatch) :
    ∃ S', rebalanceRound cfg tpot n S = some S' ∧
      ((∃ k < n, reqsOf (S'.stages (S.upcoming k)).runningBatch ≠ []) ↔
        ∃ k < n, (cfg.ppSize : Int) ≤ S.pendingShare cfg (S.upcoming k)) := by
  induction n generalizing S with
  | zero => exact ⟨S, rfl, by simp⟩
  | succ n ih =>
    have hlt : ∀ k, S.upcoming k < cfg.ppSize := fun k => hsize ▸ upcoming_lt (by omega) k
    have hcur : S.advance.cur < cfg.ppSize := by rw [advance_cur]; exact hlt 0
    have drained' : S.advance.Drained cfg :=
      ⟨drained.pending, drained.waiting, drained.lastIdle, drained.runningIdle⟩
    have hrun : reqsOf S.advance.stage.runningBatch = [] := drained'.runningIdle _ hcur
    obtain ⟨S₁, h₁, aligned₁⟩ := rebalance_total (S := S.advance) tpot
      hpp hunit ⟨fun b hb hne => absurd (by simpa [reqsOf, hb] using hrun) hne, aligned⟩
    have hone := rebalance_idle hpp hunit drained' hcur h₁
    obtain ⟨hcounter, _, _, hstages⟩ := (rebalance_moved h₁).1.frame
    have hshift : ∀ k, S₁.upcoming k = S.upcoming (k + 1) := upcoming_succ hcounter
    have hsize₁ : S₁.curPP.ppSize = cfg.ppSize := by rw [hcounter]; exact hsize
    have hstep : ∀ {S'}, rebalanceRound cfg tpot n S₁ = some S' →
        rebalanceRound cfg tpot (n + 1) S = some S' := fun h' => by
      simp only [rebalanceRound]
      exact Option.bind_eq_some_iff.mpr ⟨S₁, h₁, h'⟩
    have hhead : S.advance.pendingShare cfg S.advance.cur = S.pendingShare cfg (S.upcoming 0) := by
      rw [advance_cur]; rfl
    rw [hhead] at hone
    have hother : ∀ k < n, S.upcoming (k + 1) ≠ S.upcoming 0 := fun k hk heq =>
      absurd (upcoming_inj (by omega) (by omega) heq) (by omega)
    obtain ⟨S', h', hkeep⟩ := rebalanceRound_total tpot hpp hunit (n := n) (by omega)
      hsize₁ aligned₁.pending fun k hk => by
        rw [hshift, hstages _ (advance_cur S ▸ hother k hk)]
        exact drained.runningIdle _ (hlt (k + 1))
    have hfirst : S'.stages (S.upcoming 0) = S₁.stages (S.upcoming 0) :=
      hkeep _ fun k hk => hshift k ▸ hother k hk
    refine ⟨S', hstep h', ?_⟩
    split at hone
    next hshare =>
      refine ⟨fun _ => ⟨0, by omega, hshare⟩, fun _ => ⟨0, by omega, ?_⟩⟩
      have hsame : S₁.cur = S.upcoming 0 := by rw [cur, hcounter, ← advance_cur]; rfl
      rw [hfirst, ← hsame]
      exact hone
    next hshare =>
      subst hone
      obtain ⟨S'', h'', hiff⟩ := ih (S := S.advance) (by omega) hsize₁ drained' aligned
      cases Option.some.inj (h'.symm.trans h'')
      have hidle : reqsOf (S'.stages (S.upcoming 0)).runningBatch = [] := by
        rw [hfirst]
        exact drained.runningIdle _ (hlt 0)
      constructor
      · rintro ⟨k, hk, hne⟩
        cases k with
        | zero => exact absurd hidle hne
        | succ k =>
          obtain ⟨l, hl, hle⟩ := hiff.mp ⟨k, by omega, by rw [hshift]; exact hne⟩
          exact ⟨l + 1, by omega, by rw [hshift] at hle; exact hle⟩
      · rintro ⟨k, hk, hle⟩
        cases k with
        | zero => exact absurd hle hshare
        | succ k =>
          obtain ⟨l, hl, hne⟩ := hiff.mpr ⟨k, by omega, by rw [hshift]; exact hle⟩
          exact ⟨l + 1, by omega, by rw [hshift] at hne; exact hne⟩

/-- From an idle system with pending requests, one rebalance for each index puts a
request into a running batch exactly when the pending share of some index reaches
the number of ranks. -/
theorem pending_taken_iff (cfg : Config) (tpot : Rat) (rows : Rows) (S : Sched M)
    (hpp : 0 < cfg.ppSize) (hunit : 0 < cfg.brBaseUnit) (hsize : S.curPP.ppSize = cfg.ppSize)
    (drained : S.Drained cfg) (aligned : AlignedUnlessEmpty S.heap rows S.pendingBatch) :
    (∃ S', rebalanceRound cfg tpot cfg.ppSize S = some S' ∧ S'.SomeRunning cfg) ↔
      ∃ i < cfg.ppSize, (cfg.ppSize : Int) ≤ S.pendingShare cfg i := by
  obtain ⟨S', h', hiff⟩ := rebalanceRound_idle tpot hpp hunit le_rfl hsize drained aligned
  have hreach : ∀ {P : Nat → Prop},
      (∃ i < cfg.ppSize, P i) ↔ ∃ k < cfg.ppSize, P (S.upcoming k) := by
    intro P
    constructor
    · rintro ⟨i, hi, h⟩
      obtain ⟨k, hk, rfl⟩ := exists_upcoming (S := S) (by omega : i < S.curPP.ppSize)
      exact ⟨k, by omega, h⟩
    · rintro ⟨k, _, h⟩
      exact ⟨_, hsize ▸ upcoming_lt (by omega) k, h⟩
  rw [hreach, ← hiff]
  constructor
  · rintro ⟨S'', h'', hrunning⟩
    cases Option.some.inj (h'.symm.trans h'')
    exact hreach.mp hrunning
  · exact fun h => ⟨S', h', hreach.mpr h⟩

end Round

end Sched

/-- Two pending requests of an otherwise idle system of two ranks. -/
def twoPending : Sched Memory :=
  { Sched.init twoRanks 0 (Memory.clear 8 100) with pendingBatch := some (blankBatch [0, 1]) }

theorem pending_taken_iff_twoPending :
    ∃ S', Sched.rebalanceRound twoRanks 0 2 twoPending = some S' ∧ S'.SomeRunning twoRanks :=
  (Sched.pending_taken_iff twoRanks 0 ⟨id, fun _ => 1, fun _ => 0⟩ twoPending (by decide)
    (by decide) rfl ⟨by decide, rfl, fun _ _ => rfl, fun _ _ => rfl⟩
    fun _ hb _ => Option.some.inj hb ▸ blankBatch_aligned [0, 1]).mpr
    ⟨0, by decide, by decide +kernel⟩

/-- Three pipeline ranks. -/
def threeRanks : Config := { twoRanks with ppSize := 3 }

/-- A greedy request for `maxNewTokens` tokens after the prompt `inputIds`. -/
def plainInput (rid : Nat) (inputIds : List Nat) (maxNewTokens : Nat) : GenerateInput where
  rid := rid
  inputIds := inputIds
  samplingParams := Req.blank.samplingParams
  maxNewTokens := some maxNewTokens
  returnLogprob := false
  logprobStartLen := -1
  topLogprobsNum := 0
  loraPath := none
  invalidSession := false

/-- Two requests in the first step, for two and for four tokens, and nothing later. -/
def twoArrivals (step : Nat) : StepInput where
  recvReqs := if step = 0 then
    [.generate (plainInput 1 [5] 2), .generate (plainInput 2 [5] 4)] else []
  availableSize := 100
  chunkSync := none
  tpot := 0

/-- The last of three ranks after seven steps of that run. -/
def strandedRun : Option (Sched Memory) :=
  Sched.run threeRanks 2 (Memory.clear 4 100) twoArrivals (fun _ i => i) 7

theorem strandedRun_view : strandedRun.map (fun S =>
    ((reqsOf S.pendingBatch, S.waitingQueue),
      (List.range 3).map (fun j => reqsOf (S.stages j).last),
      (List.range 3).map (fun j => reqsOf (S.stages j).runningBatch), (S.heap 1).finished)) =
    some (([1], []), [[], [], []], [[], [], []], false) := by
  decide +kernel

theorem strandedRun_round : (strandedRun.bind (Sched.rebalanceRound threeRanks 0 3)).map (fun S =>
    (List.range 3).map fun j => reqsOf (S.stages j).runningBatch) = some [[], [], []] := by
  decide +kernel

/-- The second request stays pending for ever: the first finished, and one pending
request divided by three ranks is none to take. -/
theorem pending_request_stranded :
    ∃ S, strandedRun = some S ∧ S.Drained threeRanks ∧
      (∀ q ∈ reqsOf S.pendingBatch, (S.heap q).finished = false) ∧
      ¬ ∃ S', Sched.rebalanceRound threeRanks 0 threeRanks.ppSize S = some S' ∧
        S'.SomeRunning threeRanks := by
  obtain ⟨S, hS, hview⟩ := Option.map_eq_some_iff.mp strandedRun_view
  simp only [Prod.mk.injEq] at hview
  obtain ⟨⟨hpending, hwaiting⟩, hlast, hrunning, hfinished⟩ := hview
  have allNil : ∀ {f : Nat → List Nat}, (List.range 3).map f = [[], [], []] →
      ∀ j < 3, f j = [] := by
    intro f hf j hj
    have hmem : f j ∈ (List.range 3).map f := List.mem_map_of_mem (List.mem_range.mpr hj)
    rw [hf] at hmem
    simpa using hmem
  refine ⟨S, hS, ⟨by simp [hpending], hwaiting, allNil hlast, allNil hrunning⟩,
    by simpa [hpending] using hfinished, ?_⟩
  rintro ⟨S', h', j, hj, hne⟩
  have hround := strandedRun_round
  rw [hS, Option.bind_some] at hround
  obtain ⟨S'', h'', hnil⟩ := Option.map_eq_some_iff.mp hround
  cases Option.some.inj (h'.symm.trans h'')
  exact hne (allNil hnil j hj)

end FastPP
