import FastPP.Overlap.FutureRuns

namespace FastPP

open BlockWrites

variable {limit : Nat} {batches : List OverlapBatch} {sample : Nat → List Int → Nat → Int}
  {sys : OverlapSystem} {actions : List OverlapAction}

theorem overlapInv_init (limit : Nat) (batches : List OverlapBatch)
    (sample : Nat → List Int → Nat → Int) (empty : Nat → Int) :
    OverlapInv limit batches sample (.init limit empty) where
  limitEq := rfl
  issuedLe := Nat.zero_le _
  ranLe := Nat.zero_le _
  issued := fun p source hp => absurd hp (Nat.not_lt_zero p)
  ct := by simp [OverlapSystem.init, TpModelWorkerClient.init, counterAt]
  queue := rfl
  mapLength := by simp [OverlapSystem.init, TpModelWorkerClient.init]
  cells := fun x q hq => absurd hq.1 (Nat.not_lt_zero q)
  sampled := fun k b ran _ hran => by simp [OverlapSystem.init] at hran
  resolved := fun k b j p i q ran _ _ hran => by simp [OverlapSystem.init] at hran

/-- Every interleaving that pushes the rest of the batches goes through. -/
theorem overlapInv_run (hlimit : 0 < limit) (hwell : WellPushed limit batches)
    (inv : OverlapInv limit batches sample sys)
    (hrest : pushed actions = batches.drop sys.issued.length) :
    ∃ sys', sys.run sample actions = some sys' ∧ OverlapInv limit batches sample sys' ∧
      sys'.issued.length = batches.length := by
  induction actions generalizing sys with
  | nil =>
    have hle := inv.issuedLe
    have hlen : 0 = batches.length - sys.issued.length := by
      simpa [pushed] using congrArg List.length hrest
    exact ⟨sys, rfl, inv, by omega⟩
  | cons action rest ih =>
    cases action with
    | push batch =>
      have hrest' : batch :: pushed rest = batches.drop sys.issued.length := hrest
      have hbatch : batches[sys.issued.length]? = some batch := by
        have hhead := congrArg (fun l : List OverlapBatch => l[0]?) hrest'
        simpa using hhead.symm
      obtain ⟨sys₁, hstep, inv₁, hissued, -⟩ := inv.push hwell hbatch
      have htail : pushed rest = batches.drop sys₁.issued.length := by
        have htl := congrArg List.tail hrest'
        rw [List.tail_drop, ← hissued] at htl
        exact htl
      obtain ⟨sys', hrun, hinv⟩ := ih inv₁ htail
      exact ⟨sys', by simp [OverlapSystem.run, hstep, hrun], hinv⟩
    | forward =>
      obtain ⟨sys₁, hstep, inv₁, hissued, -⟩ := inv.forward hlimit hwell
      have htail : pushed rest = batches.drop sys₁.issued.length := by
        rw [hissued]
        exact hrest
      obtain ⟨sys', hrun, hinv⟩ := ih inv₁ htail
      exact ⟨sys', by simp [OverlapSystem.run, hstep, hrun], hinv⟩

/-- The thread works off the queue. -/
theorem overlapInv_drain (hlimit : 0 < limit) (hwell : WellPushed limit batches)
    (inv : OverlapInv limit batches sample sys) (n : Nat)
    (hn : sys.ran.length + n = sys.issued.length) :
    ∃ sys', sys.run sample (List.replicate n .forward) = some sys' ∧
      OverlapInv limit batches sample sys' ∧ sys'.ran.length = sys.issued.length := by
  induction n generalizing sys with
  | zero => exact ⟨sys, rfl, inv, hn⟩
  | succ n ih =>
    obtain ⟨sys₁, hstep, inv₁, hissued, hran⟩ := inv.forward hlimit hwell
    have hran₁ := hran (by omega)
    obtain ⟨sys', hrun, hinv, hlen⟩ := ih inv₁ (by rw [hissued]; omega)
    refine ⟨sys', ?_, hinv, by rw [hlen, hissued]⟩
    simp [List.replicate_succ, OverlapSystem.run, hstep, hrun]

theorem run_append (sys : OverlapSystem) (first second : List OverlapAction) :
    sys.run sample (first ++ second) = (sys.run sample first).bind fun s => s.run sample second := by
  induction first generalizing sys with
  | nil => rfl
  | cons action rest ih =>
    cases hstep : sys.step sample action with
    | none => simp [OverlapSystem.run, hstep]
    | some sys₁ => simp [OverlapSystem.run, hstep, ih]

theorem ran_bs (inv : OverlapInv limit batches sample sys) {k : Nat} {batch : OverlapBatch}
    {ran : List Int × List Int} (hbatch : batches[k]? = some batch)
    (hran : sys.ran[k]? = some ran) {row : Nat} (hrow : row < batch.bs) :
    ran.2[row]? = some (sample k ran.1 row) := by
  rw [inv.sampled k batch ran hbatch hran]
  simp [hrow]

/-- A reference to a cell that no later block covers is resolved to its token. -/
theorem resolved_of_fresh (inv : OverlapInv limit batches sample sys)
    (hwell : WellPushed limit batches) (hfresh : FreshUntilUsed limit batches) {k : Nat}
    {batch : OverlapBatch} (hbatch : batches[k]? = some batch) {j p i : Nat}
    (hj : batch.inputIds[j]? = some (.future p i)) {ran : List Int × List Int}
    (hran : sys.ran[k]? = some ran) :
    ∃ source, sys.ran[p]? = some source ∧ ran.1[j]? = source.2[i]? := by
  have hmem := List.mem_of_getElem? hj
  obtain ⟨hp, source, hsource, hi⟩ := (hwell k batch hbatch).2 p i hmem
  have hk := (List.getElem?_eq_some_iff.mp hran).1
  have hholds : Holds (counterAt limit batches) (batchSize batches) k
      (counterAt limit batches p + i) p := by
    refine ⟨hp, ⟨by omega, by rw [batchSize_eq hsource]; omega⟩, fun q hpq hqk => ?_⟩
    exact hfresh k batch hbatch p i hmem q hpq hqk
  have hread := inv.resolved k batch j p i p ran hbatch hj hran hholds
  have hget : sys.ran[p]? = some sys.ran[p] := List.getElem?_eq_getElem (by omega)
  refine ⟨sys.ran[p], hget, ?_⟩
  rw [hread, sampledAt, hget, show counterAt limit batches p + i - counterAt limit batches p = i by
    omega]
  rfl

/-- The total size of the batches from `p` up to `k`. -/
def sizeBetween (batches : List OverlapBatch) (p k : Nat) : Nat :=
  (((batches.take k).drop p).map OverlapBatch.bs).sum

theorem sizeBetween_succ {p k : Nat} (hpk : p ≤ k) :
    sizeBetween batches p (k + 1) = sizeBetween batches p k + batchSize batches k := by
  unfold sizeBetween batchSize
  rw [List.take_add_one]
  cases hk : batches[k]? with
  | none => simp
  | some batch =>
    have hlt := (List.getElem?_eq_some_iff.mp hk).1
    have hlen : p ≤ (batches.take k).length := by
      rw [List.length_take]
      omega
    rw [List.drop_append_of_le_length hlen]
    simp

theorem sizeBetween_mono {p k k' : Nat} (hpk : p ≤ k) (hk : k ≤ k') :
    sizeBetween batches p k ≤ sizeBetween batches p k' := by
  induction hk with
  | refl => exact Nat.le_refl _
  | step hle ih =>
    have hstep := @sizeBetween_succ batches p _ (Nat.le_trans hpk hle)
    refine Nat.le_trans ih ?_
    show _ ≤ sizeBetween batches p (_ + 1)
    rw [hstep]
    exact Nat.le_add_right _ _

theorem counterAt_later {p k : Nat} (hpk : p ≤ k) :
    counterAt limit batches k =
      (counterAt limit batches p + sizeBetween batches p k) % limit := by
  have hsplit := List.take_append_drop p (batches.take k)
  rw [List.take_take, Nat.min_eq_left hpk] at hsplit
  unfold counterAt sizeBetween
  rw [Nat.mod_add_mod, ← List.sum_append, ← List.map_append, hsplit]

/-- A placeholder is fresh as long as the batches from its own up to its use have no more
requests in total than may run at once. -/
theorem freshUntilUsed_of_total (hlimit : 0 < limit) (hwell : WellPushed limit batches)
    (h : ∀ (k : Nat) (batch : OverlapBatch), batches[k]? = some batch →
      ∀ p i, InputId.future p i ∈ batch.inputIds → sizeBetween batches p k ≤ limit) :
    FreshUntilUsed limit batches := by
  intro k batch hbatch p i hmem q hpq hqk hcov
  obtain ⟨-, source, hsource, hi⟩ := (hwell k batch hbatch).2 p i hmem
  have htotal := h k batch hbatch p i hmem
  have hupto := @sizeBetween_mono batches p (q + 1) k (by omega) hqk
  have hnext := @sizeBetween_succ batches p q (by omega)
  have hown := @sizeBetween_mono batches p (p + 1) q (by omega) hpq
  have hfirst := @sizeBetween_succ batches p p (Nat.le_refl p)
  rw [batchSize_eq hsource] at hfirst
  have hlt := counterAt_lt hlimit batches p
  obtain ⟨hle, hgt⟩ := hcov
  rw [counterAt_later (show p ≤ q by omega)] at hle hgt
  -- either the counter has not wrapped since batch `p`, or it has wrapped once
  by_cases hwrap : counterAt limit batches p + sizeBetween batches p q < limit
  · rw [Nat.mod_eq_of_lt hwrap] at hle
    omega
  · rw [Nat.mod_eq_sub_mod (by omega), Nat.mod_eq_of_lt (by omega)] at hgt
    omega

/-- The interleaving that first pushes all batches and then runs them. -/
def pushThenForward (batches : List OverlapBatch) : List OverlapAction :=
  batches.map .push ++ List.replicate batches.length .forward

theorem pushed_pushThenForward (batches : List OverlapBatch) :
    pushed (pushThenForward batches) = batches := by
  have hpush : ∀ l : List OverlapBatch, pushed (l.map .push) = l := by
    intro l
    induction l with
    | nil => rfl
    | cons batch rest ih => exact congrArg (batch :: ·) ih
  have hforward : ∀ n, pushed (List.replicate n .forward) = [] := by
    intro n
    induction n with
    | zero => rfl
    | succ n ih => exact ih
  unfold pushThenForward
  have happend : ∀ a b, pushed (a ++ b) = pushed a ++ pushed b := fun a b => List.filterMap_append
  rw [happend, hpush, hforward, List.append_nil]

theorem pushes_only (sample : Nat → List Int → Nat → Int) (sys : OverlapSystem)
    (inv : OverlapInv limit batches sample sys) (hwell : WellPushed limit batches)
    {rest : List OverlapBatch} (hrest : rest = batches.drop sys.issued.length) :
    ∃ sys', sys.run sample (rest.map .push) = some sys' ∧ OverlapInv limit batches sample sys' ∧
      sys'.issued.length = batches.length ∧ sys'.ran = sys.ran := by
  induction rest generalizing sys with
  | nil =>
    have hle := inv.issuedLe
    have hlen : 0 = batches.length - sys.issued.length := by
      simpa using congrArg List.length hrest
    exact ⟨sys, rfl, inv, by omega, rfl⟩
  | cons batch rest ih =>
    have hbatch : batches[sys.issued.length]? = some batch := by
      have hhead := congrArg (fun l : List OverlapBatch => l[0]?) hrest
      simpa using hhead.symm
    obtain ⟨sys₁, hstep, inv₁, hissued, hran⟩ := inv.push hwell hbatch
    have htail : rest = batches.drop sys₁.issued.length := by
      have htl := congrArg List.tail hrest
      rw [List.tail_drop, ← hissued] at htl
      exact htl
    obtain ⟨sys', hrun, hinv, hlen, hran'⟩ := ih sys₁ inv₁ htail
    exact ⟨sys', by simp [OverlapSystem.run, hstep, hrun], hinv, hlen, hran'.trans hran⟩

/-- Pushing everything and then running it gets every batch run. -/
theorem run_pushThenForward (hlimit : 0 < limit) (hwell : WellPushed limit batches)
    (sample : Nat → List Int → Nat → Int) (empty : Nat → Int) :
    ∃ sys, (OverlapSystem.init limit empty).run sample (pushThenForward batches) = some sys ∧
      OverlapInv limit batches sample sys ∧ sys.ran.length = batches.length := by
  obtain ⟨sys₁, hrun₁, inv₁, hissued, hran⟩ := pushes_only sample _
    (overlapInv_init limit batches sample empty) hwell
    (show batches = batches.drop (OverlapSystem.init limit empty).issued.length from rfl)
  have hzero : sys₁.ran.length = 0 := by
    rw [hran]
    rfl
  obtain ⟨sys, hrun, inv, hlen⟩ := overlapInv_drain hlimit hwell inv₁ batches.length (by omega)
  refine ⟨sys, ?_, inv, by omega⟩
  rw [pushThenForward, run_append, hrun₁]
  exact hrun

/-- A block over the cell of a placeholder spoils it: the batches can sample tokens that
tell them apart. -/
theorem fresh_of_resolve (hlimit : 0 < limit) (hwell : WellPushed limit batches)
    (h : PlaceholdersResolve limit batches) : FreshUntilUsed limit batches := by
  intro k batch hbatch p i hmem q hpq hqk hcov
  obtain ⟨sys₀, hrun₀, hresolve⟩ := h (fun b _ _ => b) (fun _ => 0) _
    (pushed_pushThenForward batches)
  obtain ⟨sys, hrun, inv, hlen⟩ := run_pushThenForward hlimit hwell (fun b _ _ => (b : Int))
    fun _ => 0
  rw [hrun] at hrun₀
  have hsame : sys = sys₀ := Option.some.inj hrun₀
  subst hsame
  obtain ⟨j, hj⟩ := List.mem_iff_getElem?.mp hmem
  have hk := (List.getElem?_eq_some_iff.mp hbatch).1
  have hran : sys.ran[k]? = some sys.ran[k] := List.getElem?_eq_getElem (by omega)
  obtain ⟨source, hsource, hread⟩ := hresolve k batch hbatch j p i hj _ hran
  obtain ⟨hp, sourceBatch, hsb, hi⟩ := (hwell k batch hbatch).2 p i hmem
  rw [ran_bs inv hsb hsource hi] at hread
  -- the last block over the cell before the placeholder is used
  obtain ⟨last, hle, hholds⟩ := exists_holds hqk hcov
  have hlastLt := hholds.1
  have hlastCov := hholds.2.1
  have hlastRan : sys.ran[last]? = some sys.ran[last] := List.getElem?_eq_getElem (by omega)
  have hlastBatch : batches[last]? = some batches[last] := List.getElem?_eq_getElem (by omega)
  have hresolved := inv.resolved k batch j p i last _ hbatch hj hran hholds
  have hrow : counterAt limit batches p + i - counterAt limit batches last <
      batches[last].bs := by
    have hlt := hlastCov.2
    have hge := hlastCov.1
    rw [batchSize_eq hlastBatch] at hlt
    omega
  rw [hread, sampledAt, hlastRan, Option.bind_some, ran_bs inv hlastBatch hlastRan hrow] at hresolved
  have heq : (p : Int) = last := Option.some.inj hresolved
  omega

/-- Placeholders are resolved to the tokens of their batches exactly when no block lies
over the cell of a placeholder before it is used. -/
theorem placeholdersResolve_iff (hlimit : 0 < limit) (hwell : WellPushed limit batches) :
    PlaceholdersResolve limit batches ↔ FreshUntilUsed limit batches := by
  constructor
  · exact fresh_of_resolve hlimit hwell
  · intro hfresh sample empty actions hactions
    obtain ⟨sys, hrun, inv, -⟩ := overlapInv_run hlimit hwell
      (overlapInv_init limit batches sample empty) hactions
    exact ⟨sys, hrun, fun k batch hbatch j p i hj ran hran =>
      resolved_of_fresh inv hwell hfresh hbatch hj hran⟩

/-- A decode batch of one request, `chunks` chunks of a prefill, and the next decode batch
of the request. -/
def chunksBetween (chunks : Nat) : List OverlapBatch :=
  ⟨[.token 5], 1⟩ :: List.replicate chunks ⟨[.token 6], 1⟩ ++ [⟨[.future 0 0], 1⟩]

theorem chunksBetween_wellPushed {limit : Nat} (hlimit : 0 < limit) (chunks : Nat) :
    WellPushed limit (chunksBetween chunks) := by
  intro k batch hbatch
  unfold chunksBetween at hbatch
  rw [List.getElem?_append] at hbatch
  split at hbatch
  next =>
    cases k with
    | zero =>
      cases hbatch
      exact ⟨hlimit, by simp⟩
    | succ k =>
      rw [List.getElem?_cons_succ, List.getElem?_replicate] at hbatch
      split at hbatch
      next =>
        cases hbatch
        exact ⟨hlimit, by simp⟩
      next => cases hbatch
  next hk =>
    have hmem := List.mem_of_getElem? hbatch
    cases List.mem_singleton.mp hmem
    refine ⟨hlimit, ?_⟩
    intro p i hid
    cases List.mem_singleton.mp hid
    simp only [List.length_cons, List.length_replicate] at hk
    exact ⟨by omega, _, rfl, by decide⟩

/-- With at most two running requests the second chunk overwrites the token of the decode
batch. -/
theorem placeholder_overwritten : WellPushed 2 (chunksBetween 2) ∧
    ¬ PlaceholdersResolve 2 (chunksBetween 2) := by
  refine ⟨chunksBetween_wellPushed (by decide) 2, fun h => ?_⟩
  have hfresh := fresh_of_resolve (by decide) (chunksBetween_wellPushed (by decide) 2) h
  exact hfresh 3 _ rfl 0 0 (by decide) 2 (by decide) (by decide) (by decide)

theorem placeholdersResolve_oneChunk :
    PlaceholdersResolve 2 (chunksBetween 1) ↔ FreshUntilUsed 2 (chunksBetween 1) :=
  placeholdersResolve_iff (by decide) (chunksBetween_wellPushed (by decide) 1)

end FastPP
