import FastPP.Lib.StepLog
import FastPP.Pipeline.Network

namespace FastPP.Pipeline

open StepLog

variable {E : Engine}

/-- What the results below rest on: the layers are split among the ranks and those of a rank
do not share a buffer, the first rank has a layer to make a residual, every batch has a
forward pass, and a batch depends on the results that every rank has by then. -/
structure Sound (C : Settings E) (bound : Nat → Nat) : Prop where
  pos : 0 < C.ppSize
  splits : Splits C.ppIndices E.numHiddenLayers C.ppSize bound
  distinct : ∀ r < C.ppSize, DistinctBuffers E.numHiddenLayers C.ppSize bound r
  firstLayer : 1 < C.ppSize → 0 < bound 1
  forwards : ∀ t results batch, C.dispatch t results = some batch → E.forwards batch = true
  timely : ∀ t results, C.dispatch t results =
    C.dispatch t (results.filter fun x => decide (x.1 + C.ppSize ≤ t))

variable {C : Settings E} {bound : Nat → Nat}

/-- The tensor that a rank with its last layer before `i` sends for the batch of a step. -/
def tensorAt (dispatch : Dispatch E) (i s : Nat) : Option (List E.Row) :=
  (batchAt dispatch s).bind fun batch => (activationsAt dispatch s i batch).cat

def idsAt (dispatch : Dispatch E) (s : Nat) : Option E.Ids :=
  (batchAt dispatch s).map fun batch => (sampleAt dispatch s batch).2

def resultAt (dispatch : Dispatch E) (s : Nat) : Option (Nat × E.Ids) :=
  (idsAt dispatch s).map fun ids => (s, ids)

/-- The batches of the steps before `n`. -/
def batches (dispatch : Dispatch E) (n : Nat) : Nat := (made (batchAt dispatch) n).length

theorem idsAt_isSome (dispatch : Dispatch E) (s : Nat) :
    (idsAt dispatch s).isSome = (batchAt dispatch s).isSome :=
  Option.isSome_map

theorem tensorAt_isSome (dispatch : Dispatch E) {i : Nat} (hi : 0 < i) (s : Nat) :
    (tensorAt dispatch i s).isSome = (batchAt dispatch s).isSome := by
  unfold tensorAt
  cases hb : batchAt dispatch s with
  | none => rfl
  | some batch =>
    have hres : (activationsAt dispatch s i batch).residual.isSome :=
      runLayers_residual _ _ _ _ _ (Or.inl (List.range_eq_nil.not.mpr (by omega)))
    obtain ⟨residual, hr⟩ := Option.isSome_iff_exists.mp hres
    simp [Activations.cat, hr]

theorem reference_results (dispatch : Dispatch E) (n : Nat) :
    (reference dispatch n).results = made (resultAt dispatch) n := by
  induction n with
  | zero => rfl
  | succ n ih =>
    rw [made_succ, ← ih]
    cases hb : batchAt dispatch n with
    | none => rw [reference_succ_none hb]; simp [resultAt, idsAt, hb]
    | some batch => rw [reference_succ_some hb]; simp [resultAt, idsAt, hb]

/-- A rank that has processed the results of `n` or more steps forms the batch of the
reference. -/
theorem Sound.dispatch_eq (h : Sound C bound) {t m : Nat} (hm : t + 1 - C.ppSize ≤ m) :
    C.dispatch t (made (resultAt C.dispatch) m) = batchAt C.dispatch t := by
  have hname : ∀ s x, resultAt C.dispatch s = some x → x.1 = s := by
    intro s x hx
    obtain ⟨ids, -, rfl⟩ := Option.map_eq_some_iff.mp hx
    rfl
  have hpos := h.pos
  rw [batchAt, reference_results, h.timely, made_filter hname hm, h.timely t (made _ t),
    made_filter hname (by omega)]

theorem Sound.batch_forwards (h : Sound C bound) {t : Nat} {batch : E.Batch}
    (hb : batchAt C.dispatch t = some batch) : E.forwards batch = true :=
  h.forwards _ _ _ hb

/-- A rank other than the last one ends after the first layer. -/
theorem Sound.bound_pos (h : Sound C bound) {r : Nat} (hr : 0 < r) (hr' : r < C.ppSize) :
    0 < bound r := by
  have h1 := h.firstLayer (by omega)
  have h2 := h.splits.mono (show 1 ≤ r by omega) (by omega)
  omega

/-- The layers of a rank, where `make_layers` put them. -/
theorem Sound.ownLayers (h : Sound C bound) {r : Nat} (hr : r < C.ppSize) :
    Net.ownLayers C r = some (List.range' (bound r) (bound (r + 1) - bound r)) := by
  obtain ⟨layers, hmake, -, hget⟩ := h.splits.makeLayers hr
  have hle := h.splits.ordered r hr
  have hcount : ((bound (r + 1) : Int) - (bound r : Int)).toNat = bound (r + 1) - bound r := by
    omega
  have hrange : (List.range (bound (r + 1) - bound r)).map (bound r + ·) =
      List.range' (bound r) (bound (r + 1) - bound r) := by
    rw [List.range_eq_range', List.map_add_range', Nat.add_zero]
  simp only [Net.ownLayers, hmake, hcount, Int.toNat_natCast, hrange]
  have hall : ∀ l : List Nat, (∀ i ∈ l, bound r ≤ i ∧ i < bound (r + 1)) →
      l.mapM (fun i => layers[i]?.join) = some l := by
    intro l hl
    induction l with
    | nil => rfl
    | cons i l ih =>
      obtain ⟨h1, h2⟩ := hl i List.mem_cons_self
      rw [List.mapM_cons, hget i h1 h2, ih fun j hj => hl j (List.mem_cons_of_mem i hj)]
      rfl
  refine hall _ fun i hi => ?_
  have := List.mem_range'_1.mp hi
  omega

theorem Sound.distinct_range (h : Sound C bound) {r : Nat} (hr : r < C.ppSize) :
    ∀ i ∈ List.range' (bound r) (bound (r + 1) - bound r),
      ∀ j ∈ List.range' (bound r) (bound (r + 1) - bound r),
        bufferOf (layerNum E.numHiddenLayers C.ppSize) i =
          bufferOf (layerNum E.numHiddenLayers C.ppSize) j → i = j := by
  intro i hi j hj
  have h1 := List.mem_range'_1.mp hi
  have h2 := List.mem_range'_1.mp hj
  exact h.distinct r hr i j h1.1 (by omega) h2.1 (by omega)

/-- The steps whose forward pass a rank has done. -/
def Rank.forwarded (R : Rank E) : Nat :=
  match R.phase with
  | .top | .running .. => R.steps
  | .exchanging .. | .sending .. => R.steps + 1

/-- The steps whose broadcast a rank has done. -/
def Rank.exchanged (R : Rank E) : Nat :=
  match R.phase with
  | .top | .running .. | .exchanging .. => R.steps
  | .sending .. => R.steps + 1

/-- The batch awaiting its result at step `t`, `lag` steps after its own. -/
def pipeAt (dispatch : Dispatch E) (lag t : Nat) : Option (Nat × E.Batch) :=
  if lag ≤ t then (batchAt dispatch (t - lag)).map fun b => (t - lag, b) else none

/-- The part of an iteration that a rank carries from one action to the next. -/
def PhaseAgrees (C : Settings E) (bound : Nat → Nat) (r t : Nat) : Phase E → Prop
  | .top => True
  | .running batch pipe =>
    batch = batchAt C.dispatch t ∧
      (r + 1 < C.ppSize → pipe = pipeAt C.dispatch (C.ppSize - 1 - r) t)
  | .exchanging batch pipe out =>
    batch = batchAt C.dispatch t ∧
      (r + 1 < C.ppSize → pipe = pipeAt C.dispatch (C.ppSize - 1 - r) t) ∧
      (match batch with
        | none => out = .idle
        | some batch =>
          if r + 1 = C.ppSize then out = .sampled (sampleAt C.dispatch t batch).2
          else ∃ rows, (activationsAt C.dispatch t (bound (r + 1)) batch).cat = some rows ∧
            out = .tensor rows)
  | .sending batch pipe tensor ids =>
    batch = batchAt C.dispatch t ∧
      (r + 1 < C.ppSize → pipe = pipeAt C.dispatch (C.ppSize - 1 - r) t) ∧
      (if r + 1 = C.ppSize then tensor = none ∧ ids = idsAt C.dispatch t
        else tensor = tensorAt C.dispatch (bound (r + 1)) t ∧
          ids = (pipeAt C.dispatch (C.ppSize - 1 - r) t).bind fun x => idsAt C.dispatch x.1)

/-- A rank is where the reference is after the steps it has done. -/
structure Agrees (C : Settings E) (bound : Nat → Nat) (r : Nat) (R : Rank E) : Prop where
  begun : R.begun = match R.phase with | .top => R.steps | _ => R.steps + 1
  counter : R.curPP = .after C.ppSize r R.begun
  recent : ∀ s < R.steps, R.steps ≤ s + C.ppSize →
    R.lastBatch (s % C.ppSize) = (batchAt C.dispatch s).map fun b => (s, b)
  unused : ∀ j < C.ppSize, R.steps ≤ j → R.lastBatch j = none
  kv : ∀ i ∈ List.range' (bound r) (bound (r + 1) - bound r),
    R.kv (bufferOf (layerNum E.numHiddenLayers C.ppSize) i) =
      (reference C.dispatch R.forwarded).kv i
  rng : r + 1 = C.ppSize → R.rng = (reference C.dispatch R.forwarded).rng
  sent : r + 1 < C.ppSize → R.sent = made (tensorAt C.dispatch (bound (r + 1))) R.steps
  taken : 0 < r → R.taken = batches C.dispatch R.forwarded
  broadcasts : r + 1 = C.ppSize → R.broadcasts = made (idsAt C.dispatch) R.exchanged
  received : r + 1 < C.ppSize →
    R.received = batches C.dispatch (R.exchanged - (C.ppSize - 1 - r))
  processed : R.processed = made (resultAt C.dispatch) (R.steps - (C.ppSize - 1 - r))
  phase : PhaseAgrees C bound r R.steps R.phase

theorem agrees_init (C : Settings E) (bound : Nat → Nat) (r : Nat) :
    Agrees C bound r (.init E C.ppSize r) where
  begun := rfl
  counter := rfl
  recent s hs := absurd hs (Nat.not_lt_zero s)
  unused _ _ _ := rfl
  kv _ _ := rfl
  rng _ := rfl
  sent _ := rfl
  taken _ := rfl
  broadcasts _ := rfl
  received _ := by simp [Rank.init, Rank.exchanged, batches]
  processed := by simp [Rank.init]
  phase := trivial

end FastPP.Pipeline
