import FastPP.Pipeline.Layers
import Mathlib.Data.List.Induction
import Mathlib.Data.Vector.Basic

namespace FastPP.Pipeline

/-- The tensors between two layers: `hidden_states` and `residual`, with a row for each of
the `n` tokens of the batch. -/
structure Activations (Row : Type) (n : Nat) where
  hiddenStates : List.Vector Row n
  residual : Option (List.Vector Row n)

namespace Activations

variable {Row : Type} {n : Nat}

/-- `torch.cat((hidden_states, residual), dim=0)`; it fails where there is no residual yet. -/
def cat (act : Activations Row n) : Option (List Row) :=
  act.residual.map fun residual => act.hiddenStates.toList ++ residual.toList

/-- The rows of a received tensor of `2 * n` rows, split in the middle. -/
def split (rows : List Row) (h : rows.length = n <<< 1) : Activations Row n :=
  let splitIdx := rows.length >>> 1
  ⟨⟨rows.take splitIdx, by simp [splitIdx, h, Nat.shiftLeft_eq, Nat.shiftRight_eq_div_pow]; omega⟩,
    some ⟨rows.drop splitIdx, by
      simp [splitIdx, h, Nat.shiftLeft_eq, Nat.shiftRight_eq_div_pow]; omega⟩⟩

theorem cat_length {act : Activations Row n} {rows : List Row} (h : act.cat = some rows) :
    rows.length = n <<< 1 := by
  obtain ⟨residual, -, rfl⟩ := Option.map_eq_some_iff.mp h
  rw [List.length_append, List.Vector.toList_length, List.Vector.toList_length,
    Nat.shiftLeft_eq]
  omega

/-- The next rank splits what it receives into what was joined. -/
theorem split_cat {act : Activations Row n} {rows : List Row} (h : act.cat = some rows)
    (hlen : rows.length = n <<< 1) : split rows hlen = act := by
  obtain ⟨residual, hres, rfl⟩ := Option.map_eq_some_iff.mp h
  have hidx : (act.hiddenStates.toList ++ residual.toList).length >>> 1 = n := by
    rw [hlen, Nat.shiftLeft_eq, Nat.shiftRight_eq_div_pow]
    omega
  have hfront : (act.hiddenStates.toList ++ residual.toList).take n = act.hiddenStates.toList :=
    List.take_left' act.hiddenStates.toList_length
  have hback : (act.hiddenStates.toList ++ residual.toList).drop n = residual.toList :=
    List.drop_left' act.hiddenStates.toList_length
  obtain ⟨hiddenStates, residual'⟩ := act
  simp only at hres
  subst hres
  refine congrArg₂ Activations.mk (Subtype.ext ?_) (congrArg some (Subtype.ext ?_))
  · show List.take _ _ = _
    rw [hidx]
    exact hfront
  · show List.drop _ _ = _
    rw [hidx]
    exact hback

end Activations

/-- What the ranks run: the batches, the layers of the model with the buffer of keys and
values each reads and writes, and the sampler of the last rank. -/
structure Engine where
  Batch : Type
  Row : Type
  Kv : Type
  Rng : Type
  Ids : Type
  /-- The test of `run_batch` for `forward_batch_generation`. -/
  forwards : Batch → Bool
  numTokens : Batch → Nat
  embedTokens : (batch : Batch) → List.Vector Row (numTokens batch)
  numHiddenLayers : Nat
  layer : Nat → (batch : Batch) → Kv → Activations Row (numTokens batch) →
    Kv × List.Vector Row (numTokens batch) × List.Vector Row (numTokens batch)
  sample : (batch : Batch) → Activations Row (numTokens batch) → Rng → Rng × Ids
  /-- The zeros that `run_batch` takes for a batch without a token to extend. -/
  fill : Batch → Ids
  emptyKv : Kv
  seed : Rng

variable {E : Engine}

/-- The loop of `forward` over the layers of a rank, where `buffer` names the buffer of a
layer. -/
def runLayers (E : Engine) (buffer : Nat → Nat) (batch : E.Batch) (layers : List Nat)
    (kv : Nat → E.Kv) (act : Activations E.Row (E.numTokens batch)) :
    (Nat → E.Kv) × Activations E.Row (E.numTokens batch) :=
  layers.foldl (fun state i =>
    let out := E.layer i batch (state.1 (buffer i)) state.2
    (Function.update state.1 (buffer i) out.1, ⟨out.2.1, some out.2.2⟩)) (kv, act)

theorem runLayers_cons (buffer : Nat → Nat) (batch : E.Batch) (i : Nat) (layers : List Nat)
    (kv : Nat → E.Kv) (act : Activations E.Row (E.numTokens batch)) :
    runLayers E buffer batch (i :: layers) kv act =
      runLayers E buffer batch layers
        (Function.update kv (buffer i) (E.layer i batch (kv (buffer i)) act).1)
        ⟨(E.layer i batch (kv (buffer i)) act).2.1,
          some (E.layer i batch (kv (buffer i)) act).2.2⟩ := rfl

theorem runLayers_append (buffer : Nat → Nat) (batch : E.Batch) (front back : List Nat)
    (kv : Nat → E.Kv) (act : Activations E.Row (E.numTokens batch)) :
    runLayers E buffer batch (front ++ back) kv act =
      runLayers E buffer batch back (runLayers E buffer batch front kv act).1
        (runLayers E buffer batch front kv act).2 := by
  simp only [runLayers, List.foldl_append]

/-- The loop leaves the buffers of other layers alone. -/
theorem runLayers_other {buffer : Nat → Nat} {batch : E.Batch} {layers : List Nat} {j : Nat}
    (h : ∀ i ∈ layers, buffer i ≠ j) (kv : Nat → E.Kv)
    (act : Activations E.Row (E.numTokens batch)) :
    (runLayers E buffer batch layers kv act).1 j = kv j := by
  induction layers generalizing kv act with
  | nil => rfl
  | cons i layers ih =>
    rw [runLayers_cons, ih (fun k hk => h k (List.mem_cons_of_mem i hk)),
      Function.update_of_ne (h i List.mem_cons_self).symm]

/-- After a layer there is a residual. -/
theorem runLayers_residual (buffer : Nat → Nat) (batch : E.Batch) (layers : List Nat)
    (kv : Nat → E.Kv) (act : Activations E.Row (E.numTokens batch))
    (h : layers ≠ [] ∨ act.residual.isSome) :
    (runLayers E buffer batch layers kv act).2.residual.isSome := by
  induction layers generalizing kv act with
  | nil => simpa [runLayers] using h
  | cons i layers ih => exact ih _ _ (Or.inr rfl)

/-- Two workers that hold the same keys and values for the layers of a list, each in buffers
of its own, run these layers alike and hold the same afterwards. -/
theorem runLayers_agree (buffer buffer' : Nat → Nat) {batch : E.Batch} {layers : List Nat}
    (kv kv' : Nat → E.Kv) (own : ∀ i ∈ layers, ∀ j ∈ layers, buffer i = buffer j → i = j)
    (own' : ∀ i ∈ layers, ∀ j ∈ layers, buffer' i = buffer' j → i = j)
    (hkv : ∀ i ∈ layers, kv (buffer i) = kv' (buffer' i))
    (act : Activations E.Row (E.numTokens batch)) :
    (runLayers E buffer batch layers kv act).2 = (runLayers E buffer' batch layers kv' act).2 ∧
      ∀ i ∈ layers, (runLayers E buffer batch layers kv act).1 (buffer i) =
        (runLayers E buffer' batch layers kv' act).1 (buffer' i) := by
  -- the layers before the last one first, so that the buffers written by now are the same
  induction layers using List.reverseRecOn with
  | nil => exact ⟨rfl, fun i hi => absurd hi List.not_mem_nil⟩
  | append_singleton front i ih =>
    have hfront : ∀ k ∈ front, k ∈ front ++ [i] := fun k hk => List.mem_append_left _ hk
    have hlast : i ∈ front ++ [i] := List.mem_append_right _ List.mem_cons_self
    obtain ⟨hact, hbuf⟩ := ih (fun j hj k hk => own j (hfront j hj) k (hfront k hk))
      (fun j hj k hk => own' j (hfront j hj) k (hfront k hk)) fun j hj => hkv j (hfront j hj)
    have hread : (runLayers E buffer batch front kv act).1 (buffer i) =
        (runLayers E buffer' batch front kv' act).1 (buffer' i) := by
      by_cases hmem : i ∈ front
      · exact hbuf i hmem
      · rw [runLayers_other fun j hj heq => hmem (own j (hfront j hj) i hlast heq ▸ hj),
          runLayers_other fun j hj heq => hmem (own' j (hfront j hj) i hlast heq ▸ hj)]
        exact hkv i hlast
    rw [runLayers_append, runLayers_append]
    simp only [runLayers_cons, hact, hread]
    refine ⟨rfl, fun j hj => ?_⟩
    by_cases hji : j = i
    · subst hji
      simp only [runLayers, List.foldl_nil, Function.update_self]
    · have hjf : j ∈ front := by
        rcases List.mem_append.mp hj with hj | hj
        · exact hj
        · exact absurd (List.mem_singleton.mp hj) hji
      simp only [runLayers, List.foldl_nil]
      rw [Function.update_of_ne fun heq => hji (own j hj i hlast heq),
        Function.update_of_ne fun heq => hji (own' j hj i hlast heq)]
      exact hbuf j hjf

/-- One worker that holds all layers, with a buffer for each, and runs the batches one at a
time. -/
structure Reference (E : Engine) where
  kv : Nat → E.Kv
  rng : E.Rng
  results : List (Nat × E.Ids)

/-- What the scheduler runs at a step, by the results it has processed. -/
abbrev Dispatch (E : Engine) := Nat → List (Nat × E.Ids) → Option E.Batch

variable (dispatch : Dispatch E)

def Reference.step (R : Reference E) (t : Nat) : Reference E :=
  match dispatch t R.results with
  | none => R
  | some batch =>
    let (kv, act) := runLayers E id batch (List.range E.numHiddenLayers) R.kv
      ⟨E.embedTokens batch, none⟩
    let (rng, ids) := E.sample batch act R.rng
    ⟨kv, rng, R.results ++ [(t, ids)]⟩

/-- The worker after the batches of the first `n` steps. -/
def reference : Nat → Reference E
  | 0 => ⟨fun _ => E.emptyKv, E.seed, []⟩
  | n + 1 => (reference n).step dispatch n

/-- The batch of a step. -/
def batchAt (t : Nat) : Option E.Batch := dispatch t (reference dispatch t).results

/-- The activations of a batch after the first `i` layers. -/
def activationsAt (t i : Nat) (batch : E.Batch) : Activations E.Row (E.numTokens batch) :=
  (runLayers E id batch (List.range i) (reference dispatch t).kv ⟨E.embedTokens batch, none⟩).2

/-- The generator and the token ids after sampling for a batch. -/
def sampleAt (t : Nat) (batch : E.Batch) : E.Rng × E.Ids :=
  E.sample batch (activationsAt dispatch t E.numHiddenLayers batch) (reference dispatch t).rng

variable {dispatch}

theorem reference_succ_none {t : Nat} (h : batchAt dispatch t = none) :
    reference dispatch (t + 1) = reference dispatch t := by
  unfold batchAt at h
  rw [reference, Reference.step, h]

theorem reference_succ_some {t : Nat} {batch : E.Batch} (h : batchAt dispatch t = some batch) :
    reference dispatch (t + 1) =
      ⟨(runLayers E id batch (List.range E.numHiddenLayers) (reference dispatch t).kv
          ⟨E.embedTokens batch, none⟩).1,
        (sampleAt dispatch t batch).1,
        (reference dispatch t).results ++ [(t, (sampleAt dispatch t batch).2)]⟩ := by
  unfold batchAt at h
  rw [reference, Reference.step, h]
  rfl

theorem range_add (m n : Nat) : List.range (m + n) = List.range m ++ List.range' m n := by
  rw [List.range_eq_range', List.range_eq_range', ← List.range'_append_1, Nat.zero_add]

/-- A worker that holds what the reference holds for a range of layers runs them as the
reference does. -/
theorem runLayers_reference {t first count : Nat} {batch : E.Batch} {buffer : Nat → Nat}
    {kv : Nat → E.Kv} (hbatch : batchAt dispatch t = some batch)
    (hle : first + count ≤ E.numHiddenLayers)
    (own : ∀ i ∈ List.range' first count, ∀ j ∈ List.range' first count,
      buffer i = buffer j → i = j)
    (hkv : ∀ i ∈ List.range' first count, kv (buffer i) = (reference dispatch t).kv i) :
    (runLayers E buffer batch (List.range' first count) kv
        (activationsAt dispatch t first batch)).2 =
        activationsAt dispatch t (first + count) batch ∧
      ∀ i ∈ List.range' first count,
        (runLayers E buffer batch (List.range' first count) kv
          (activationsAt dispatch t first batch)).1 (buffer i) =
          (reference dispatch (t + 1)).kv i := by
  have hsplit := range_add first count
  have hrest : List.range E.numHiddenLayers = List.range (first + count) ++
      List.range' (first + count) (E.numHiddenLayers - (first + count)) := by
    rw [← range_add]
    congr 1
    omega
  -- the layers before `first` have not touched the buffers of the range
  have hbefore : ∀ i ∈ List.range' first count, kv (buffer i) =
      (runLayers E id batch (List.range first) (reference dispatch t).kv
        ⟨E.embedTokens batch, none⟩).1 (id i) := by
    intro i hi
    rw [hkv i hi, runLayers_other]
    · rfl
    · intro j hj heq
      have h1 := List.mem_range.mp hj
      have h2 := List.mem_range'_1.mp hi
      simp only [id] at heq
      omega
  obtain ⟨hact, hbuf⟩ := runLayers_agree buffer id kv _ own (fun i _ j _ h => h) hbefore
    (activationsAt dispatch t first batch)
  constructor
  · rw [hact, activationsAt, activationsAt, hsplit, runLayers_append]
  · intro i hi
    rw [hbuf i hi, reference_succ_some hbatch, hrest, hsplit, runLayers_append, runLayers_append]
    refine (runLayers_other ?_ _ _).symm
    · intro j hj heq
      have h1 := List.mem_range'_1.mp hj
      have h2 := List.mem_range'_1.mp hi
      simp only [id] at heq
      omega

end FastPP.Pipeline
