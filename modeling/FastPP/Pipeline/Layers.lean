import Mathlib

namespace FastPP.Pipeline

/-- The digits of Python's `int`, with single underscores between them. -/
def pyDigits (value : Nat) (afterDigit : Bool) : List Char → Option Nat
  | [] => if afterDigit then some value else none
  | c :: cs =>
    if c.isDigit then pyDigits (10 * value + (c.toNat - '0'.toNat)) true cs
    else if c = '_' && afterDigit then pyDigits value false cs
    else none

/-- Python's `int` on a string. -/
def pyInt (s : String) : Option Int :=
  let text := ((s.toList.dropWhile Char.isWhitespace).reverse.dropWhile Char.isWhitespace).reverse
  match text with
  | '-' :: cs => (pyDigits 0 false cs).map fun n => -(n : Int)
  | '+' :: cs => (pyDigits 0 false cs).map fun n => (n : Int)
  | cs => (pyDigits 0 false cs).map fun n => (n : Int)

/-- `get_pp_indices` of `distributed/utils.py`; `partitionListStr` is the setting
`SGLANG_PP_LAYER_PARTITION`. -/
def getPpIndices (partitionListStr : Option String) (numHiddenLayers ppRank ppSize : Nat) :
    Except String (Int × Int) :=
  match partitionListStr with
  | some partitionListStr =>
    match (partitionListStr.splitOn ",").mapM pyInt with
    | none => .error s!"Invalid partition string: {partitionListStr}"
    | some partitions =>
      if partitions.length ≠ ppSize then
        .error s!"len(partitions)={partitions.length} does not match pp_size={ppSize}."
      else if partitions.sum ≠ numHiddenLayers then
        .error s!"sum(partitions)={partitions.sum} does not match num_hidden_layers={numHiddenLayers}."
      else
        let startLayer := (partitions.take ppRank).sum
        .ok (startLayer, startLayer + partitions.getD ppRank 0)
  | none =>
    let layersPerPartition := numHiddenLayers / ppSize
    let startLayer := ppRank * layersPerPartition
    let endLayer :=
      if ppRank + 1 = ppSize then numHiddenLayers else startLayer + layersPerPartition
    .ok (startLayer, endLayer)

/-- `ModelConfig.get_num_hidden_layers`: the buffers of the pool of one rank. -/
def layerNum (numHiddenLayers ppSize : Nat) : Nat := max 1 (numHiddenLayers / ppSize)

/-- The buffer that `set_kv_buffer` and `get_kv_buffer` take for a layer. -/
def bufferOf (layerNum layerId : Nat) : Nat := layerId % layerNum

/-- A function in the place of `get_pp_indices`: the range of a rank from the number of layers,
the rank and the number of ranks. -/
abbrev PpIndices := Nat → Nat → Nat → Except String (Int × Int)

/-- The ends of the ranges of the ranks, where `get_pp_indices` finds them in order. -/
structure Splits (ppIndices : PpIndices) (numHiddenLayers ppSize : Nat) (bound : Nat → Nat) :
    Prop where
  first : bound 0 = 0
  last : bound ppSize = numHiddenLayers
  ordered : ∀ r < ppSize, bound r ≤ bound (r + 1)
  indices : ∀ r < ppSize,
    ppIndices numHiddenLayers r ppSize = .ok ((bound r : Int), (bound (r + 1) : Int))

/-- `make_layers`: the range of the layers of a rank and its modules, a layer by its index
and a `PPMissingLayer` as `none`. The `get_pp_indices` it imports is that of `vllm`. -/
def makeLayers (ppIndices : PpIndices) (numHiddenLayers ppRank ppSize : Nat) :
    Except String (Int × Int × List (Option Nat)) := do
  let (startLayer, endLayer) ← ppIndices numHiddenLayers ppRank ppSize
  let own := (List.range (endLayer - startLayer).toNat).map fun i => some (startLayer.toNat + i)
  .ok (startLayer, endLayer,
    List.replicate startLayer.toNat none ++ own ++
      List.replicate (numHiddenLayers - endLayer).toNat none)

variable {ppIndices : PpIndices} {numHiddenLayers ppSize : Nat}

/-- Without a setting the ranges meet: only the last one is longer. -/
theorem splits_default (hpp : 0 < ppSize) :
    Splits (getPpIndices none) numHiddenLayers ppSize
      fun r => if r = ppSize then numHiddenLayers else r * (numHiddenLayers / ppSize) where
  first := by
    have : 0 ≠ ppSize := by omega
    simp [this]
  last := by simp
  ordered r hr := by
    have hle : (r + 1) * (numHiddenLayers / ppSize) ≤ numHiddenLayers :=
      (Nat.mul_le_mul_right _ hr).trans (Nat.mul_div_le numHiddenLayers ppSize)
    have hstep : r * (numHiddenLayers / ppSize) ≤ (r + 1) * (numHiddenLayers / ppSize) :=
      Nat.mul_le_mul_right _ (by omega)
    have hne : r ≠ ppSize := by omega
    by_cases hlast : r + 1 = ppSize
    · simp only [hne, hlast, if_true, if_false]
      omega
    · simpa only [hne, hlast, if_false] using hstep
  indices r hr := by
    have hne : r ≠ ppSize := by omega
    by_cases hlast : r + 1 = ppSize
    · simp [getPpIndices, hne, hlast]
    · simp [getPpIndices, hne, hlast, Nat.add_mul]

/-- The ranges of a setting that has no negative entry meet. -/
theorem splits_setting {text : String} {partitions : List Int}
    (hparse : (text.splitOn ",").mapM pyInt = some partitions)
    (hlen : partitions.length = ppSize) (hsum : partitions.sum = numHiddenLayers)
    (hpos : ∀ x ∈ partitions, 0 ≤ x) :
    Splits (getPpIndices (some text)) numHiddenLayers ppSize fun r => ((partitions.take r).sum).toNat where
  first := by simp
  last := by
    rw [← hlen, List.take_length, hsum]
    simp
  ordered r hr := by
    have hle : (partitions.take r).sum ≤ (partitions.take (r + 1)).sum := by
      have hr' : r < partitions.length := by omega
      rw [List.sum_take_succ partitions r hr']
      have := hpos _ (List.getElem_mem hr')
      omega
    exact Int.toNat_le_toNat hle
  indices r hr := by
    have hr' : r < partitions.length := by omega
    have hnonneg : ∀ k, 0 ≤ (partitions.take k).sum := fun k =>
      List.sum_nonneg fun x hx => hpos x (List.mem_of_mem_take hx)
    have hnext := List.sum_take_succ partitions r hr'
    have hget : partitions.getD r 0 = partitions[r] := by
      rw [List.getD_eq_getElem?_getD, List.getElem?_eq_getElem hr']
      rfl
    simp only [getPpIndices, hparse, hlen, hsum, ne_eq, not_true_eq_false, if_false, hget,
      ← hnext, Int.toNat_of_nonneg (hnonneg _)]

variable {bound : Nat → Nat}

theorem Splits.mono (h : Splits ppIndices numHiddenLayers ppSize bound) {r s : Nat} (hrs : r ≤ s)
    (hs : s ≤ ppSize) : bound r ≤ bound s := by
  induction s with
  | zero =>
    have : r = 0 := by omega
    exact this ▸ le_rfl
  | succ s ih =>
    rcases Nat.lt_or_ge r (s + 1) with hlt | hge
    · exact (ih (by omega) (by omega)).trans (h.ordered s (by omega))
    · have : r = s + 1 := by omega
      exact this ▸ le_rfl

/-- The loop of a forward pass finds every layer of its range in `self.layers`. -/
theorem Splits.makeLayers (h : Splits ppIndices numHiddenLayers ppSize bound) {r : Nat}
    (hr : r < ppSize) : ∃ layers,
      makeLayers ppIndices numHiddenLayers r ppSize = .ok (bound r, bound (r + 1), layers) ∧
        layers.length = numHiddenLayers ∧
        ∀ i, bound r ≤ i → i < bound (r + 1) → layers[i]? = some (some i) := by
  have hle := h.ordered r hr
  have htop := h.last ▸ h.mono (s := ppSize) (show r + 1 ≤ ppSize by omega) le_rfl
  refine ⟨_, by rw [Pipeline.makeLayers, h.indices r hr]; rfl, ?_, fun i hi hi' => ?_⟩
  · simp only [List.length_append, List.length_replicate, List.length_map, List.length_range]
    omega
  · rw [List.getElem?_append_left (by simp; omega), List.getElem?_append_right (by simp; omega)]
    rw [List.getElem?_map, List.getElem?_range (by simp; omega)]
    simp only [List.length_replicate, Option.map_some, Option.some.injEq]
    omega

/-- The layers that a rank runs have buffers of their own. -/
def DistinctBuffers (numHiddenLayers ppSize : Nat) (bound : Nat → Nat) (r : Nat) : Prop :=
  ∀ i j, bound r ≤ i → i < bound (r + 1) → bound r ≤ j → j < bound (r + 1) →
    bufferOf (layerNum numHiddenLayers ppSize) i = bufferOf (layerNum numHiddenLayers ppSize) j →
    i = j

theorem layerNum_pos (numHiddenLayers ppSize : Nat) : 0 < layerNum numHiddenLayers ppSize := by
  unfold layerNum
  omega

/-- Layers in a row have buffers of their own until the buffers run out. -/
theorem distinctBuffers_iff_length (numHiddenLayers ppSize : Nat) (bound : Nat → Nat) (r : Nat) :
    DistinctBuffers numHiddenLayers ppSize bound r ↔
      bound (r + 1) - bound r ≤ layerNum numHiddenLayers ppSize := by
  have hpos := layerNum_pos numHiddenLayers ppSize
  constructor
  · intro h
    by_contra hlong
    have heq := h (bound r) (bound r + layerNum numHiddenLayers ppSize) le_rfl (by omega) (by omega)
      (by omega) (by simp [bufferOf])
    omega
  · intro h i j hi hi' hj hj' heq
    unfold bufferOf at heq
    rcases Nat.le_total i j with hij | hij
    · have hzero := Nat.sub_mod_eq_zero_of_mod_eq heq.symm
      rw [Nat.mod_eq_of_lt (by omega)] at hzero
      omega
    · have hzero := Nat.sub_mod_eq_zero_of_mod_eq heq
      rw [Nat.mod_eq_of_lt (by omega)] at hzero
      omega

/-- Ranges that are no longer than `size` cover no more than all of them can. -/
theorem Splits.bound_le (h : Splits ppIndices numHiddenLayers ppSize bound) {size : Nat}
    (hsize : ∀ r < ppSize, bound (r + 1) - bound r ≤ size) :
    ∀ r ≤ ppSize, bound r ≤ r * size := by
  intro r hr
  induction r with
  | zero => simp [h.first]
  | succ r ih =>
    have h1 := ih (by omega)
    have h2 := hsize r (by omega)
    rw [Nat.add_mul]
    omega

/-- What the ranges from `r` on leave to the ones before it. -/
theorem Splits.le_bound (h : Splits ppIndices numHiddenLayers ppSize bound) {size : Nat}
    (hsize : ∀ r < ppSize, bound (r + 1) - bound r ≤ size) :
    ∀ k ≤ ppSize, numHiddenLayers ≤ bound (ppSize - k) + k * size := by
  intro k hk
  induction k with
  | zero => simp [h.last]
  | succ k ih =>
    have h1 := ih (by omega)
    have h2 := hsize (ppSize - (k + 1)) (by omega)
    rw [show ppSize - (k + 1) + 1 = ppSize - k by omega] at h2
    rw [Nat.add_mul]
    omega

/-- No two layers of one rank share the keys and values of a buffer exactly if the layers are
split evenly, or there are fewer layers than ranks and no rank has two. -/
theorem kvBuffers_distinct_iff (hpp : 0 < ppSize)
    (h : Splits ppIndices numHiddenLayers ppSize bound) :
    (∀ r < ppSize, DistinctBuffers numHiddenLayers ppSize bound r) ↔
      (ppSize ∣ numHiddenLayers ∧
          ∀ r < ppSize, bound (r + 1) - bound r = numHiddenLayers / ppSize) ∨
        (numHiddenLayers < ppSize ∧ ∀ r < ppSize, bound (r + 1) - bound r ≤ 1) := by
  have hlen : (∀ r < ppSize, DistinctBuffers numHiddenLayers ppSize bound r) ↔
      ∀ r < ppSize, bound (r + 1) - bound r ≤ layerNum numHiddenLayers ppSize :=
    forall₂_congr fun r _ => distinctBuffers_iff_length numHiddenLayers ppSize bound r
  rw [hlen]
  by_cases hfew : numHiddenLayers < ppSize
  · have hnum : layerNum numHiddenLayers ppSize = 1 := by
      simp [layerNum, Nat.div_eq_of_lt hfew]
    rw [hnum]
    constructor
    · exact fun hsize => Or.inr ⟨hfew, hsize⟩
    · rintro (⟨hdvd, heven⟩ | ⟨-, hsize⟩)
      · intro r hr
        have := heven r hr
        rw [Nat.div_eq_of_lt hfew] at this
        omega
      · exact hsize
  · have hone : 1 ≤ numHiddenLayers / ppSize := Nat.div_pos (by omega) hpp
    have hnum : layerNum numHiddenLayers ppSize = numHiddenLayers / ppSize := by
      unfold layerNum
      omega
    rw [hnum]
    constructor
    · intro hsize
      have hmul := Nat.mul_div_le numHiddenLayers ppSize
      have htop := h.bound_le hsize ppSize le_rfl
      rw [h.last] at htop
      refine Or.inl ⟨⟨_, Nat.le_antisymm htop hmul⟩, fun r hr => ?_⟩
      have hlow := h.bound_le hsize r (by omega)
      have hrest := h.le_bound hsize (ppSize - (r + 1)) (by omega)
      rw [show ppSize - (ppSize - (r + 1)) = r + 1 by omega] at hrest
      have hsplit : r * (numHiddenLayers / ppSize) + (numHiddenLayers / ppSize) +
          (ppSize - (r + 1)) * (numHiddenLayers / ppSize) =
            ppSize * (numHiddenLayers / ppSize) := by
        rw [← Nat.succ_mul, ← Nat.add_mul]
        congr 1
        omega
      have := hsize r hr
      omega
    · rintro (⟨-, heven⟩ | ⟨hlt, -⟩)
      · exact fun r hr => (heven r hr).le
      · omega

/-- Ten layers on four ranks: the last rank has four layers and two buffers. -/
theorem kvBuffers_distinct_iff_default :
    (∀ r < 4, DistinctBuffers 10 4 (fun r => if r = 4 then 10 else r * (10 / 4)) r) ↔
      (4 ∣ 10 ∧ ∀ r < 4, (if r + 1 = 4 then 10 else (r + 1) * (10 / 4)) -
          (if r = 4 then 10 else r * (10 / 4)) = 10 / 4) ∨
        (10 < 4 ∧ ∀ r < 4, (if r + 1 = 4 then 10 else (r + 1) * (10 / 4)) -
          (if r = 4 then 10 else r * (10 / 4)) ≤ 1) :=
  kvBuffers_distinct_iff (by omega) (splits_default (by omega))

end FastPP.Pipeline
