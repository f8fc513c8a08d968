import FastPP.Kernels.TokenPoolWrite

namespace FastPP

open GridStores

/-- `torch.cumsum`. -/
def cumsum (values : List Nat) : List Nat :=
  (List.range values.length).map fun i => (values.take (i + 1)).sum

/-- One program of `compute_position_kernel`, for a prefix length and an extend length. -/
def computePositionProgram (before : List (Nat × Nat)) (item : Nat × Nat) :
    List ((Nat ⊕ Nat) × Nat) :=
  let (prefixLen, seqLen) := item
  let cumsumStart := (before.map Prod.snd).sum
  ((blocked 512 seqLen).map fun offset => (.inl (cumsumStart + offset), prefixLen + offset)) ++
    [(.inr before.length, cumsumStart)]

/-- The stores of `compute_position_triton` into `positions` and `extend_start_loc`. -/
def computePositionTriton (items : List (Nat × Nat)) : List ((Nat ⊕ Nat) × Nat) :=
  launch computePositionProgram items

/-- `compute_position_torch`: without a request there is nothing to concatenate. -/
def computePositionTorch (items : List (Nat × Nat)) : Option (List Nat × List Nat) :=
  if items = [] then none
  else some (items.flatMap fun item => (List.range item.2).map fun i => item.1 + i,
    0 :: cumsum (items.map Prod.snd).dropLast)

/-- `kv_indptr[: bs + 1]` of `call_begin_forward`. -/
def kvIndptr (pagedKernelLens : List Nat) : List Nat := 0 :: cumsum pagedKernelLens

/-- One program of `create_flashinfer_kv_indices_triton`, for a row, where it starts there and
its length. -/
def kvIndicesProgram (reqToToken : Nat → Nat) (stride : Nat) (indptr : List Nat)
    (before : List (Nat × Nat × Nat)) (item : Nat × Nat × Nat) : List (Nat × Nat) :=
  let (reqPoolIndex, kvStart, pagedKernelLen) := item
  let kvIndicesOffset := indptr.getD before.length 0
  let kvEnd := kvStart + pagedKernelLen
  (blocked 512 (kvEnd - kvStart)).map fun offset =>
    (kvIndicesOffset + offset, reqToToken (reqPoolIndex * stride + kvStart + offset))

/-- The stores of `create_flashinfer_kv_indices_triton` as `call_begin_forward` launches it. -/
def createFlashinferKvIndices (reqToToken : Nat → Nat) (stride : Nat)
    (items : List (Nat × Nat × Nat)) : List (Nat × Nat) :=
  launch (kvIndicesProgram reqToToken stride (kvIndptr (items.map fun item => item.2.2))) items

theorem cumsum_getD (values : List Nat) {i : Nat} (hi : i ≤ values.length) :
    (0 :: cumsum values).getD i 0 = (values.take i).sum := by
  cases i with
  | zero => rfl
  | succ i =>
    unfold cumsum
    rw [List.getD_cons_succ, List.getD_eq_getElem?_getD, List.getElem?_map,
      List.getElem?_range (by omega)]
    rfl

theorem starts_eq {values : List Nat} (h : values ≠ []) :
    ((List.range values.length).map fun i => (values.take i).sum) = 0 :: cumsum values.dropLast := by
  have hpos := List.length_pos_iff.mpr h
  have hlen : values.length = values.dropLast.length + 1 := by
    rw [List.length_dropLast]
    omega
  unfold cumsum
  rw [hlen, List.range_succ_eq_map, List.map_cons, List.map_map]
  congr 1
  apply List.map_congr_left
  intro i hi
  have hlt := List.mem_range.mp hi
  simp only [Function.comp, List.dropLast_eq_take, List.take_take]
  rw [Nat.min_eq_left (by omega)]

/-- The programs lay the positions one behind the other. -/
theorem computePosition_stores (before items : List (Nat × Nat)) :
    (launchFrom computePositionProgram before items).Perm
      (stored .inl (before.map Prod.snd).sum
          (items.flatMap fun item => (List.range item.2).map fun i => item.1 + i) ++
        stored .inr before.length ((List.range items.length).map fun i =>
          ((before ++ items.take i).map Prod.snd).sum)) := by
  induction items generalizing before with
  | nil => exact .refl _
  | cons item items ih =>
    obtain ⟨prefixLen, seqLen⟩ := item
    have hrest := ih (before ++ [(prefixLen, seqLen)])
    have hsum : ((before ++ [(prefixLen, seqLen)]).map Prod.snd).sum =
        (before.map Prod.snd).sum + seqLen := by
      rw [List.map_append, List.sum_append]
      rfl
    have hprogram : computePositionProgram before (prefixLen, seqLen) =
        stored .inl (before.map Prod.snd).sum ((List.range seqLen).map fun i => prefixLen + i) ++
          stored .inr before.length [(before.map Prod.snd).sum] := by
      rw [stored_map]
      simp only [computePositionProgram, blocked_eq (show 0 < 512 by decide)]
      rfl
    have hstarts : ((List.range (items.length + 1)).map fun i =>
          ((before ++ ((prefixLen, seqLen) :: items).take i).map Prod.snd).sum) =
        [(before.map Prod.snd).sum] ++ (List.range items.length).map fun i =>
          ((before ++ [(prefixLen, seqLen)] ++ items.take i).map Prod.snd).sum := by
      rw [List.range_succ_eq_map, List.map_cons, List.map_map, List.take_zero, List.append_nil,
        List.singleton_append]
      congr 1
      apply List.map_congr_left
      intro i _
      simp only [Function.comp, List.take_succ_cons, List.append_assoc, List.singleton_append]
    rw [hsum, List.length_append] at hrest
    rw [launchFrom, hprogram, List.flatMap_cons, stored_append, List.length_cons, hstarts,
      stored_append, List.length_map, List.length_range, List.append_assoc, List.append_assoc]
    exact ((hrest.append_left _).trans (List.perm_append_comm_assoc _ _ _)).append_left _

/-- The programs lay the segments of the rows one behind the other. -/
theorem kvIndices_stores (reqToToken : Nat → Nat) (stride : Nat) (indptr : List Nat)
    (before items : List (Nat × Nat × Nat))
    (hindptr : ∀ i ≤ items.length, indptr.getD (before.length + i) 0 =
      ((before ++ items.take i).map fun item => item.2.2).sum) :
    launchFrom (kvIndicesProgram reqToToken stride indptr) before items =
      stored id (before.map fun item => item.2.2).sum (items.flatMap fun item =>
        (List.range item.2.2).map fun i => reqToToken (item.1 * stride + item.2.1 + i)) := by
  induction items generalizing before with
  | nil => rfl
  | cons item items ih =>
    obtain ⟨row, start, len⟩ := item
    have hzero := hindptr 0 (Nat.zero_le _)
    rw [Nat.add_zero, List.take_zero, List.append_nil] at hzero
    have hrest := ih (before ++ [(row, start, len)]) (by
      intro i hi
      have hnext := hindptr (i + 1) (by rw [List.length_cons]; omega)
      rw [List.length_append, List.length_singleton, List.append_assoc, List.singleton_append,
        Nat.add_assoc, Nat.add_comm 1 i, hnext, List.take_succ_cons])
    rw [launchFrom, hrest, List.flatMap_cons, stored_append, stored_map, List.map_append,
      List.sum_append, List.length_map, List.length_range]
    congr 1
    simp only [kvIndicesProgram, blocked_eq (show 0 < 512 by decide), hzero, Nat.add_sub_cancel_left]
    rfl

theorem computePosition_nodup (items : List (Nat × Nat)) :
    ((computePositionTriton items).map Prod.fst).Nodup := by
  unfold computePositionTriton
  rw [launch_eq, ((computePosition_stores [] items).map Prod.fst).nodup_iff, List.map_append]
  refine List.nodup_append.mpr ⟨stored_nodup Sum.inl_injective _ _,
    stored_nodup Sum.inr_injective _ _, ?_⟩
  rintro a ha b hb rfl
  rw [stored_fst] at ha hb
  obtain ⟨i, _, rfl⟩ := List.mem_map.mp ha
  obtain ⟨j, _, heq⟩ := List.mem_map.mp hb
  exact nomatch heq

/-- `compute_position_triton` in any order of its stores is `compute_position_torch`. -/
theorem computePosition_agrees {items : List (Nat × Nat)} (hitems : items ≠ [])
    (memory : Nat ⊕ Nat → Nat) {trace : List ((Nat ⊕ Nat) × Nat)}
    (hperm : trace.Perm (computePositionTriton items)) :
    computePositionTorch items =
      some ((List.range (items.map Prod.snd).sum).map fun i => execute memory trace (.inl i),
        (List.range items.length).map fun pid => execute memory trace (.inr pid)) := by
  have hnodup := computePosition_nodup items
  have hstores := computePosition_stores [] items
  unfold computePositionTriton at hnodup hperm
  rw [launch_eq] at hnodup hperm
  have hpositions := read_stored memory hnodup hperm fun s hs =>
    hstores.mem_iff.mpr (List.mem_append_left _ hs)
  have hstarts := read_stored memory hnodup hperm fun s hs =>
    hstores.mem_iff.mpr (List.mem_append_right _ hs)
  have hlength : (items.flatMap fun item =>
      (List.range item.2).map fun i => item.1 + i).length = (items.map Prod.snd).sum := by
    rw [List.length_flatMap]
    simp only [List.length_map, List.length_range]
  have hne : items.map Prod.snd ≠ [] := fun hnil => hitems (List.map_eq_nil_iff.mp hnil)
  have heq := starts_eq hne
  rw [hlength] at hpositions
  rw [List.length_map, List.length_range] at hstarts
  unfold computePositionTorch
  rw [if_neg hitems, hpositions, hstarts, ← heq, List.length_map]
  simp only [List.nil_append, List.map_take]

theorem computePosition_agrees_two : computePositionTorch [(1, 2), (0, 1)] =
    some ((List.range 3).map fun i =>
        execute (fun _ => 9) (computePositionTriton [(1, 2), (0, 1)]).reverse (.inl i),
      (List.range 2).map fun pid =>
        execute (fun _ => 9) (computePositionTriton [(1, 2), (0, 1)]).reverse (.inr pid)) :=
  computePosition_agrees (by decide) _ (List.reverse_perm _)

/-- `create_flashinfer_kv_indices_triton` in any order of its stores leaves the segments of the
rows one behind the other. -/
theorem kvIndices_gathered {pool : ReqToTokenPool} {stride : Nat} {reqToToken : Nat → Nat}
    (h : pool.LiesIn stride reqToToken) {items : List (Nat × Nat × Nat)}
    (hfit : ∀ item ∈ items, item.2.1 + item.2.2 ≤ stride) (memory : Nat → Nat)
    {trace : List (Nat × Nat)}
    (hperm : trace.Perm (createFlashinferKvIndices reqToToken stride items)) :
    (List.range (items.map fun item => item.2.2).sum).map (execute memory trace) =
      items.flatMap fun item => (List.range item.2.2).map fun i =>
        pool.reqToToken item.1 (item.2.1 + i) := by
  unfold createFlashinferKvIndices at hperm
  rw [launch_eq, kvIndices_stores reqToToken stride _ [] items (by
    intro i hi
    rw [List.length_nil, Nat.zero_add, List.nil_append, kvIndptr, cumsum_getD _ (by simpa using hi),
      List.map_take])] at hperm
  have hread := read_stored memory (stored_nodup Function.injective_id _ _) hperm fun s hs => hs
  have hsame : (items.flatMap fun item => (List.range item.2.2).map fun i =>
      reqToToken (item.1 * stride + item.2.1 + i)) = items.flatMap fun item =>
        (List.range item.2.2).map fun i => pool.reqToToken item.1 (item.2.1 + i) := by
    apply List.flatMap_congr
    intro item hmem
    apply List.map_congr_left
    intro i hi
    have hlt := List.mem_range.mp hi
    have hle := hfit item hmem
    rw [Nat.add_assoc]
    exact h item.1 (item.2.1 + i) (by omega)
  rw [hsame, List.length_flatMap] at hread
  simp only [List.length_map, List.length_range, id] at hread
  exact hread

namespace KvSystem

variable {κ : Type}

/-- In every run, the indices that the kernel gathers for requests whose forward pass is done,
in any order of its stores, lead to the KV data of their tokens, one request behind the other. -/
theorem attention_reads (env : KvEnv κ) (reqSlots tokenSlots : Nat) (kvBuffer : Nat → κ)
    (ops : List KvOp) {σ : KvSystem κ}
    (hrun : (init env reqSlots tokenSlots kvBuffer).run env ops = some σ) {stride : Nat}
    {reqToToken : Nat → Nat} (hlies : σ.reqToTokenPool.LiesIn stride reqToToken) (qs : List Nat)
    (hqs : ∀ q ∈ qs, Sampled (σ.reqs q) ∧ (σ.reqs q).seqLen ≤ stride) (memory : Nat → Nat)
    {trace : List (Nat × Nat)} (hperm : trace.Perm (createFlashinferKvIndices reqToToken stride
      (qs.map fun q => ((σ.reqs q).reqPoolIdx, 0, (σ.reqs q).seqLen)))) :
    ((List.range (qs.map fun q => (σ.reqs q).seqLen).sum).map
        (execute memory trace)).map σ.kvBuffer =
      qs.flatMap fun q => Causal.states env.attend (σ.reqs q).tokens := by
  have h := (init_kept env reqSlots tokenSlots kvBuffer).run ops hrun
  have hgather := kvIndices_gathered hlies (by
    intro item hmem
    obtain ⟨q, hq, rfl⟩ := List.mem_map.mp hmem
    have hle := (hqs q hq).2
    show 0 + (σ.reqs q).seqLen ≤ stride
    omega) memory hperm
  have hsum : ((qs.map fun q => ((σ.reqs q).reqPoolIdx, 0, (σ.reqs q).seqLen)).map
      fun item => item.2.2).sum = (qs.map fun q => (σ.reqs q).seqLen).sum := by
    rw [List.map_map]
    rfl
  rw [hsum] at hgather
  rw [hgather, List.flatMap_map, List.map_flatMap]
  apply List.flatMap_congr
  intro q hq
  rw [← h.sampled (hqs q hq).1]
  unfold kvIndices ReqToTokenPool.read
  simp only [Nat.zero_add]

theorem attention_reads_shared : ∃ σ, sharedAfter 18 = some σ ∧
    ((List.range 5).map (execute (fun _ => 0) (createFlashinferKvIndices
      (fun a => σ.reqToTokenPool.reqToToken (a / 8) (a % 8)) 8
        [((σ.reqs 1).reqPoolIdx, 0, 5)]).reverse)).map σ.kvBuffer =
      Causal.states trace.attend [5, 6, 7, 3, 4] := by
  have hdue : (sharedAfter 18).any (fun σ => decide (Sampled (σ.reqs 1) ∧
      (σ.reqs 1).tokens = [5, 6, 7, 3, 4] ∧ (σ.reqs 1).seqLen = 5)) = true := by decide +kernel
  obtain ⟨σ, hrun, hdue⟩ := (Option.any_eq_true _ _).mp hdue
  obtain ⟨hsampled, htokens, hlen⟩ := of_decide_eq_true hdue
  have hlies : σ.reqToTokenPool.LiesIn 8
      fun a => σ.reqToTokenPool.reqToToken (a / 8) (a % 8) := by
    intro row col hcol
    have hrow : (row * 8 + col) / 8 = row := by omega
    have hmod : (row * 8 + col) % 8 = col := by omega
    simp only [hrow, hmod]
  have h := attention_reads trace 2 9 (fun _ => []) (sharedPrefix.take 18) hrun hlies [1] (by
    intro q hq
    rw [List.mem_singleton.mp hq]
    exact ⟨hsampled, by omega⟩) (fun _ => 0) (List.reverse_perm _)
  simp only [List.map_cons, List.map_nil, List.sum_cons, List.sum_nil, hlen, List.flatMap_cons,
    List.flatMap_nil, List.append_nil, htokens] at h
  exact ⟨σ, hrun, h⟩

end KvSystem

end FastPP
