import FastPP.Batch
import Mathlib.Tactic.Common

namespace FastPP

theorem gather_nil {α : Type} (values : List α) : gather values [] = some [] := rfl

theorem gather_cons {α : Type} (values : List α) (i : Nat) (indices : List Nat) :
    gather values (i :: indices) = (do
      let value ← values[i]?
      let rest ← gather values indices
      pure (value :: rest)) := by
  simp [gather, List.mapM_cons]

theorem gather_length {α : Type} {values result : List α} {indices : List Nat}
    (h : gather values indices = some result) : result.length = indices.length := by
  induction indices generalizing result with
  | nil => cases Option.some.inj h; rfl
  | cons i indices ih =>
    rw [gather_cons] at h
    obtain ⟨value, _, h⟩ := Option.bind_eq_some_iff.mp h
    obtain ⟨rest, hrest, h⟩ := Option.bind_eq_some_iff.mp h
    cases Option.some.inj h
    simp [ih hrest]

theorem mem_of_gather {α : Type} {values result : List α} {indices : List Nat} {value : α}
    (h : gather values indices = some result) (hv : value ∈ result) : value ∈ values := by
  induction indices generalizing result with
  | nil => cases Option.some.inj h; simp at hv
  | cons i indices ih =>
    rw [gather_cons] at h
    obtain ⟨first, hfirst, h⟩ := Option.bind_eq_some_iff.mp h
    obtain ⟨rest, hrest, h⟩ := Option.bind_eq_some_iff.mp h
    cases Option.some.inj h
    rcases List.mem_cons.mp hv with rfl | hv
    · exact List.mem_of_getElem? hfirst
    · exact ih hrest hv

/-- Gathering commutes with reading an attribute of every row. -/
theorem gather_map {α β : Type} (f : α → β) (values : List α) (indices : List Nat) :
    gather (values.map f) indices = (gather values indices).map (List.map f) := by
  induction indices with
  | nil => rfl
  | cons i indices ih =>
    rw [gather_cons, gather_cons, ih, List.getElem?_map]
    cases values[i]? with
    | none => rfl
    | some value => cases gather values indices <;> rfl

theorem gather_map_of {α β : Type} {f : α → β} {values result : List α} {indices : List Nat}
    (h : gather values indices = some result) :
    gather (values.map f) indices = some (result.map f) := by
  rw [gather_map, h]; rfl

theorem gather_append {α : Type} {values first second : List α} {is js : List Nat}
    (hi : gather values is = some first) (hj : gather values js = some second) :
    gather values (is ++ js) = some (first ++ second) := by
  induction is generalizing first with
  | nil => cases Option.some.inj hi; exact hj
  | cons i is ih =>
    rw [gather_cons] at hi
    obtain ⟨value, hv, hi⟩ := Option.bind_eq_some_iff.mp hi
    obtain ⟨rest, hrest, hi⟩ := Option.bind_eq_some_iff.mp hi
    cases Option.some.inj hi
    rw [List.cons_append, gather_cons, hv, ih hrest]
    rfl

/-- The default indices of `filter_batch` gather exactly the kept rows, in order. -/
theorem gather_filter {α : Type} (p : α → Bool) (values : List α) :
    gather values ((List.range values.length).filter fun i => values[i]?.any p) =
      some (values.filter p) := by
  induction values using List.reverseRecOn with
  | nil => rfl
  | append_singleton values value ih =>
    have hrange : (List.range (values ++ [value]).length).filter
        (fun i => (values ++ [value])[i]?.any p) =
        (List.range values.length).filter (fun i => values[i]?.any p) ++
          [values.length].filter (fun _ => p value) := by
      rw [List.length_append, List.length_singleton, List.range_succ, List.filter_append]
      congr 1
      · apply List.filter_congr
        intro i hi
        rw [List.getElem?_append_left (List.mem_range.mp hi)]
      · simp [List.filter_cons]
    have hleft : ∀ is : List Nat, (∀ i ∈ is, i < values.length) →
        gather (values ++ [value]) is = gather values is := by
      intro is
      induction is with
      | nil => intro _; rfl
      | cons i is ihs =>
        intro bound
        rw [gather_cons, gather_cons, ihs fun j hj => bound j (List.mem_cons_of_mem i hj),
          List.getElem?_append_left (bound i (by simp))]
    have hfirst : gather (values ++ [value])
        ((List.range values.length).filter fun i => values[i]?.any p) = some (values.filter p) :=
      (hleft _ fun i hi => List.mem_range.mp (List.mem_filter.mp hi).1).trans ih
    have hlast : gather (values ++ [value]) ([values.length].filter fun _ => p value) =
        some ([value].filter p) := by
      cases hp : p value <;> simp [gather_cons, gather_nil, hp]
    rw [hrange, gather_append hfirst hlast, List.filter_append]

theorem gather_range' {α : Type} {values : List α} {start count : Nat}
    (bound : start + count ≤ values.length) :
    gather values (List.range' start count) = some ((values.drop start).take count) := by
  induction count generalizing start with
  | zero => simp [gather_nil]
  | succ count ih =>
    rw [List.range'_succ, gather_cons, ih (by omega),
      List.getElem?_eq_getElem (by omega : start < values.length),
      List.drop_eq_getElem_cons (by omega : start < values.length), List.take_succ_cons]
    rfl

theorem gather_range {α : Type} {values : List α} {count : Nat} (bound : count ≤ values.length) :
    gather values (List.range count) = some (values.take count) := by
  rw [List.range_eq_range', gather_range' (by omega), List.drop_zero]

/-- The attributes that the rows of a batch should carry, request by request. -/
structure Rows where
  poolIdx : Nat → Nat
  seqLen : Nat → Nat
  outputId : Nat → Nat

/-- The entry of `top_logprobs_nums` for a request. -/
def Req.topLogprobsEntry (req : Req) : Nat := if req.returnLogprob then req.topLogprobsNum else 0

/-- The sampling rows are those of the listed requests. -/
structure SamplingBatchInfo.RowsOf (heap : Nat → Req) (reqs : List Nat)
    (info : SamplingBatchInfo) : Prop where
  temperatures : info.temperatures = reqs.map fun q => (heap q).samplingParams.temperature
  topPs : info.topPs = reqs.map fun q => (heap q).samplingParams.topP
  topKs : info.topKs = reqs.map fun q => (heap q).samplingParams.topK
  minPs : info.minPs = reqs.map fun q => (heap q).samplingParams.minP

theorem SamplingBatchInfo.RowsOf.filter {heap : Nat → Req} {reqs kept indices : List Nat}
    {info : SamplingBatchInfo} (rows : info.RowsOf heap reqs)
    (h : gather reqs indices = some kept) :
    ∃ info', info.filterBatch indices = some info' ∧ info'.RowsOf heap kept := by
  refine ⟨{ info with
    temperatures := kept.map fun q => (heap q).samplingParams.temperature
    topPs := kept.map fun q => (heap q).samplingParams.topP
    topKs := kept.map fun q => (heap q).samplingParams.topK
    minPs := kept.map fun q => (heap q).samplingParams.minP }, ?_, rfl, rfl, rfl, rfl⟩
  simp [SamplingBatchInfo.filterBatch, rows.temperatures, rows.topPs, rows.topKs, rows.minPs,
    gather_map_of h]

theorem SamplingBatchInfo.RowsOf.merge {heap : Nat → Req} {reqs others : List Nat}
    {info other : SamplingBatchInfo} (rows : info.RowsOf heap reqs)
    (otherRows : other.RowsOf heap others) :
    (info.mergeBatch other).RowsOf heap (reqs ++ others) where
  temperatures := by simp [SamplingBatchInfo.mergeBatch, rows.temperatures, otherRows.temperatures]
  topPs := by simp [SamplingBatchInfo.mergeBatch, rows.topPs, otherRows.topPs]
  topKs := by simp [SamplingBatchInfo.mergeBatch, rows.topKs, otherRows.topKs]
  minPs := by simp [SamplingBatchInfo.mergeBatch, rows.minPs, otherRows.minPs]

namespace ScheduleBatch

/-- The per-request fields of a batch other than its token ids are index-aligned. -/
structure AlignedFields (heap : Nat → Req) (rows : Rows) (batch : ScheduleBatch) : Prop where
  reqPoolIndices : batch.reqPoolIndices = batch.reqs.map rows.poolIdx
  seqLens : batch.seqLens = batch.reqs.map rows.seqLen
  seqLensSum : batch.seqLensSum = batch.seqLens.sum
  sampling : batch.samplingInfo.RowsOf heap batch.reqs
  returnLogprob : batch.returnLogprob = batch.reqs.any fun q => (heap q).returnLogprob
  topLogprobsNums : batch.returnLogprob = true →
    batch.topLogprobsNums = some (batch.reqs.map fun q => (heap q).topLogprobsEntry)

/-- A batch whose every row belongs to the request at the same index. -/
structure Aligned (heap : Nat → Req) (rows : Rows) (batch : ScheduleBatch) : Prop
    extends AlignedFields heap rows batch where
  outputIds : batch.outputIds = some (batch.reqs.map rows.outputId)

theorem gather_keepIndices (heap : Nat → Req) (chunk : Option Nat) (batch : ScheduleBatch) :
    gather batch.reqs (batch.keepIndices heap chunk) =
      some (batch.reqs.filter (keeps heap chunk)) :=
  gather_filter _ _

theorem keepIndices_length (heap : Nat → Req) (chunk : Option Nat) (batch : ScheduleBatch) :
    (batch.keepIndices heap chunk).length = (batch.reqs.filter (keeps heap chunk)).length :=
  (gather_length (gather_keepIndices heap chunk batch)).symm

/-- What `filter_batch` does to the request list, whichever branch it takes. -/
theorem filterIndices_reqs {heap : Nat → Req} {indices kept : List Nat} {batch out : ScheduleBatch}
    (hk : gather batch.reqs indices = some kept)
    (hfull : indices.length = batch.reqs.length → kept = batch.reqs)
    (h : batch.filterIndices heap indices = some out) : out.reqs = kept := by
  have hlen := gather_length hk
  unfold filterIndices at h
  split at h
  next hnil =>
    cases Option.some.inj h
    simp only [hnil, List.length_nil, List.length_eq_zero_iff] at hlen
    exact hlen.symm
  next =>
    split at h
    next heq => cases Option.some.inj h; exact (hfull heq).symm
    next =>
      simp only [hk, Option.bind_eq_bind, Option.bind_some, Option.bind_eq_some_iff] at h
      obtain ⟨_, _, _, _, _, _, _, _, _, _, _, _, h⟩ := h
      cases Option.some.inj h
      rfl

theorem keepIndices_full {heap : Nat → Req} {chunk : Option Nat} {batch : ScheduleBatch}
    (h : (batch.keepIndices heap chunk).length = batch.reqs.length) :
    batch.reqs.filter (keeps heap chunk) = batch.reqs := by
  rw [keepIndices_length] at h
  exact List.filter_eq_self.mpr (List.length_filter_eq_length_iff.mp h)

theorem filterBatch_reqs {heap : Nat → Req} {chunk : Option Nat} {batch out : ScheduleBatch}
    (h : batch.filterBatch heap chunk = some out) :
    out.reqs = batch.reqs.filter (keeps heap chunk) :=
  filterIndices_reqs (gather_keepIndices heap chunk batch) keepIndices_full h

theorem any_of_gather {heap : Nat → Req} {reqs kept indices : List Nat}
    (hk : gather reqs indices = some kept)
    (h : (kept.any fun q => (heap q).returnLogprob) = true) :
    (reqs.any fun q => (heap q).returnLogprob) = true := by
  obtain ⟨q, hq, hlp⟩ := List.any_eq_true.mp h
  exact List.any_eq_true.mpr ⟨q, mem_of_gather hk hq, hlp⟩

theorem Aligned.filterTop {heap : Nat → Req} {rows : Rows} {indices kept : List Nat}
    {batch : ScheduleBatch} (aligned : batch.Aligned heap rows)
    (hk : gather batch.reqs indices = some kept) :
    ∃ nums, filterTopLogprobsNums (kept.any fun q => (heap q).returnLogprob)
        batch.topLogprobsNums indices = some nums ∧
      ((kept.any fun q => (heap q).returnLogprob) = true →
        nums = some (kept.map fun q => (heap q).topLogprobsEntry)) := by
  unfold filterTopLogprobsNums
  split
  next hlp =>
    have hbatch : batch.returnLogprob = true := aligned.returnLogprob.trans (any_of_gather hk hlp)
    refine ⟨some (kept.map fun q => (heap q).topLogprobsEntry), ?_, fun _ => rfl⟩
    simp [aligned.topLogprobsNums hbatch, gather_map_of hk]
  next hlp => exact ⟨none, rfl, fun h => absurd h hlp⟩

/-- Filtering an aligned batch raises nothing and keeps a non-empty result aligned. -/
theorem Aligned.filterIndices {heap : Nat → Req} {rows : Rows} {indices kept : List Nat}
    {batch : ScheduleBatch} (aligned : batch.Aligned heap rows)
    (hk : gather batch.reqs indices = some kept) :
    ∃ out, batch.filterIndices heap indices = some out ∧ (kept ≠ [] → out.Aligned heap rows) := by
  unfold ScheduleBatch.filterIndices
  split
  next hnil =>
    have hlen := gather_length hk
    simp only [hnil, List.length_nil, List.length_eq_zero_iff] at hlen
    exact ⟨_, rfl, fun hne => absurd hlen hne⟩
  next =>
    split
    next => exact ⟨batch, rfl, fun _ => aligned⟩
    next =>
      obtain ⟨info, hinfo, hrows⟩ := aligned.sampling.filter hk
      obtain ⟨nums, hnums, htop⟩ := aligned.filterTop hk
      refine ⟨{ batch with
        reqs := kept
        reqPoolIndices := kept.map rows.poolIdx
        seqLens := kept.map rows.seqLen
        outCacheLoc := none
        seqLensSum := (kept.map rows.seqLen).sum
        outputIds := some (kept.map rows.outputId)
        returnLogprob := kept.any fun q => (heap q).returnLogprob
        topLogprobsNums := nums
        samplingInfo := info }, ?_, fun _ => ⟨⟨rfl, rfl, rfl, hrows, rfl, htop⟩, rfl⟩⟩
      simp [hk, aligned.reqPoolIndices, aligned.seqLens, aligned.outputIds, gather_map_of hk,
        hnums, hinfo]

theorem Aligned.filterBatch {heap : Nat → Req} {rows : Rows} {batch : ScheduleBatch}
    (aligned : batch.Aligned heap rows) (chunk : Option Nat) :
    ∃ out, batch.filterBatch heap chunk = some out ∧
      (out.reqs ≠ [] → out.Aligned heap rows) := by
  obtain ⟨out, hout, halign⟩ := aligned.filterIndices (gather_keepIndices heap chunk batch)
  exact ⟨out, hout, fun hne => halign (filterBatch_reqs hout ▸ hne)⟩

theorem mergeBatch_reqs {batch other out : ScheduleBatch} (h : batch.mergeBatch other = some out) :
    out.reqs = batch.reqs ++ other.reqs ∧ out.forwardMode = batch.forwardMode := by
  obtain ⟨ids, _, h⟩ := Option.bind_eq_some_iff.mp h
  obtain ⟨nums, _, h⟩ := Option.bind_eq_some_iff.mp h
  cases Option.some.inj h
  exact ⟨rfl, rfl⟩

theorem map_entry_zero {heap : Nat → Req} {reqs : List Nat}
    (h : (reqs.any fun q => (heap q).returnLogprob) = false) :
    (reqs.map fun q => (heap q).topLogprobsEntry) = List.replicate reqs.length 0 := by
  refine List.eq_replicate_iff.mpr ⟨by simp, fun entry hentry => ?_⟩
  obtain ⟨q, hq, rfl⟩ := List.mem_map.mp hentry
  have hlp : (heap q).returnLogprob = false := by simpa using List.any_eq_false.mp h q hq
  simp [Req.topLogprobsEntry, hlp]

theorem Aligned.mergeTop {heap : Nat → Req} {rows : Rows} {batch other : ScheduleBatch}
    (aligned : batch.AlignedFields heap rows) (otherAligned : other.AlignedFields heap rows) :
    ∃ nums, batch.mergeTopLogprobsNums other = some nums ∧
      ((batch.returnLogprob || other.returnLogprob) = true →
        nums = some ((batch.reqs ++ other.reqs).map fun q => (heap q).topLogprobsEntry)) := by
  unfold mergeTopLogprobsNums
  cases hb : batch.returnLogprob <;> cases ho : other.returnLogprob
  · exact ⟨batch.topLogprobsNums, rfl, by simp⟩
  · have hzero := map_entry_zero (aligned.returnLogprob.symm.trans hb)
    exact ⟨some ((batch.reqs ++ other.reqs).map fun q => (heap q).topLogprobsEntry),
      by simp [otherAligned.topLogprobsNums ho, hzero], fun _ => rfl⟩
  · have hzero := map_entry_zero (otherAligned.returnLogprob.symm.trans ho)
    exact ⟨some ((batch.reqs ++ other.reqs).map fun q => (heap q).topLogprobsEntry),
      by simp [aligned.topLogprobsNums hb, hzero], fun _ => rfl⟩
  · exact ⟨some ((batch.reqs ++ other.reqs).map fun q => (heap q).topLogprobsEntry),
      by simp [aligned.topLogprobsNums hb, otherAligned.topLogprobsNums ho], fun _ => rfl⟩

/-- Merging two aligned batches is aligned. -/
theorem AlignedFields.mergeBatch {heap : Nat → Req} {rows : Rows} {batch other out : ScheduleBatch}
    (aligned : batch.AlignedFields heap rows) (otherAligned : other.AlignedFields heap rows)
    (h : batch.mergeBatch other = some out) : out.AlignedFields heap rows := by
  obtain ⟨nums, hnums, htop⟩ := Aligned.mergeTop aligned otherAligned
  obtain ⟨ids, _, h⟩ := Option.bind_eq_some_iff.mp h
  rw [hnums, Option.bind_eq_bind, Option.bind_some] at h
  cases Option.some.inj h
  refine ⟨?_, ?_, ?_, aligned.sampling.merge otherAligned.sampling, ?_, htop⟩
  · simp [aligned.reqPoolIndices, otherAligned.reqPoolIndices]
  · simp [aligned.seqLens, otherAligned.seqLens]
  · simp [aligned.seqLensSum, otherAligned.seqLensSum]
  · simp [aligned.returnLogprob, otherAligned.returnLogprob]

/-- Merging two aligned batches raises nothing. -/
theorem Aligned.mergeBatch {heap : Nat → Req} {rows : Rows} {batch other : ScheduleBatch}
    (aligned : batch.Aligned heap rows) (otherAligned : other.Aligned heap rows) :
    ∃ out, batch.mergeBatch other = some out ∧ out.Aligned heap rows := by
  obtain ⟨nums, hnums, _⟩ :=
    Aligned.mergeTop aligned.toAlignedFields otherAligned.toAlignedFields
  have hout : ∃ out, batch.mergeBatch other = some out ∧
      out.outputIds = some ((batch.reqs ++ other.reqs).map rows.outputId) := by
    refine ⟨_, by simp [ScheduleBatch.mergeBatch, mergeOutputIds, aligned.outputIds,
      otherAligned.outputIds, hnums]; rfl, by simp⟩
  obtain ⟨out, hmerge, hids⟩ := hout
  refine ⟨out, hmerge, aligned.toAlignedFields.mergeBatch otherAligned.toAlignedFields hmerge, ?_⟩
  rw [hids, (mergeBatch_reqs hmerge).1]

theorem makeSubBatch_reqs {heap : Nat → Req} {indices : List Nat} {batch out : ScheduleBatch}
    (h : batch.makeSubBatch heap indices = some out) :
    gather batch.reqs indices = some out.reqs ∧ out.forwardMode = batch.forwardMode := by
  obtain ⟨reqs, hreqs, h⟩ := Option.bind_eq_some_iff.mp h
  simp only [Option.bind_eq_bind, Option.bind_eq_some_iff] at h
  obtain ⟨_, _, _, _, _, _, _, _, _, _, h⟩ := h
  cases Option.some.inj h
  exact ⟨hreqs, rfl⟩

theorem Aligned.makeSubBatch {heap : Nat → Req} {rows : Rows} {indices kept : List Nat}
    {batch : ScheduleBatch} (aligned : batch.Aligned heap rows)
    (hk : gather batch.reqs indices = some kept) :
    ∃ out, batch.makeSubBatch heap indices = some out ∧ out.Aligned heap rows := by
  obtain ⟨info, hinfo, hrows⟩ := aligned.sampling.filter hk
  have htop : ∃ nums, gatherOptional
      (if kept.any (fun q => (heap q).returnLogprob) then batch.topLogprobsNums else none)
        indices = some nums ∧
      ((kept.any fun q => (heap q).returnLogprob) = true →
        nums = some (kept.map fun q => (heap q).topLogprobsEntry)) := by
    split
    next hlp =>
      have hbatch : batch.returnLogprob = true := aligned.returnLogprob.trans (any_of_gather hk hlp)
      refine ⟨some (kept.map fun q => (heap q).topLogprobsEntry), ?_, fun _ => rfl⟩
      simp [gatherOptional, aligned.topLogprobsNums hbatch, gather_map_of hk]
    next hlp => exact ⟨none, rfl, fun h => absurd h hlp⟩
  obtain ⟨nums, hnums, htop⟩ := htop
  refine ⟨{ reqs := kept, forwardMode := batch.forwardMode, inputIds := none,
            reqPoolIndices := kept.map rows.poolIdx, seqLens := kept.map rows.seqLen,
            seqLensSum := (kept.map rows.seqLen).sum, outCacheLoc := none,
            outputIds := some (kept.map rows.outputId),
            returnLogprob := kept.any fun q => (heap q).returnLogprob,
            topLogprobsNums := nums, prefixLens := [], extendLens := [], extendNumTokens := 0,
            extendLogprobStartLens := [], decodingReqs := none, samplingInfo := info }, ?_,
    ⟨⟨rfl, rfl, rfl, hrows, rfl, htop⟩, rfl⟩⟩
  have hout : gatherOptional batch.outputIds indices = some (some (kept.map rows.outputId)) := by
    simp [gatherOptional, aligned.outputIds, gather_map_of hk]
  simp only [ScheduleBatch.makeSubBatch, hk, aligned.reqPoolIndices, aligned.seqLens,
    gather_map_of hk, hout, hnums, hinfo, Option.bind_eq_bind, Option.bind_some]
  rfl

end ScheduleBatch

end FastPP
