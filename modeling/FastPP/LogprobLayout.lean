import FastPP.Forming
import FastPP.Lib.Segments

namespace FastPP

/-- `values[start:stop]` with Python's reading of a negative bound. -/
def sliceBetween {α : Type} (values : List α) (start stop : Int) : List α :=
  (sliceTo values stop).drop
    (if 0 ≤ start then start.toNat else (values.length + start).toNat)

/-- The tensors of a batch with one row a request. -/
structure RowOutputs where
  nextTokenLogprobs : Nat → Rat
  normalizedPromptLogprobs : Nat → Rat
  inputTopLogprobsVal : Nat → List (List Rat)
  inputTopLogprobsIdx : Nat → List (List Nat)
  outputTopLogprobsVal : Nat → List Rat
  outputTopLogprobsIdx : Nat → List Nat

/-- What the model computes for a batch: its hidden states, the logprob that the head gives a
token id after a state, and the tensors by rows. -/
structure ModelOutput where
  hiddenStates : List (List Rat)
  logprobOf : List Rat → Nat → Rat
  rows : RowOutputs

/-- `LogitsProcessorOutput` for a batch with `return_logprob`. -/
structure LogitsProcessorOutput extends RowOutputs where
  inputTokenLogprobs : List Rat

/-- The slices of `LogitsProcessor.forward`, for pairs of a start length and an extend length. -/
def prunedSlices {α : Type} (values : List α) : Int → List (Int × Int) → List α
  | _, [] => []
  | pt, (startLen, extendLen) :: lens =>
    sliceBetween values (pt + startLen) (pt + extendLen) ++
      prunedSlices values (pt + extendLen) lens

/-- `LogitsProcessor.forward` for an extend batch with `return_logprob`. -/
def forwardLogprobs (model : ModelOutput) (inputIds : List Nat)
    (extendLogprobStartLens extendLens : List Int) : LogitsProcessorOutput :=
  let lens := extendLogprobStartLens.zip extendLens
  let states := prunedSlices model.hiddenStates 0 lens
  let prunedInputIds := prunedSlices inputIds 0 lens
  { model.rows with
    inputTokenLogprobs := List.zipWith model.logprobOf states (prunedInputIds.tail ++ [0]) }

/-- The fields of a request for its logprobs. -/
structure LogprobFields where
  isRetracted : Bool
  lastUpdateDecodeTokens : Nat
  normalizedPromptLogprob : Option Rat
  inputTokenLogprobsVal : Option (List (Option Rat))
  inputTokenLogprobsIdx : Option (List Nat)
  outputTokenLogprobsVal : List Rat
  outputTokenLogprobsIdx : List Nat
  inputTopLogprobsVal : Option (List (Option (List Rat)))
  inputTopLogprobsIdx : Option (List (Option (List Nat)))
  outputTopLogprobsVal : List (List Rat)
  outputTopLogprobsIdx : List (List Nat)

/-- What the loop of `process_batch_result_prefill` reads of the scheduler. -/
structure LogprobConfig where
  vocabSize : Nat
  isMixedChunk : Bool
  enableOverlap : Bool

/-- `num_input_logprobs`. -/
def Req.numInputLogprobs (req : Req) : Int := req.extendInputLen - req.extendLogprobStartLen

/-- The padded hash values of image tokens are clipped. -/
def clipId (vocabSize id : Nat) : Nat := if id + 1 < vocabSize then id else 0

namespace LogprobFields

/-- The logprob of the sampled token, and the normalized prompt logprob. -/
def addNext (fields : LogprobFields) (i token : Nat) (output : LogitsProcessorOutput) :
    LogprobFields :=
  { fields with
    outputTokenLogprobsVal := fields.outputTokenLogprobsVal ++ [output.nextTokenLogprobs i]
    outputTokenLogprobsIdx := fields.outputTokenLogprobsIdx ++ [token]
    normalizedPromptLogprob := some
      (fields.normalizedPromptLogprob.getD (output.normalizedPromptLogprobs i)) }

/-- The input logprobs, if they are not set yet. -/
def setInput (cfg : LogprobConfig) (req : Req) (fields : LogprobFields) (pt : Int)
    (output : LogitsProcessorOutput) : Option LogprobFields :=
  if fields.inputTokenLogprobsVal.isSome then some fields
  else
    let num := req.numInputLogprobs
    let len : Int := req.fillIds.length
    let val := sliceBetween output.inputTokenLogprobs pt
      (pt + num - 1 - fields.lastUpdateDecodeTokens)
    let idx := (sliceBetween req.fillIds (len - num + 1)
      (len - fields.lastUpdateDecodeTokens)).map (clipId cfg.vocabSize)
    if req.logprobStartLen = 0 then do
      -- the first token does not have a logprob
      let first ← req.fillIds.head?
      pure { fields with
        inputTokenLogprobsVal := some (none :: val.map some)
        inputTokenLogprobsIdx := some (first :: idx) }
    else some { fields with
      inputTokenLogprobsVal := some (val.map some)
      inputTokenLogprobsIdx := some idx }

/-- Some decode tokens are computed again in an extend batch. -/
def extendOutput (req : Req) (fields : LogprobFields) (pt : Int)
    (output : LogitsProcessorOutput) : LogprobFields :=
  if fields.lastUpdateDecodeTokens = 0 then fields
  else
    let stop := pt + req.numInputLogprobs - 1
    let len : Int := req.fillIds.length
    { fields with
      outputTokenLogprobsVal := fields.outputTokenLogprobsVal ++
        sliceBetween output.inputTokenLogprobs (stop - fields.lastUpdateDecodeTokens) stop
      outputTokenLogprobsIdx := fields.outputTokenLogprobsIdx ++
        sliceBetween req.fillIds (len - fields.lastUpdateDecodeTokens) len }

/-- The top logprobs, whose rows are those of the requests. -/
def addTopLogprobs (req : Req) (fields : LogprobFields) (i : Nat)
    (output : LogitsProcessorOutput) : LogprobFields :=
  if req.topLogprobsNum = 0 then fields
  else
    let pad {α : Type} (values : List α) : List (Option α) :=
      if req.logprobStartLen = 0 then none :: values.map some else values.map some
    let fields := if fields.inputTopLogprobsVal.isSome then fields else
      { fields with
        inputTopLogprobsVal := some (pad (output.inputTopLogprobsVal i))
        inputTopLogprobsIdx := some (pad (output.inputTopLogprobsIdx i)) }
    let last {α : Type} (values : List α) : List α :=
      if fields.lastUpdateDecodeTokens = 0 then []
      else sliceFrom values (-fields.lastUpdateDecodeTokens)
    { fields with
      outputTopLogprobsVal := fields.outputTopLogprobsVal ++ last (output.inputTopLogprobsVal i) ++
        [output.outputTopLogprobsVal i]
      outputTopLogprobsIdx := fields.outputTopLogprobsIdx ++ last (output.inputTopLogprobsIdx i) ++
        [output.outputTopLogprobsIdx i] }

/-- `add_logprob_return_values`: the fields and the number of entries to go on. -/
def addLogprobReturnValues (cfg : LogprobConfig) (req : Req) (fields : LogprobFields)
    (i token : Nat) (pt : Int) (output : LogitsProcessorOutput) :
    Option (LogprobFields × Int) := do
  let fields ← (fields.addNext i token output).setInput cfg req pt output
  let fields := fields.extendOutput req pt output
  pure (fields.addTopLogprobs req i output, req.numInputLogprobs)

end LogprobFields

/-- The request gets its logprobs, and `logprob_pt` goes on. -/
def reportsLogprobs (cfg : LogprobConfig) (req : Req) (fields : LogprobFields) : Bool :=
  !fields.isRetracted && !(cfg.isMixedChunk && cfg.enableOverlap && req.finished) &&
    decide (req.isBeingChunked ≤ 0) && req.returnLogprob

/-- The loop of `process_batch_result_prefill`, without what it does for scheduling: from row `i`
and with `logprob_pt`. -/
def processLogprobs (cfg : LogprobConfig) (heap : Nat → Req) (output : LogitsProcessorOutput) :
    List (Nat × Nat) → Nat → Int → (Nat → LogprobFields) → Option (Nat → LogprobFields)
  | [], _, _, fields => some fields
  | (q, token) :: rest, i, logprobPt, fields =>
    if reportsLogprobs cfg (heap q) (fields q) then do
      let (added, num) ← (fields q).addLogprobReturnValues cfg (heap q) i token logprobPt output
      processLogprobs cfg heap output rest (i + 1) (logprobPt + num) (Function.update fields q added)
    else processLogprobs cfg heap output rest (i + 1) logprobPt fields

/-- The extend ids of a request with its `extend_logprob_start_len`. -/
structure ExtendRow where
  ids : List Nat
  startLen : Int

namespace ExtendRow

/-- What `prepare_for_extend` makes of any request. -/
structure Valid (row : ExtendRow) : Prop where
  startLen_ge : -1 ≤ row.startLen
  startLen_lt : row.startLen < row.ids.length
  startLen_nonneg : row.ids ≠ [] → 0 ≤ row.startLen

/-- The number of its entries. -/
def num (row : ExtendRow) : Nat := (row.ids.length - row.startLen).toNat

/-- The two lengths that the processor zips. -/
def lens (row : ExtendRow) : Int × Int := (row.startLen, row.ids.length)

/-- The ids after those of its states. -/
def nextIds (row : ExtendRow) : List Nat := row.ids.drop (row.startLen.toNat + 1)

/-- The entries of a request from its own states, which begin at `base`: each pairs the state of
a position with the id of the next one. -/
def segment {H V : Type} (logprobOf : H → Nat → V) (states : List H) (base : Nat)
    (row : ExtendRow) : List V :=
  List.zipWith logprobOf
    (((states.drop base).take row.ids.length).drop row.startLen.toNat) row.nextIds

/-- The own entries of all requests. -/
def segments {H V : Type} (logprobOf : H → Nat → V) (states : List H) :
    Nat → List ExtendRow → List (List V)
  | _, [] => []
  | base, row :: rows =>
    row.segment logprobOf states base :: segments logprobOf states (base + row.ids.length) rows

variable {H V α : Type} {logprobOf : H → Nat → V} {states : List H} {base : Nat}
  {row : ExtendRow} {rows : List ExtendRow} {values : List α}

theorem Valid.num_pos (h : row.Valid) : 0 < row.num := by
  have hlt := h.startLen_lt
  unfold num
  omega

theorem Valid.num_eq (h : row.Valid) : (row.num : Int) = row.ids.length - row.startLen := by
  have hlt := h.startLen_lt
  unfold num
  omega

theorem sliceBetween_eq {start stop : Int} (hstart : 0 ≤ start) (hle : start ≤ stop) :
    sliceBetween values start stop =
      (values.drop start.toNat).take (stop.toNat - start.toNat) := by
  unfold sliceBetween sliceTo
  rw [if_pos (hstart.trans hle), if_pos hstart, List.drop_take]

/-- The slice of an empty first request is empty. -/
theorem sliceBetween_before : sliceBetween values (-1) 0 = [] := by
  unfold sliceBetween sliceTo
  simp

/-- The slice of a request, but for an empty first one. -/
theorem slice_row (hrow : row.Valid) (hpos : 0 < base ∨ row.ids ≠ []) :
    sliceBetween values (base + row.startLen) (base + row.ids.length) =
      (values.drop (base + row.startLen).toNat).take row.num := by
  have hlt := hrow.startLen_lt
  have hge := hrow.startLen_ge
  have hstart : 0 ≤ (base : Int) + row.startLen := by
    rcases hpos with hpos | hne
    · omega
    · have := hrow.startLen_nonneg hne
      omega
  rw [sliceBetween_eq hstart (by omega)]
  congr 1
  unfold num
  omega

theorem slice_length_le (hrow : row.Valid) :
    (sliceBetween values (base + row.startLen) (base + row.ids.length)).length ≤ row.num := by
  by_cases hpos : 0 < base ∨ row.ids ≠ []
  · rw [slice_row hrow hpos]
    exact List.length_take_le _ _
  · rw [not_or, not_lt, not_not] at hpos
    obtain ⟨hbase, hids⟩ := hpos
    have hge := hrow.startLen_ge
    have hlt := hrow.startLen_lt
    rw [hids] at hlt ⊢
    have hstart : (base : Int) + row.startLen = -1 := by
      simp only [List.length_nil] at hlt
      omega
    have hstop : (base : Int) + ([] : List Nat).length = 0 := by
      simp only [List.length_nil]
      omega
    rw [hstart, hstop, sliceBetween_before]
    exact Nat.zero_le _

theorem slice_length (hrow : row.Valid) (hpos : 0 < base ∨ row.ids ≠ [])
    (hlen : base + row.ids.length ≤ values.length) :
    (sliceBetween values (base + row.startLen) (base + row.ids.length)).length = row.num := by
  have hge := hrow.startLen_ge
  rw [slice_row hrow hpos, List.length_take, List.length_drop]
  unfold num
  rcases hpos with hpos | hne
  · omega
  · have := hrow.startLen_nonneg hne
    omega

/-- The states of a slice lie before the end of the request's own states. -/
theorem mem_slice {x : α}
    (hx : x ∈ sliceBetween values (base + row.startLen) (base + row.ids.length)) :
    x ∈ values.take (base + row.ids.length) := by
  unfold sliceBetween at hx
  have hmem := List.mem_of_mem_drop hx
  unfold sliceTo at hmem
  rw [if_pos (by omega)] at hmem
  exact hmem

theorem segment_length (hrow : row.Valid) (hlen : base + row.ids.length ≤ states.length) :
    (row.segment logprobOf states base).length + 1 = row.num := by
  have hlt := hrow.startLen_lt
  have hge := hrow.startLen_ge
  unfold segment nextIds
  rw [List.length_zipWith, List.length_drop, List.length_take, List.length_drop, List.length_drop]
  unfold num
  by_cases hne : row.ids = []
  · rw [hne] at hlt ⊢
    simp only [List.length_nil] at hlt ⊢
    omega
  · have hnonneg := hrow.startLen_nonneg hne
    omega

/-- A segment is what the request's slices of states and ids give. -/
theorem segment_eq {inputIds rest : List Nat} (hrow : row.Valid)
    (hpos : 0 < base ∨ row.ids ≠ []) (hids : inputIds.drop base = row.ids ++ rest) :
    List.zipWith logprobOf (sliceBetween states (base + row.startLen) (base + row.ids.length))
      (sliceBetween inputIds (base + row.startLen) (base + row.ids.length)).tail =
      row.segment logprobOf states base := by
  by_cases hne : row.ids = []
  · have hlt := hrow.startLen_lt
    have hge := hrow.startLen_ge
    have hone : (sliceBetween inputIds (base + row.startLen) (base + row.ids.length)).length ≤ 1 := by
      refine (slice_length_le hrow).trans ?_
      unfold num
      rw [hne]
      simp only [List.length_nil]
      omega
    have htail : (sliceBetween inputIds (base + row.startLen) (base + row.ids.length)).tail = [] := by
      apply List.eq_nil_of_length_eq_zero
      rw [List.length_tail]
      omega
    rw [htail, List.zipWith_nil_right]
    unfold segment nextIds
    rw [hne, List.drop_nil, List.zipWith_nil_right]
  · have hnonneg := hrow.startLen_nonneg hne
    have hlt := hrow.startLen_lt
    have hat : ((base : Int) + row.startLen).toNat = base + row.startLen.toNat := by omega
    rw [slice_row hrow hpos, slice_row hrow hpos, hat, ← List.drop_drop, ← List.drop_drop, hids]
    unfold segment nextIds
    have hnum : row.num = row.ids.length - row.startLen.toNat := by
      unfold num
      omega
    have hdrop : (row.ids.drop row.startLen.toNat).length = row.ids.length - row.startLen.toNat :=
      List.length_drop
    rw [hnum, List.drop_append_of_le_length (by omega), List.take_append_of_le_length hdrop.ge,
      List.take_of_length_le hdrop.le, List.tail_drop, List.drop_take]

theorem pos_next (hfirst : 0 < base ∨ row.ids ≠ []) : 0 < base + row.ids.length := by
  rcases hfirst with hbase | hne
  · omega
  · have := List.length_pos_iff.mpr hne
    omega

theorem prunedSlices_cons (values : List α) (base : Nat) (row : ExtendRow)
    (rows : List ExtendRow) :
    prunedSlices values base ((row :: rows).map ExtendRow.lens) =
      sliceBetween values (base + row.startLen) (base + row.ids.length) ++
        prunedSlices values (base + row.ids.length : Nat) (rows.map ExtendRow.lens) := by
  rw [Nat.cast_add]
  rfl

/-- Each request has its number of entries, unless the first one is empty. -/
theorem prunedSlices_length (hrows : ∀ row ∈ rows, row.Valid)
    (hlen : base + ((rows.map ExtendRow.ids).flatten).length ≤ values.length)
    (hpos : 0 < base ∨ ∀ row ∈ rows.head?, row.ids ≠ []) :
    (prunedSlices values base (rows.map ExtendRow.lens)).length = (rows.map num).sum := by
  induction rows generalizing base with
  | nil => rfl
  | cons row rows ih =>
    have hrow := hrows row List.mem_cons_self
    have hfirst : 0 < base ∨ row.ids ≠ [] := hpos.imp_right fun h => h row rfl
    rw [List.map_cons, List.flatten_cons, List.length_append, ← Nat.add_assoc] at hlen
    rw [prunedSlices_cons, List.map_cons, List.sum_cons, List.length_append,
      slice_length hrow hfirst (by omega)]
    congr 1
    exact ih (fun r hr => hrows r (List.mem_cons_of_mem _ hr)) hlen (.inl (pos_next hfirst))

theorem prunedSlices_length_le (hrows : ∀ row ∈ rows, row.Valid) :
    (prunedSlices values base (rows.map ExtendRow.lens)).length ≤ (rows.map num).sum := by
  induction rows generalizing base with
  | nil => exact le_rfl
  | cons row rows ih =>
    rw [prunedSlices_cons, List.map_cons, List.sum_cons, List.length_append]
    apply Nat.add_le_add (slice_length_le (hrows row List.mem_cons_self))
    exact ih fun r hr => hrows r (List.mem_cons_of_mem _ hr)

theorem prunedSlices_append (values : List α) (base : Nat) (rows rows' : List ExtendRow) :
    prunedSlices values base ((rows ++ rows').map ExtendRow.lens) =
      prunedSlices values base (rows.map ExtendRow.lens) ++
        prunedSlices values (base + ((rows.map ExtendRow.ids).flatten).length : Nat)
          (rows'.map ExtendRow.lens) := by
  induction rows generalizing base with
  | nil => rfl
  | cons row rows ih =>
    rw [List.cons_append, prunedSlices_cons, prunedSlices_cons, ih, List.map_cons,
      List.flatten_cons, List.length_append, ← Nat.add_assoc, List.append_assoc]

/-- The states of the slices lie before the end of the last request. -/
theorem mem_prunedSlices {x : α}
    (hx : x ∈ prunedSlices values base (rows.map ExtendRow.lens)) :
    x ∈ values.take (base + ((rows.map ExtendRow.ids).flatten).length) := by
  induction rows generalizing base with
  | nil => cases hx
  | cons row rows ih =>
    rw [List.map_cons, List.flatten_cons, List.length_append, ← Nat.add_assoc]
    rw [prunedSlices_cons] at hx
    rcases List.mem_append.mp hx with hfirst | hrest
    · have hle : base + row.ids.length ≤
          base + row.ids.length + ((rows.map ExtendRow.ids).flatten).length := by omega
      exact (List.take_sublist_take_left hle).subset (mem_slice hfirst)
    · exact ih hrest

/-- The processor's array is the concatenation of the requests' own entries, each with one more
at its end. -/
theorem layout {inputIds : List Nat} (logprobOf : H → Nat → V)
    (hrows : ∀ row ∈ rows, row.Valid)
    (hlen : states.length = inputIds.length) (hbase : base ≤ inputIds.length)
    (hids : inputIds.drop base = (rows.map ExtendRow.ids).flatten)
    (hpos : 0 < base ∨ ∀ row ∈ rows.head?, row.ids ≠ []) :
    ∃ lasts : List V, lasts.length = rows.length ∧
      List.zipWith logprobOf (prunedSlices states base (rows.map ExtendRow.lens))
        ((prunedSlices inputIds base (rows.map ExtendRow.lens)).tail ++ [0]) =
      (Segments.closed (segments logprobOf states base rows) lasts).flatten := by
  induction rows generalizing base with
  | nil => exact ⟨[], rfl, rfl⟩
  | cons row rows ih =>
    have hrow := hrows row List.mem_cons_self
    have hrows' : ∀ r ∈ rows, r.Valid := fun r hr => hrows r (List.mem_cons_of_mem _ hr)
    have hfirst : 0 < base ∨ row.ids ≠ [] := hpos.imp_right fun h => h row rfl
    rw [List.map_cons, List.flatten_cons] at hids
    have hcount := congrArg List.length hids
    rw [List.length_drop, List.length_append] at hcount
    have hnext : inputIds.drop (base + row.ids.length) = (rows.map ExtendRow.ids).flatten := by
      rw [← List.drop_drop, hids, List.drop_left]
    have hpos' := pos_next hfirst
    obtain ⟨lasts, hlasts, hrest⟩ := ih hrows' (by omega) hnext (.inl hpos')
    have hstates : (sliceBetween states (base + row.startLen) (base + row.ids.length)).length =
        row.num := slice_length hrow hfirst (by omega)
    have hinputs : (sliceBetween inputIds (base + row.startLen) (base + row.ids.length)).length =
        row.num := slice_length hrow hfirst (by omega)
    have hstates' : (prunedSlices states (base + row.ids.length : Nat)
        (rows.map ExtendRow.lens)).length = (rows.map num).sum :=
      prunedSlices_length hrows' (by omega) (.inl hpos')
    have hinputs' : (prunedSlices inputIds (base + row.ids.length : Nat)
        (rows.map ExtendRow.lens)).length = (rows.map num).sum :=
      prunedSlices_length hrows' (by omega) (.inl hpos')
    obtain ⟨last, hshift⟩ := Segments.zipWith_shift (f := logprobOf) (z := 0)
      (hstates.trans hinputs.symm) (List.ne_nil_of_length_pos (hinputs ▸ hrow.num_pos))
      (hstates'.trans hinputs'.symm)
    refine ⟨last :: lasts, by rw [List.length_cons, hlasts, List.length_cons], ?_⟩
    rw [prunedSlices_cons, prunedSlices_cons, hshift, hrest, segment_eq hrow hfirst hids]
    rfl

end ExtendRow

end FastPP
