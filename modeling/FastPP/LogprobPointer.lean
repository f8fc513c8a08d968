import FastPP.LogprobLayout

namespace FastPP

/-- The part of a request that a prefill batch extends. -/
def Req.extendRow (req : Req) : ExtendRow where
  ids := req.fillIds.drop req.prefixLen
  startLen := req.extendLogprobStartLen

namespace LogprobFields

variable {cfg : LogprobConfig} {req : Req} {fields added : LogprobFields} {i token : Nat}
  {pt num : Int} {output : LogitsProcessorOutput}

theorem setInput_eq_some (h : fields.setInput cfg req pt output = some added) :
    (fields.inputTokenLogprobsVal = none → req.logprobStartLen = 0 → req.fillIds ≠ []) ∧
    (fields.inputTokenLogprobsVal.isSome → added = fields) ∧
    (fields.inputTokenLogprobsVal = none → added = { fields with
      inputTokenLogprobsVal := some ((if req.logprobStartLen = 0 then [none] else []) ++
        (sliceBetween output.inputTokenLogprobs pt
          (pt + req.numInputLogprobs - 1 - fields.lastUpdateDecodeTokens)).map some)
      inputTokenLogprobsIdx := some ((if req.logprobStartLen = 0 then req.fillIds.take 1 else []) ++
        (sliceBetween req.fillIds ((req.fillIds.length : Int) - req.numInputLogprobs + 1)
          (req.fillIds.length - fields.lastUpdateDecodeTokens)).map (clipId cfg.vocabSize)) }) := by
  unfold setInput at h
  split at h
  next hset =>
    obtain rfl := Option.some.inj h
    have hne : fields.inputTokenLogprobsVal ≠ none := Option.isSome_iff_ne_none.mp hset
    exact ⟨fun hnone => absurd hnone hne, fun _ => rfl, fun hnone => absurd hnone hne⟩
  next hset =>
    dsimp only at h
    split at h
    next hstart =>
      obtain ⟨first, hfirst, h⟩ := Option.bind_eq_some_iff.mp h
      obtain rfl := Option.some.inj h
      obtain ⟨rest, hids⟩ := List.head?_eq_some_iff.mp hfirst
      refine ⟨fun _ _ => by rw [hids]; exact List.cons_ne_nil _ _, fun h => absurd h hset,
        fun _ => ?_⟩
      rw [if_pos hstart, if_pos hstart]
      have htake : req.fillIds.take 1 = [first] := by rw [hids]; rfl
      rw [htake]
      rfl
    next hstart =>
      obtain rfl := Option.some.inj h
      refine ⟨fun _ hzero => absurd hzero hstart, fun h => absurd h hset, fun _ => ?_⟩
      rw [if_neg hstart, if_neg hstart]
      rfl

theorem setInput_exists (cfg : LogprobConfig) (fields : LogprobFields) (pt : Int)
    (output : LogitsProcessorOutput)
    (h : fields.inputTokenLogprobsVal = none → req.logprobStartLen = 0 → req.fillIds ≠ []) :
    ∃ added, fields.setInput cfg req pt output = some added := by
  unfold setInput
  split
  next => exact ⟨_, rfl⟩
  next hset =>
    dsimp only
    split
    next hstart =>
      obtain ⟨first, rest, hids⟩ :=
        List.exists_cons_of_ne_nil (h (by simpa using hset) hstart)
      rw [hids]
      exact ⟨_, rfl⟩
    next => exact ⟨_, rfl⟩

/-- The lists of token logprobs are not touched by the top logprobs. -/
theorem addTopLogprobs_tokens (req : Req) (fields : LogprobFields) (i : Nat)
    (output : LogitsProcessorOutput) :
    (fields.addTopLogprobs req i output).inputTokenLogprobsVal = fields.inputTokenLogprobsVal ∧
    (fields.addTopLogprobs req i output).inputTokenLogprobsIdx = fields.inputTokenLogprobsIdx ∧
    (fields.addTopLogprobs req i output).outputTokenLogprobsVal = fields.outputTokenLogprobsVal ∧
    (fields.addTopLogprobs req i output).outputTokenLogprobsIdx = fields.outputTokenLogprobsIdx := by
  unfold addTopLogprobs
  split
  next => exact ⟨rfl, rfl, rfl, rfl⟩
  next =>
    by_cases hset : fields.inputTopLogprobsVal.isSome
    · simp only [hset, if_true, and_self]
    · simp only [hset, if_false, Bool.false_eq_true, and_self]

/-- What a request takes from the flat array for its input logprobs. -/
def takenInput (req : Req) (fields : LogprobFields) (pt : Int) (output : LogitsProcessorOutput) :
    List Rat :=
  if fields.inputTokenLogprobsVal.isSome then []
  else sliceBetween output.inputTokenLogprobs pt
    (pt + req.numInputLogprobs - 1 - fields.lastUpdateDecodeTokens)

/-- What it takes for its output logprobs. -/
def takenOutput (req : Req) (fields : LogprobFields) (pt : Int) (output : LogitsProcessorOutput) :
    List Rat :=
  if fields.lastUpdateDecodeTokens = 0 then []
  else sliceBetween output.inputTokenLogprobs
    (pt + req.numInputLogprobs - 1 - fields.lastUpdateDecodeTokens)
    (pt + req.numInputLogprobs - 1)

/-- The ids that go with the input logprobs. -/
def takenInputIds (cfg : LogprobConfig) (req : Req) (fields : LogprobFields) : List Nat :=
  if fields.inputTokenLogprobsVal.isSome then []
  else (sliceBetween req.fillIds ((req.fillIds.length : Int) - req.numInputLogprobs + 1)
    (req.fillIds.length - fields.lastUpdateDecodeTokens)).map (clipId cfg.vocabSize)

/-- The ids that go with the output logprobs. -/
def takenOutputIds (req : Req) (fields : LogprobFields) : List Nat :=
  if fields.lastUpdateDecodeTokens = 0 then []
  else sliceBetween req.fillIds ((req.fillIds.length : Int) - fields.lastUpdateDecodeTokens)
    req.fillIds.length

theorem extendOutput_tokens (req : Req) (fields : LogprobFields) (pt : Int)
    (output : LogitsProcessorOutput) :
    (fields.extendOutput req pt output).inputTokenLogprobsVal = fields.inputTokenLogprobsVal ∧
    (fields.extendOutput req pt output).inputTokenLogprobsIdx = fields.inputTokenLogprobsIdx ∧
    (fields.extendOutput req pt output).outputTokenLogprobsVal =
      fields.outputTokenLogprobsVal ++ takenOutput req fields pt output ∧
    (fields.extendOutput req pt output).outputTokenLogprobsIdx =
      fields.outputTokenLogprobsIdx ++ takenOutputIds req fields := by
  unfold extendOutput takenOutput takenOutputIds
  split
  next => simp only [List.append_nil, and_self]
  next => exact ⟨rfl, rfl, rfl, rfl⟩

/-- The request gets the values `vals` and `vals'` with the ids `ids` and `ids'`: the first ones
as its input logprobs, if these were not set yet. -/
structure Gives (req : Req) (fields added : LogprobFields) (next : Rat) (token : Nat)
    (vals vals' : List Rat) (ids ids' : List Nat) : Prop where
  outputVal : added.outputTokenLogprobsVal = fields.outputTokenLogprobsVal ++ next :: vals'
  outputIdx : added.outputTokenLogprobsIdx = fields.outputTokenLogprobsIdx ++ token :: ids'
  unset : fields.inputTokenLogprobsVal = none →
    added.inputTokenLogprobsVal =
      some ((if req.logprobStartLen = 0 then [none] else []) ++ vals.map some) ∧
    added.inputTokenLogprobsIdx =
      some ((if req.logprobStartLen = 0 then req.fillIds.take 1 else []) ++ ids)
  set : fields.inputTokenLogprobsVal.isSome → vals = [] ∧ ids = [] ∧
    added.inputTokenLogprobsVal = fields.inputTokenLogprobsVal ∧
    added.inputTokenLogprobsIdx = fields.inputTokenLogprobsIdx

/-- The given lists are determined by the fields. -/
theorem Gives.unique {next : Rat} {vals vals' vals₁ vals₁' : List Rat}
    {ids ids' ids₁ ids₁' : List Nat} (h : Gives req fields added next token vals vals' ids ids')
    (h₁ : Gives req fields added next token vals₁ vals₁' ids₁ ids₁') :
    vals = vals₁ ∧ vals' = vals₁' ∧ ids = ids₁ ∧ ids' = ids₁' := by
  have hval := List.append_cancel_left (h.outputVal.symm.trans h₁.outputVal)
  have hidx := List.append_cancel_left (h.outputIdx.symm.trans h₁.outputIdx)
  have hinput : vals = vals₁ ∧ ids = ids₁ := by
    cases hset : fields.inputTokenLogprobsVal with
    | none =>
      obtain ⟨hvals, hids⟩ := h.unset hset
      obtain ⟨hvals₁, hids₁⟩ := h₁.unset hset
      have hsome := List.append_cancel_left (Option.some.inj (hvals.symm.trans hvals₁))
      have hsame := List.append_cancel_left (Option.some.inj (hids.symm.trans hids₁))
      exact ⟨List.map_injective_iff.mpr (Option.some_injective _) hsome, hsame⟩
    | some input =>
      have hsome : fields.inputTokenLogprobsVal.isSome := by rw [hset]; rfl
      obtain ⟨hvals, hids, _⟩ := h.set hsome
      obtain ⟨hvals₁, hids₁, _⟩ := h₁.set hsome
      exact ⟨hvals.trans hvals₁.symm, hids.trans hids₁.symm⟩
  exact ⟨hinput.1, (List.cons.inj hval).2, hinput.2, (List.cons.inj hidx).2⟩

/-- `add_logprob_return_values` gives what it takes. -/
theorem add_gives
    (h : fields.addLogprobReturnValues cfg req i token pt output = some (added, num)) :
    num = req.numInputLogprobs ∧
    (fields.inputTokenLogprobsVal = none → req.logprobStartLen = 0 → req.fillIds ≠ []) ∧
    Gives req fields added (output.nextTokenLogprobs i) token (takenInput req fields pt output)
      (takenOutput req fields pt output) (takenInputIds cfg req fields)
      (takenOutputIds req fields) := by
  obtain ⟨input, hinput, h⟩ := Option.bind_eq_some_iff.mp h
  obtain ⟨rfl, rfl⟩ := Prod.mk.inj (Option.some.inj h)
  obtain ⟨hne, hkept, hset⟩ := setInput_eq_some hinput
  obtain ⟨hinVal, hinIdx, houtVal, houtIdx⟩ :=
    addTopLogprobs_tokens req (input.extendOutput req pt output) i output
  obtain ⟨hinVal', hinIdx', houtVal', houtIdx'⟩ := extendOutput_tokens req input pt output
  rw [hinVal'] at hinVal
  rw [hinIdx'] at hinIdx
  rw [houtVal'] at houtVal
  rw [houtIdx'] at houtIdx
  refine ⟨rfl, hne, ?_⟩
  cases hval : fields.inputTokenLogprobsVal with
  | none =>
    rw [hset hval] at hinVal hinIdx houtVal houtIdx
    refine ⟨?_, ?_, fun _ => ⟨?_, ?_⟩, fun h => ?_⟩
    · rw [hset hval, houtVal]
      exact List.append_assoc fields.outputTokenLogprobsVal [_] _
    · rw [hset hval, houtIdx]
      exact List.append_assoc fields.outputTokenLogprobsIdx [_] _
    · rw [hset hval, hinVal]
      unfold takenInput
      rw [hval]
      rfl
    · rw [hset hval, hinIdx]
      unfold takenInputIds
      rw [hval]
      rfl
    · rw [hval] at h
      cases h
  | some vals =>
    have hsome : fields.inputTokenLogprobsVal.isSome := by rw [hval]; rfl
    rw [hkept hsome] at hinVal hinIdx houtVal houtIdx
    refine ⟨?_, ?_, fun h => ?_, fun _ => ⟨?_, ?_, ?_, ?_⟩⟩
    · rw [hkept hsome, houtVal]
      exact List.append_assoc fields.outputTokenLogprobsVal [_] _
    · rw [hkept hsome, houtIdx]
      exact List.append_assoc fields.outputTokenLogprobsIdx [_] _
    · rw [hval] at h
      cases h
    · unfold takenInput
      rw [if_pos hsome]
    · unfold takenInputIds
      rw [if_pos hsome]
    · rw [hkept hsome]
      exact hinVal
    · rw [hkept hsome]
      exact hinIdx

theorem add_exists (h : fields.inputTokenLogprobsVal = none → req.logprobStartLen = 0 → req.fillIds ≠ []) :
    ∃ added, fields.addLogprobReturnValues cfg req i token pt output =
      some (added, req.numInputLogprobs) := by
  obtain ⟨input, hinput⟩ :=
    setInput_exists cfg (fields.addNext i token output) pt output h
  exact ⟨_, Option.bind_eq_some_iff.mpr ⟨_, hinput, rfl⟩⟩

end LogprobFields

end FastPP
