import FastPP.Serving.BatchInput

namespace FastPP

namespace GenerateReqInput

variable {E I : Type} {obj filled : GenerateReqInput E I} {uuid : Nat → String} {i size n : Nat}
  {request : SingleReqInput E I} {normalized : NormalizedInput E I}

/-- The inputs of a batch, with an entry for each request. -/
structure InputsFit (obj : GenerateReqInput E I) (size : Nat) : Prop where
  text : obj.text.Fits size
  inputIds : obj.inputIds.Fits size
  inputEmbeds : obj.inputEmbeds.Fits size

/-- The filled fields have the entries of the given object. -/
structure Expanded (uuid : Nat → String) (obj filled : GenerateReqInput E I) (size : Nat) :
    Prop where
  text : ∀ i < size, filled.text.item? i = obj.text.entry? i
  inputIds : ∀ i < size, filled.inputIds.item? i = obj.inputIds.entry? i
  imageData : ∀ i < size, filled.imageData.get? i = obj.imageData.entryOr none i
  samplingParams : ∀ i < size, filled.samplingParams.get? i = obj.samplingParams.entryOr ⟨none, []⟩ i
  rid : ∀ i < size, filled.rid.get? i = obj.rid.entryOr (uuid i) i
  returnLogprob : ∀ i < size, filled.returnLogprob.get? i = obj.returnLogprob.entryOr false i
  logprobStartLen : ∀ i < size, filled.logprobStartLen.get? i = obj.logprobStartLen.entryOr (-1) i
  topLogprobsNum : ∀ i < size, filled.topLogprobsNum.get? i = obj.topLogprobsNum.entryOr 0 i
  returnTextInLogprobs : filled.returnTextInLogprobs = obj.returnTextInLogprobs
  stream : filled.stream = obj.stream
  modalities : filled.modalities = obj.modalities
  loraPath : filled.loraPath = obj.loraPath

/-- The rids of a batch. -/
theorem batchRids_get? {field rids : Shaped String} {num : Nat} (hi : i < num)
    (h : batchRids uuid num field = some rids) : rids.get? i = field.entryOr (uuid i) i := by
  cases field with
  | none =>
    cases h
    show ((List.range num).map uuid)[i]? = some (uuid i)
    rw [List.getElem?_map, List.getElem?_range hi]
    rfl
  | one value => exact nomatch h
  | many values =>
    cases h
    rfl

/-- Filling the defaults of a batch keeps the entries. -/
theorem fillBatch_expanded {text : Shaped String} {inputIds : Shaped (List Nat)}
    {inputEmbeds : Shaped E} (hn : 1 ≤ n)
    (htext : ∀ i < size, text.item? i = obj.text.entry? i)
    (hids : ∀ i < size, inputIds.item? i = obj.inputIds.entry? i)
    (h : fillBatch uuid size n { obj with text, inputIds, inputEmbeds } = some filled) :
    Expanded uuid obj filled size := by
  unfold fillBatch at h
  have hnum : size ≤ if n = 1 then size else size * n := by
    split
    · exact Nat.le_refl _
    · exact Nat.le_mul_of_pos_right size hn
  generalize (if n = 1 then size else size * n) = num at h hnum
  obtain ⟨rids, hrids, h⟩ := Option.bind_eq_some_iff.mp h
  split at h
  next => exact nomatch h
  next =>
    cases h
    exact {
      text := htext
      inputIds := hids
      imageData := fun i hi => Shaped.fill_get? _ _ (by omega)
      samplingParams := fun i hi => Shaped.fill_get? _ _ (by omega)
      rid := fun i hi => batchRids_get? (by omega) hrids
      returnLogprob := fun i hi => Shaped.fill_get? _ _ (by omega)
      logprobStartLen := fun i hi => Shaped.fill_get? _ _ (by omega)
      topLogprobsNum := fun i hi => Shaped.fill_get? _ _ (by omega)
      returnTextInLogprobs := rfl
      stream := rfl
      modalities := rfl
      loraPath := rfl }

/-- The size of a batch of one kind is that of its input. -/
theorem batchShape_fits {isSingle : Bool} (hkind : obj.OneKind)
    (h : obj.batchShape = some (isSingle, size)) :
    obj.InputsFit size ∧
      (isSingle = true → size = 1) ∧
      (isSingle = false → (∀ value, obj.text ≠ .one value) ∧ ∀ value, obj.inputIds ≠ .one value) := by
  obtain ⟨htextIds, htextEmbeds, hidsEmbeds⟩ := hkind
  have hgiven : ∀ {α : Type} {field : Shaped α} {num : Nat}, field.given = false → field.Fits num := by
    intro α field num hfield values hvalues
    rw [hvalues] at hfield
    exact nomatch hfield
  have hnotOne : ∀ {α : Type} {field : Shaped α}, field.given = false → ∀ value, field ≠ .one value := by
    intro α field hfield value hvalue
    rw [hvalue] at hfield
    exact nomatch hfield
  unfold batchShape at h
  split at h
  next value htext =>
    rw [htext] at htextIds htextEmbeds
    cases h
    refine ⟨⟨?_, hgiven htextIds, hgiven htextEmbeds⟩, fun _ => rfl, fun hfalse => (nomatch hfalse)⟩
    intro values hvalues
    exact nomatch htext.symm.trans hvalues
  next texts htext =>
    rw [htext] at htextIds htextEmbeds
    cases h
    refine ⟨⟨?_, hgiven htextIds, hgiven htextEmbeds⟩, fun htrue => (nomatch htrue),
      fun _ => ⟨?_, hnotOne htextIds⟩⟩
    · intro values hvalues
      cases htext.symm.trans hvalues
      exact Nat.le_refl _
    · intro value hvalue
      exact nomatch htext.symm.trans hvalue
  next htext =>
    have htextFits : obj.text.Fits size := hgiven (by rw [htext]; rfl)
    split at h
    next ids hids =>
      rw [hids] at hidsEmbeds
      split at h
      next => exact nomatch h
      next =>
        cases h
        refine ⟨⟨htextFits, ?_, hgiven hidsEmbeds⟩, fun _ => rfl, fun hfalse => (nomatch hfalse)⟩
        intro values hvalues
        exact nomatch hids.symm.trans hvalues
    next batch hids =>
      rw [hids] at hidsEmbeds
      split at h
      next => exact nomatch h
      next =>
        cases h
        refine ⟨⟨htextFits, ?_, hgiven hidsEmbeds⟩, fun htrue => (nomatch htrue), fun _ => ⟨?_, ?_⟩⟩
        · intro values hvalues
          cases hids.symm.trans hvalues
          exact Nat.le_refl _
        · intro value hvalue
          exact nomatch htext.symm.trans hvalue
        · intro value hvalue
          exact nomatch hids.symm.trans hvalue
    next hids =>
      split at h
      next embeds hembeds =>
        cases h
        refine ⟨⟨htextFits, hgiven (by rw [hids]; rfl), ?_⟩, fun _ => rfl, fun hfalse => (nomatch hfalse)⟩
        intro values hvalues
        exact nomatch hembeds.symm.trans hvalues
      next => exact nomatch h
      next => exact nomatch h

/-- The object without the spare embeddings differs only in them. -/
theorem withoutSpareEmbeds_eq (obj : GenerateReqInput E I) :
    ∃ inputEmbeds, obj.withoutSpareEmbeds = { obj with inputEmbeds } := by
  unfold withoutSpareEmbeds
  split
  next => exact ⟨_, rfl⟩
  next => exact ⟨obj.inputEmbeds, rfl⟩

/-- A batch that is accepted is expanded. -/
theorem normalize_expanded (h : normalizeBatchAndArguments uuid obj = some normalized)
    (hbatch : normalized.isSingle = false) (hn : 1 ≤ normalized.parallelSampleNum)
    (hkind : obj.OneKind) :
    obj.InputsFit normalized.batchSize ∧
      Expanded uuid obj normalized.obj normalized.batchSize := by
  unfold normalizeBatchAndArguments at h
  split at h
  next =>
    obtain ⟨⟨isSingle, size⟩, hshape, h⟩ := Option.bind_eq_some_iff.mp h
    obtain ⟨n, _, h⟩ := Option.bind_eq_some_iff.mp h
    obtain ⟨result, hresult, h⟩ := Option.bind_eq_some_iff.mp h
    cases h
    obtain ⟨hfit, hone, hmany⟩ := batchShape_fits hkind hshape
    refine ⟨hfit, ?_⟩
    obtain ⟨embeds, hembeds⟩ := withoutSpareEmbeds_eq obj
    rw [hembeds] at hresult
    change (isSingle && !(decide (1 < n) && isSingle)) = false at hbatch
    change fillDefaults uuid (isSingle && !(decide (1 < n) && isSingle)) size n
      (asBatch (decide (1 < n) && isSingle) { obj with inputEmbeds := embeds }) = some result at hresult
    rw [hbatch] at hresult
    cases isSingle with
    | true =>
      -- one input with several samples is a batch of one
      have hparallel : (decide (1 < n) && true) = true := by
        rw [Bool.true_and, Bool.not_eq_false'] at hbatch
        exact hbatch
      rw [hparallel] at hresult
      cases hone rfl
      refine fillBatch_expanded hn ?_ ?_ hresult
      · intro i hi
        exact Shaped.item?_wrap _ _ (fun _ _ => Nat.lt_one_iff.mp hi)
      · intro i hi
        exact Shaped.item?_wrap _ _ (fun _ _ => Nat.lt_one_iff.mp hi)
    | false =>
      obtain ⟨htext, hids⟩ := hmany rfl
      rw [Bool.and_false] at hresult
      refine fillBatch_expanded hn ?_ ?_ hresult
      · intro i _
        exact Shaped.item?_eq_entry? _ _ htext
      · intro i _
        exact Shaped.item?_eq_entry? _ _ hids
  next => exact nomatch h

/-- The request of the entries is defined. -/
theorem single_exists (uuid : Nat → String) (hi : i < size) (hinputs : obj.InputsFit size)
    (hfields : obj.PerRequest size) : ∃ request, obj.single uuid i = some request := by
  obtain ⟨text, htext⟩ := hinputs.text.entry? hi
  obtain ⟨ids, hids⟩ := hinputs.inputIds.entry? hi
  obtain ⟨embeds, hembeds⟩ := hinputs.inputEmbeds.entry? hi
  obtain ⟨image, himage⟩ := hfields.imageData.entryOr hi none
  obtain ⟨params, hparams⟩ := hfields.samplingParams.entryOr hi ⟨none, []⟩
  obtain ⟨rid, hrid⟩ := hfields.rid.entryOr hi (uuid i)
  obtain ⟨returned, hreturned⟩ := hfields.returnLogprob.entryOr hi false
  obtain ⟨start, hstart⟩ := hfields.logprobStartLen.entryOr hi (-1)
  obtain ⟨top, htop⟩ := hfields.topLogprobsNum.entryOr hi 0
  obtain ⟨modalities, hmodalities⟩ := hfields.modalities.entry? hi
  obtain ⟨path, hpath⟩ := hfields.loraPath.entryOr hi none
  obtain ⟨session, hsession⟩ := hfields.session.entry? hi
  unfold single
  rw [htext, hids, hembeds, himage, hparams, hrid, hreturned, hstart, htop, hmodalities, hpath,
    hsession]
  exact ⟨_, rfl⟩

/-- The fields of that request which `__getitem__` does not take from the filled object. -/
theorem single_fields (h : obj.single uuid i = some request) :
    obj.inputEmbeds.entry? i = some request.inputEmbeds ∧
      obj.modalities.entry? i = some request.modalities ∧
      obj.loraPath.entryOr none i = some request.loraPath ∧
      obj.session.entry? i = some request.session := by
  obtain ⟨text, _, h⟩ := Option.bind_eq_some_iff.mp h
  obtain ⟨ids, _, h⟩ := Option.bind_eq_some_iff.mp h
  obtain ⟨embeds, hembeds, h⟩ := Option.bind_eq_some_iff.mp h
  obtain ⟨image, _, h⟩ := Option.bind_eq_some_iff.mp h
  obtain ⟨params, _, h⟩ := Option.bind_eq_some_iff.mp h
  obtain ⟨rid, _, h⟩ := Option.bind_eq_some_iff.mp h
  obtain ⟨returned, _, h⟩ := Option.bind_eq_some_iff.mp h
  obtain ⟨start, _, h⟩ := Option.bind_eq_some_iff.mp h
  obtain ⟨top, _, h⟩ := Option.bind_eq_some_iff.mp h
  obtain ⟨modalities, hmodalities, h⟩ := Option.bind_eq_some_iff.mp h
  obtain ⟨path, hpath, h⟩ := Option.bind_eq_some_iff.mp h
  obtain ⟨session, hsession, h⟩ := Option.bind_eq_some_iff.mp h
  cases h
  exact ⟨hembeds, hmodalities, hpath, hsession⟩

/-- What `__getitem__` gives for the request of the entries. -/
theorem getItem_of_single (h : Expanded uuid obj filled size) (hi : i < size)
    (hsingle : obj.single uuid i = some request) :
    filled.getItem i = (modality? obj.modalities i).bind fun modalities =>
      (loraPath? obj.loraPath i).bind fun loraPath =>
        some { request with inputEmbeds := none, modalities, loraPath, session := none } := by
  obtain ⟨text, htext, hsingle⟩ := Option.bind_eq_some_iff.mp hsingle
  obtain ⟨ids, hids, hsingle⟩ := Option.bind_eq_some_iff.mp hsingle
  obtain ⟨embeds, _, hsingle⟩ := Option.bind_eq_some_iff.mp hsingle
  obtain ⟨image, himage, hsingle⟩ := Option.bind_eq_some_iff.mp hsingle
  obtain ⟨params, hparams, hsingle⟩ := Option.bind_eq_some_iff.mp hsingle
  obtain ⟨rid, hrid, hsingle⟩ := Option.bind_eq_some_iff.mp hsingle
  obtain ⟨returned, hreturned, hsingle⟩ := Option.bind_eq_some_iff.mp hsingle
  obtain ⟨start, hstart, hsingle⟩ := Option.bind_eq_some_iff.mp hsingle
  obtain ⟨top, htop, hsingle⟩ := Option.bind_eq_some_iff.mp hsingle
  obtain ⟨_, _, hsingle⟩ := Option.bind_eq_some_iff.mp hsingle
  obtain ⟨_, _, hsingle⟩ := Option.bind_eq_some_iff.mp hsingle
  obtain ⟨_, _, hsingle⟩ := Option.bind_eq_some_iff.mp hsingle
  cases hsingle
  unfold getItem
  rw [h.text i hi, h.inputIds i hi, h.imageData i hi, h.samplingParams i hi, h.rid i hi,
    h.returnLogprob i hi, h.logprobStartLen i hi, h.topLogprobsNum i hi, h.modalities,
    h.loraPath, h.returnTextInLogprobs, h.stream, htext, hids, himage, hparams, hrid, hreturned,
    hstart, htop]
  rfl

/-- `obj[i]` is the request of the entries exactly where nothing is dropped and the two options
are read as they were given. -/
theorem getItem_iff (h : Expanded uuid obj filled size) (hi : i < size)
    (hinputs : obj.InputsFit size) (hfields : obj.PerRequest size) :
    (∃ request, filled.getItem i = some request ∧ obj.single uuid i = some request) ↔
      obj.inputEmbeds = .none ∧ obj.session = .none ∧
        modality? obj.modalities i = obj.modalities.entry? i ∧
        loraPath? obj.loraPath i = obj.loraPath.entryOr none i := by
  obtain ⟨request, hsingle⟩ := single_exists uuid hi hinputs hfields
  obtain ⟨hembeds, hmodalities, hpath, hsession⟩ := single_fields hsingle
  have hitem := getItem_of_single h hi hsingle
  rw [← Shaped.entry?_eq_none obj.inputEmbeds i, ← Shaped.entry?_eq_none obj.session i, hembeds,
    hmodalities, hpath, hsession]
  constructor
  · rintro ⟨same, hsame, hsame'⟩
    cases hsingle.symm.trans hsame'
    obtain ⟨modalities, hread, hsame⟩ := Option.bind_eq_some_iff.mp (hitem.symm.trans hsame)
    obtain ⟨path, hreadPath, hsame⟩ := Option.bind_eq_some_iff.mp hsame
    have heq := Option.some.inj hsame
    exact ⟨congrArg (some ·.inputEmbeds) heq.symm, congrArg (some ·.session) heq.symm,
      hread.trans (congrArg (some ·.modalities) heq), hreadPath.trans (congrArg (some ·.loraPath) heq)⟩
  · rintro ⟨hnoEmbeds, hnoSession, hread, hreadPath⟩
    refine ⟨request, ?_, hsingle⟩
    rw [hitem, hread, hreadPath]
    cases request
    cases hnoEmbeds
    cases hnoSession
    rfl

end GenerateReqInput

namespace GenerateReqInput

/-- A shared modality is read whole only where it is its own character. -/
theorem modality?_eq_forall {field : Shaped String} {size : Nat} (hsize : 0 < size)
    (hfits : field.Fits size) :
    (∀ i < size, modality? field i = field.entry? i) ↔
      ∀ value, field = .one value → SingleChar size value := by
  cases field with
  | none => exact ⟨fun _ value h => (nomatch h), fun _ i _ => rfl⟩
  | many values =>
    refine ⟨fun _ value h => (nomatch h), fun _ i _ => ?_⟩
    have hlen := hfits values rfl
    have hne : values ≠ [] := by
      intro hnil
      rw [hnil, List.length_nil] at hlen
      omega
    exact if_neg hne
  | one value =>
    rw [show (∀ other, Shaped.one value = .one other → SingleChar size other) ↔
        SingleChar size value from
      ⟨fun h => h value rfl, fun h other hother => by cases hother; exact h⟩]
    by_cases hempty : value = ""
    · subst hempty
      constructor
      · intro h
        exact nomatch h 0 hsize
      · intro h
        obtain ⟨_, c, hc⟩ := h
        exact absurd (congrArg String.toList hc) (by simp)
    · have hread : ∀ i, modality? (.one value) i = (charAt value i).map some :=
        fun i => if_neg hempty
      rw [← charAt_eq_self_forall hsize]
      constructor
      · intro h i hi
        obtain ⟨char, hchar, heq⟩ := Option.map_eq_some_iff.mp ((hread i).symm.trans (h i hi))
        cases heq
        exact hchar
      · intro h i hi
        rw [hread i, h i hi]
        rfl

/-- So is a shared adapter. -/
theorem loraPath?_eq_forall {field : Shaped (Option String)} {size : Nat} (hsize : 0 < size) :
    (∀ i < size, loraPath? field i = field.entryOr none i) ↔
      ∀ path, field = .one (some path) → SingleChar size path := by
  match field with
  | .none => exact ⟨fun _ path h => (nomatch h), fun _ i _ => rfl⟩
  | .one none => exact ⟨fun _ path h => (nomatch h), fun _ i _ => rfl⟩
  | .many paths => exact ⟨fun _ path h => (nomatch h), fun _ i _ => rfl⟩
  | .one (some path) =>
    rw [show (∀ other, Shaped.one (some path) = .one (some other) → SingleChar size other) ↔
        SingleChar size path from
      ⟨fun h => h path rfl, fun h other hother => by cases hother; exact h⟩,
      ← charAt_eq_self_forall hsize]
    constructor
    · intro h i hi
      obtain ⟨char, hchar, heq⟩ := Option.map_eq_some_iff.mp (h i hi)
      cases heq
      exact hchar
    · intro h i hi
      exact congrArg (Option.map some) (h i hi)

variable {E I : Type} {obj : GenerateReqInput E I} {uuid : Nat → String}
  {normalized : NormalizedInput E I}

/-- Every `obj[i]` of an accepted batch is the request of the `i`-th entries exactly where the
batch is empty, or no embeddings and no session are given and no modality or adapter is shared,
a single character for one request apart. -/
theorem getItem_single_iff (h : normalizeBatchAndArguments uuid obj = some normalized)
    (hbatch : normalized.isSingle = false) (hn : 1 ≤ normalized.parallelSampleNum)
    (hkind : obj.OneKind) (hfields : obj.PerRequest normalized.batchSize) :
    (∀ i < normalized.batchSize, ∃ request,
        normalized.obj.getItem i = some request ∧ obj.single uuid i = some request) ↔
      normalized.batchSize = 0 ∨
        obj.inputEmbeds = .none ∧ obj.session = .none ∧
          (∀ value, obj.modalities = .one value → SingleChar normalized.batchSize value) ∧
          ∀ path, obj.loraPath = .one (some path) → SingleChar normalized.batchSize path := by
  obtain ⟨hinputs, hexpanded⟩ := normalize_expanded h hbatch hn hkind
  have hitem := fun i (hi : i < normalized.batchSize) => getItem_iff hexpanded hi hinputs hfields
  rcases Nat.eq_zero_or_pos normalized.batchSize with hzero | hpos
  · refine ⟨fun _ => .inl hzero, fun _ i hi => ?_⟩
    omega
  · rw [← modality?_eq_forall hpos hfields.modalities, ← loraPath?_eq_forall hpos]
    constructor
    · intro hall
      obtain ⟨hembeds, hsession, _, _⟩ := (hitem 0 hpos).mp (hall 0 hpos)
      exact .inr ⟨hembeds, hsession, fun i hi => ((hitem i hi).mp (hall i hi)).2.2.1,
        fun i hi => ((hitem i hi).mp (hall i hi)).2.2.2⟩
    · intro hcases i hi
      rcases hcases with hzero | hgiven
      · omega
      · obtain ⟨hembeds, hsession, hmodalities, hpaths⟩ := hgiven
        exact (hitem i hi).mpr ⟨hembeds, hsession, hmodalities i hi, hpaths i hi⟩

/-- Two texts with two samples of each. -/
def twoTexts (loraPath : Shaped (Option String)) (session : Shaped (String × Option String)) :
    GenerateReqInput Unit Unit :=
  ⟨.many ["hello", "world"], .none, .none, .none, .one ⟨some 2, []⟩, .none, .none, .one 4, .none,
    false, false, .none, loraPath, session⟩

/-- A batch with an adapter for each of its requests. -/
theorem getItem_single_iff_adapters :
    ∃ normalized,
      normalizeBatchAndArguments (fun _ => "rid") (twoTexts (.many [some "base", none]) .none) =
          some normalized ∧
        ∀ i < normalized.batchSize, ∃ request, normalized.obj.getItem i = some request ∧
          (twoTexts (.many [some "base", none]) .none).single (fun _ => "rid") i = some request := by
  refine ⟨_, rfl, (getItem_single_iff rfl rfl (by decide) ⟨rfl, rfl, rfl⟩ ?_).mpr (.inr ?_)⟩
  · constructor <;> intro values hvalues <;> cases hvalues
    decide
  · exact ⟨rfl, rfl, fun value hvalue => (nomatch hvalue), fun path hpath => (nomatch hpath)⟩

/-- With one adapter and one session for both texts, the first request gets the first character
of the adapter's path and no session. -/
theorem shared_adapter_misread :
    ∃ normalized item request,
      normalizeBatchAndArguments (fun _ => "rid") (twoTexts (.one (some "base")) (.one ("s", none))) =
          some normalized ∧
        normalized.isSingle = false ∧ normalized.batchSize = 2 ∧
        normalized.obj.getItem 0 = some item ∧
        (twoTexts (.one (some "base")) (.one ("s", none))).single (fun _ => "rid") 0 = some request ∧
        item.loraPath = some "b" ∧ request.loraPath = some "base" ∧
        item.session = none ∧ request.session = some ("s", none) := by
  exact ⟨_, _, _, rfl, rfl, rfl, rfl, rfl, by decide, rfl, rfl, rfl⟩

end GenerateReqInput

end FastPP
