import Mathlib.Data.List.Basic

namespace FastPP

/-- A field that is `None`, one value, or a list with an entry for each request. -/
inductive Shaped (α : Type)
  | none
  | one (value : α)
  | many (values : List α)
  deriving DecidableEq

/-- A `sampling_params` dict: the key `"n"`, and the other items. -/
structure SamplingDict where
  n : Option Nat
  others : List (String × String)
  deriving DecidableEq

/-- `GenerateReqInput`, where `E` are the embeddings of one input and `I` images; a value of
`none` in a field of options is a `None` of the source. -/
structure GenerateReqInput (E I : Type) where
  text : Shaped String
  inputIds : Shaped (List Nat)
  inputEmbeds : Shaped E
  imageData : Shaped (Option I)
  samplingParams : Shaped SamplingDict
  rid : Shaped String
  returnLogprob : Shaped Bool
  logprobStartLen : Shaped Int
  topLogprobsNum : Shaped Nat
  returnTextInLogprobs : Bool
  stream : Bool
  modalities : Shaped String
  loraPath : Shaped (Option String)
  session : Shaped (String × Option String)
  deriving DecidableEq

/-- The object after `normalize_batch_and_arguments`. -/
structure NormalizedInput (E I : Type) where
  obj : GenerateReqInput E I
  isSingle : Bool
  batchSize : Nat
  parallelSampleNum : Nat

/-- A request for one input. -/
structure SingleReqInput (E I : Type) where
  text : Option String
  inputIds : Option (List Nat)
  inputEmbeds : Option E
  imageData : Option I
  samplingParams : SamplingDict
  rid : String
  returnLogprob : Bool
  logprobStartLen : Int
  topLogprobsNum : Nat
  returnTextInLogprobs : Bool
  stream : Bool
  modalities : Option String
  loraPath : Option String
  session : Option (String × Option String)
  deriving DecidableEq

/-- `params.get("n", 1)`. -/
def SamplingDict.parallelSampleNum (params : SamplingDict) : Nat := params.n.getD 1

namespace Shaped

variable {α : Type}

def given : Shaped α → Bool
  | .none => false
  | .one _ | .many _ => true

/-- A single value made a list of one. -/
def wrap : Shaped α → Shaped α
  | .one value => .many [value]
  | field => field

/-- The default of a batch: a list of `num` copies of the value, or of the default. -/
def fill (default : α) (num : Nat) : Shaped α → Shaped α
  | .none => .many (List.replicate num default)
  | .one value => .many (List.replicate num value)
  | .many values => .many values

/-- The default of a single request. -/
def orElse (default : α) : Shaped α → Shaped α
  | .none => .one default
  | field => field

def isMany : Shaped α → Bool
  | .many _ => true
  | .none | .one _ => false

/-- `field[i] if field is not None else None`, where the field of a batch is not one value. -/
def item? (field : Shaped α) (i : Nat) : Option (Option α) :=
  match field with
  | .none => some Option.none
  | .one _ => Option.none
  | .many values => values[i]?.map some

/-- `field[i]` of a list. -/
def get? (field : Shaped α) (i : Nat) : Option α :=
  match field with
  | .none | .one _ => Option.none
  | .many values => values[i]?

end Shaped

/-- `value[i]` of a string, a string of one character. -/
def charAt (value : String) (i : Nat) : Option String := value.toList[i]?.map String.singleton

namespace GenerateReqInput

variable {E I : Type}

/-- Some kind of input is given, and not all three. -/
def hasInput (obj : GenerateReqInput E I) : Bool :=
  (obj.text.given || obj.inputIds.given || obj.inputEmbeds.given) &&
    !(obj.text.given && obj.inputIds.given && obj.inputEmbeds.given)

/-- `is_single` and `batch_size`; `none` is an error. Nothing sets `is_single` for a list of
embeddings, and the attribute is read later in any case. -/
def batchShape (obj : GenerateReqInput E I) : Option (Bool × Nat) :=
  match obj.text with
  | .one _ => some (true, 1)
  | .many texts => some (false, texts.length)
  | .none =>
    match obj.inputIds with
    | .one ids => if ids = [] then none else some (true, 1)
    | .many batch => if batch = [] then none else some (false, batch.length)
    | .none =>
      match obj.inputEmbeds with
      | .one _ => some (true, 1)
      | .many _ | .none => none

/-- The embeddings are dropped where there is a text or token ids. -/
def withoutSpareEmbeds (obj : GenerateReqInput E I) : GenerateReqInput E I :=
  if obj.text.given || obj.inputIds.given then { obj with inputEmbeds := .none } else obj

/-- `parallel_sample_num`. -/
def sampleNum (obj : GenerateReqInput E I) : Option Nat :=
  match obj.samplingParams with
  | .none => some 1
  | .one params => some params.parallelSampleNum
  | .many [] => none
  | .many (params :: rest) =>
    if rest.all fun other => decide (params.parallelSampleNum = other.parallelSampleNum) then
      some params.parallelSampleNum
    else none

/-- The defaults of a single request. -/
def fillSingle (uuid : Nat → String) (obj : GenerateReqInput E I) : GenerateReqInput E I :=
  { obj with
    samplingParams := obj.samplingParams.orElse ⟨none, []⟩
    rid := obj.rid.orElse (uuid 0)
    returnLogprob := obj.returnLogprob.orElse false
    logprobStartLen := obj.logprobStartLen.orElse (-1)
    topLogprobsNum := obj.topLogprobsNum.orElse 0 }

/-- The rids of a batch. -/
def batchRids (uuid : Nat → String) (num : Nat) : Shaped String → Option (Shaped String)
  | .none => some (.many ((List.range num).map uuid))
  | .many rids => some (.many rids)
  | .one _ => none

/-- The defaults of a batch, with `n` samples of each request. -/
def fillBatch (uuid : Nat → String) (batchSize n : Nat) (obj : GenerateReqInput E I) :
    Option (GenerateReqInput E I) := do
  let num := if n = 1 then batchSize else batchSize * n
  let rid ← batchRids uuid num obj.rid
  if n ≠ 1 ∧ (obj.returnLogprob.isMany || obj.logprobStartLen.isMany ||
      obj.topLogprobsNum.isMany) then none
  else
    pure { obj with
      imageData := obj.imageData.fill none num
      samplingParams := obj.samplingParams.fill ⟨none, []⟩ num
      rid
      returnLogprob := obj.returnLogprob.fill false num
      logprobStartLen := obj.logprobStartLen.fill (-1) num
      topLogprobsNum := obj.topLogprobsNum.fill 0 num }

/-- One input with several samples is treated as a batch of one. -/
def asBatch (parallel : Bool) (obj : GenerateReqInput E I) : GenerateReqInput E I :=
  if parallel then { obj with text := obj.text.wrap, inputIds := obj.inputIds.wrap } else obj

/-- The defaults. -/
def fillDefaults (uuid : Nat → String) (isSingle : Bool) (batchSize n : Nat)
    (obj : GenerateReqInput E I) : Option (GenerateReqInput E I) :=
  if isSingle then some (obj.fillSingle uuid) else obj.fillBatch uuid batchSize n

/-- `normalize_batch_and_arguments`; `none` is an error, and `uuid i` the `i`-th rid that is
generated. -/
def normalizeBatchAndArguments (uuid : Nat → String) (obj : GenerateReqInput E I) :
    Option (NormalizedInput E I) :=
  if obj.hasInput then do
    let shape ← obj.batchShape
    let n ← obj.sampleNum
    let parallel := decide (1 < n) && shape.1
    let isSingle := shape.1 && !parallel
    let obj ← (obj.withoutSpareEmbeds.asBatch parallel).fillDefaults uuid isSingle shape.2 n
    pure ⟨obj, isSingle, shape.2, n⟩
  else none

/-- `modalities[i] if modalities else None`. -/
def modality? (modalities : Shaped String) (i : Nat) : Option (Option String) :=
  match modalities with
  | .none => some none
  | .one value => if value = "" then some none else (charAt value i).map some
  | .many values => if values = [] then some none else values[i]?.map some

/-- `lora_path[i] if lora_path is not None else None`. -/
def loraPath? (loraPath : Shaped (Option String)) (i : Nat) : Option (Option String) :=
  match loraPath with
  | .none | .one none => some none
  | .one (some path) => (charAt path i).map some
  | .many paths => paths[i]?

/-- `__getitem__`; `none` is an error. -/
def getItem (obj : GenerateReqInput E I) (i : Nat) : Option (SingleReqInput E I) := do
  let text ← obj.text.item? i
  let inputIds ← obj.inputIds.item? i
  let imageData ← obj.imageData.get? i
  let samplingParams ← obj.samplingParams.get? i
  let rid ← obj.rid.get? i
  let returnLogprob ← obj.returnLogprob.get? i
  let logprobStartLen ← obj.logprobStartLen.get? i
  let topLogprobsNum ← obj.topLogprobsNum.get? i
  let modalities ← modality? obj.modalities i
  let loraPath ← loraPath? obj.loraPath i
  pure {
    text, inputIds, imageData, samplingParams, rid, returnLogprob, logprobStartLen,
    topLogprobsNum, modalities, loraPath
    inputEmbeds := none
    returnTextInLogprobs := obj.returnTextInLogprobs
    stream := obj.stream
    session := none }

end GenerateReqInput

namespace Shaped

variable {α : Type} {field : Shaped α} {default value : α} {values : List α} {size num i : Nat}

/-- The `i`-th entry of a field, or its shared value. -/
def entry? (field : Shaped α) (i : Nat) : Option (Option α) :=
  match field with
  | .none => some Option.none
  | .one value => some (some value)
  | .many values => values[i]?.map some

/-- The same with a default for `None`. -/
def entryOr (default : α) (field : Shaped α) (i : Nat) : Option α :=
  match field with
  | .none => some default
  | .one value => some value
  | .many values => values[i]?

/-- A list has an entry for each request. -/
def Fits (field : Shaped α) (size : Nat) : Prop :=
  ∀ values, field = .many values → size ≤ values.length

theorem Fits.entry? (h : field.Fits size) (hi : i < size) : ∃ entry, field.entry? i = some entry := by
  cases field with
  | none => exact ⟨_, rfl⟩
  | one value => exact ⟨_, rfl⟩
  | many values =>
    have hlen := h values rfl
    exact ⟨some values[i], by rw [Shaped.entry?, List.getElem?_eq_getElem (by omega)]; rfl⟩

theorem Fits.entryOr (h : field.Fits size) (hi : i < size) (default : α) :
    ∃ entry, field.entryOr default i = some entry := by
  cases field with
  | none => exact ⟨_, rfl⟩
  | one value => exact ⟨_, rfl⟩
  | many values =>
    have hlen := h values rfl
    exact ⟨values[i], by rw [Shaped.entryOr, List.getElem?_eq_getElem (by omega)]⟩

/-- The entries of a filled field. -/
theorem fill_get? (field : Shaped α) (default : α) (hi : i < num) :
    (field.fill default num).get? i = field.entryOr default i := by
  cases field with
  | none => exact List.getElem?_replicate_of_lt hi
  | one value => exact List.getElem?_replicate_of_lt hi
  | many values => rfl

/-- An entry is `None` only where the field is. -/
theorem entry?_eq_none (field : Shaped α) (i : Nat) :
    field.entry? i = some Option.none ↔ field = .none := by
  cases field with
  | none => exact ⟨fun _ => rfl, fun _ => rfl⟩
  | one value => exact ⟨fun h => (nomatch h), fun h => (nomatch h)⟩
  | many values =>
    constructor
    · intro h
      obtain ⟨entry, _, hentry⟩ := Option.map_eq_some_iff.mp h
      exact nomatch hentry
    · intro h
      exact nomatch h

/-- The items of a field that is not one value. -/
theorem item?_eq_entry? (field : Shaped α) (i : Nat) (h : ∀ value, field ≠ .one value) :
    field.item? i = field.entry? i := by
  cases field with
  | none => rfl
  | one value => exact absurd rfl (h value)
  | many values => rfl

/-- A wrapped value is the only item. -/
theorem item?_wrap (field : Shaped α) (i : Nat) (h : ∀ value, field = .one value → i = 0) :
    field.wrap.item? i = field.entry? i := by
  cases field with
  | none => rfl
  | one value =>
    cases h value rfl
    rfl
  | many values => rfl

end Shaped

/-- Indexing a string gives the string itself only at the one character of a string of one. -/
theorem charAt_eq_self {value : String} {i : Nat} :
    charAt value i = some value ↔ i = 0 ∧ ∃ c, value = String.singleton c := by
  unfold charAt
  constructor
  · intro h
    obtain ⟨c, hc, rfl⟩ := Option.map_eq_some_iff.mp h
    obtain ⟨hlt, _⟩ := List.getElem?_eq_some_iff.mp hc
    rw [String.toList_singleton, List.length_singleton] at hlt
    exact ⟨by omega, c, rfl⟩
  · rintro ⟨rfl, c, rfl⟩
    rw [String.toList_singleton]
    rfl

/-- A string that a batch of `size` requests shares and that is its own character at each. -/
def SingleChar (size : Nat) (value : String) : Prop :=
  size = 1 ∧ ∃ c, value = String.singleton c

theorem charAt_eq_self_forall {value : String} {size : Nat} (hsize : 0 < size) :
    (∀ i < size, charAt value i = some value) ↔ SingleChar size value := by
  constructor
  · intro h
    obtain ⟨hlast, hchar⟩ := charAt_eq_self.mp (h (size - 1) (by omega))
    exact ⟨by omega, hchar⟩
  · intro h i hi
    obtain ⟨hone, hchar⟩ := h
    exact charAt_eq_self.mpr ⟨by omega, hchar⟩

namespace GenerateReqInput

variable {E I : Type}

/-- The request of the `i`-th entries of the fields and of the shared values, with the defaults
of a single request. -/
def single (uuid : Nat → String) (obj : GenerateReqInput E I) (i : Nat) :
    Option (SingleReqInput E I) := do
  let text ← obj.text.entry? i
  let inputIds ← obj.inputIds.entry? i
  let inputEmbeds ← obj.inputEmbeds.entry? i
  let imageData ← obj.imageData.entryOr none i
  let samplingParams ← obj.samplingParams.entryOr ⟨none, []⟩ i
  let rid ← obj.rid.entryOr (uuid i) i
  let returnLogprob ← obj.returnLogprob.entryOr false i
  let logprobStartLen ← obj.logprobStartLen.entryOr (-1) i
  let topLogprobsNum ← obj.topLogprobsNum.entryOr 0 i
  let modalities ← obj.modalities.entry? i
  let loraPath ← obj.loraPath.entryOr none i
  let session ← obj.session.entry? i
  pure {
    text, inputIds, inputEmbeds, imageData, samplingParams, rid, returnLogprob, logprobStartLen,
    topLogprobsNum, modalities, loraPath, session
    returnTextInLogprobs := obj.returnTextInLogprobs
    stream := obj.stream }

/-- One kind of input is given. -/
def OneKind (obj : GenerateReqInput E I) : Prop :=
  (obj.text.given && obj.inputIds.given) = false ∧
    (obj.text.given && obj.inputEmbeds.given) = false ∧
    (obj.inputIds.given && obj.inputEmbeds.given) = false

/-- Every list of the optional fields has an entry for each request. -/
structure PerRequest (obj : GenerateReqInput E I) (size : Nat) : Prop where
  imageData : obj.imageData.Fits size
  samplingParams : obj.samplingParams.Fits size
  rid : obj.rid.Fits size
  returnLogprob : obj.returnLogprob.Fits size
  logprobStartLen : obj.logprobStartLen.Fits size
  topLogprobsNum : obj.topLogprobsNum.Fits size
  modalities : obj.modalities.Fits size
  loraPath : obj.loraPath.Fits size
  session : obj.session.Fits size

end GenerateReqInput

end FastPP
