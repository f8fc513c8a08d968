import FastPP.Batch
import Mathlib.Data.List.Nodup
import Mathlib.Data.List.Perm.Basic
import Mathlib.Data.List.DropRight

namespace FastPP

variable {K V : Type} [DecidableEq K]

/-- The ordered dictionary of the detokenizer: the oldest entry comes first. -/
structure LimitedCapacityDict (K V : Type) where
  items : List (K × V)
  capacity : Nat
  distinct : (items.map Prod.fst).Nodup
  positive : 0 < capacity

namespace LimitedCapacityDict

/-- `OrderedDict.__contains__` and `__getitem__` in one. -/
def get? (d : LimitedCapacityDict K V) (key : K) : Option V :=
  (d.items.find? fun item => item.1 = key).map Prod.snd

/-- The rids of the dictionary, oldest first. -/
def keys (d : LimitedCapacityDict K V) : List K := d.items.map Prod.fst

/-- `__setitem__` of `OrderedDict`: a key that is present keeps its place. -/
def assign (items : List (K × V)) (key : K) (value : V) : List (K × V) :=
  if key ∈ items.map Prod.fst then
    items.map fun item => if item.1 = key then (key, value) else item
  else items ++ [(key, value)]

/-- The items that `popitem(last=False)` leaves when the dictionary is full. -/
def makeRoom (d : LimitedCapacityDict K V) : List (K × V) :=
  if d.capacity ≤ d.items.length then d.items.tail else d.items

theorem replaced_keys (items : List (K × V)) (key : K) (value : V) :
    (items.map fun item => if item.1 = key then (key, value) else item).map Prod.fst
      = items.map Prod.fst := by
  induction items with
  | nil => rfl
  | cons item items ih =>
    by_cases h : item.1 = key
    · simp [h, ih]
    · simp [h, ih]

theorem assign_keys (items : List (K × V)) (key : K) (value : V) :
    (assign items key value).map Prod.fst =
      if key ∈ items.map Prod.fst then items.map Prod.fst else items.map Prod.fst ++ [key] := by
  unfold assign
  split
  next => exact replaced_keys items key value
  next => simp

theorem assign_distinct {items : List (K × V)} (h : (items.map Prod.fst).Nodup) (key : K)
    (value : V) : ((assign items key value).map Prod.fst).Nodup := by
  rw [assign_keys]
  split
  next => exact h
  next hkey => simpa [List.nodup_append] using ⟨h, fun a v ha e => hkey (by
      subst e
      exact List.mem_map_of_mem (f := Prod.fst) ha)⟩

omit [DecidableEq K] in
theorem makeRoom_sublist (d : LimitedCapacityDict K V) : d.makeRoom.Sublist d.items := by
  unfold makeRoom
  split
  next => exact List.tail_sublist d.items
  next => exact List.Sublist.refl d.items

omit [DecidableEq K] in
theorem makeRoom_distinct (d : LimitedCapacityDict K V) :
    (d.makeRoom.map Prod.fst).Nodup :=
  d.distinct.sublist (d.makeRoom_sublist.map Prod.fst)

/-- `LimitedCapacityDict.__setitem__`: a full dictionary drops its oldest
element first, whether or not `key` is present. -/
def setItem (d : LimitedCapacityDict K V) (key : K) (value : V) : LimitedCapacityDict K V where
  items := assign d.makeRoom key value
  capacity := d.capacity
  distinct := assign_distinct d.makeRoom_distinct key value
  positive := d.positive

/-- The change of an entry through a reference to its value. -/
def mutate (d : LimitedCapacityDict K V) (key : K) (value : V) : LimitedCapacityDict K V where
  items := d.items.map fun item => if item.1 = key then (key, value) else item
  capacity := d.capacity
  distinct := by rw [replaced_keys]; exact d.distinct
  positive := d.positive

/-- The empty dictionary. -/
def empty (K V : Type) (capacity : Nat) (positive : 0 < capacity) : LimitedCapacityDict K V where
  items := []
  capacity := capacity
  distinct := List.nodup_nil
  positive := positive

/-- The key `__setitem__` drops, if the dictionary is full. -/
def evicted? (d : LimitedCapacityDict K V) : Option K :=
  if d.capacity ≤ d.items.length then d.keys.head? else none

theorem mem_keys {d : LimitedCapacityDict K V} {key : K} :
    key ∈ d.keys ↔ (d.get? key).isSome := by
  simp [keys, get?, List.find?_isSome]

theorem get?_eq_some_iff {d : LimitedCapacityDict K V} {key : K} {value : V} :
    d.get? key = some value ↔ (key, value) ∈ d.items := by
  obtain ⟨items, capacity, distinct, positive⟩ := d
  induction items with
  | nil => simp [get?]
  | cons item items ih =>
    obtain ⟨k, v⟩ := item
    have hk : k ∉ items.map Prod.fst := (List.nodup_cons.mp distinct).1
    have ih' := ih (List.nodup_cons.mp distinct).2
    by_cases h : k = key
    · subst h
      have hout : (k, value) ∉ items := fun hm => hk (List.mem_map_of_mem (f := Prod.fst) hm)
      simp [get?, hout, eq_comm]
    · have hne : (key, value) ≠ (k, v) := fun e => h (Prod.mk.inj e).1.symm
      simpa [get?, h, hne] using ih'

theorem mem_replaced {items : List (K × V)} {key other : K} {value v : V} (h : other ≠ key) :
    (other, v) ∈ (items.map fun item => if item.1 = key then (key, value) else item) ↔
      (other, v) ∈ items := by
  induction items with
  | nil => simp
  | cons item items ih =>
    by_cases hk : item.1 = key
    · have h1 : (other, v) ≠ (key, value) := fun e => h (Prod.mk.inj e).1
      have h2 : (other, v) ≠ item := fun e => h (by rw [← hk, ← e])
      simp [hk, h1, h2, ih]
    · simp [hk, ih]

theorem replaced_mem {items : List (K × V)} {key : K} {value : V}
    (h : key ∈ items.map Prod.fst) :
    (key, value) ∈ items.map fun item => if item.1 = key then (key, value) else item := by
  obtain ⟨item, hitem, hkey⟩ := List.mem_map.mp h
  exact List.mem_map.mpr ⟨item, hitem, by simp [hkey]⟩

omit [DecidableEq K] in
theorem mem_makeRoom {d : LimitedCapacityDict K V} {key : K} {value : V} :
    (key, value) ∈ d.makeRoom ↔ (key, value) ∈ d.items ∧ d.evicted? ≠ some key := by
  obtain ⟨items, capacity, distinct, positive⟩ := d
  unfold makeRoom evicted?
  by_cases hfull : capacity ≤ items.length
  · cases items with
    | nil => simp
    | cons item items =>
      have hnot : item.1 ∉ items.map Prod.fst := (List.nodup_cons.mp distinct).1
      simp only [hfull, if_true, List.tail_cons, keys, List.map_cons, List.head?_cons, ne_eq,
        Option.some.injEq, List.mem_cons]
      constructor
      · intro hm
        exact ⟨.inr hm, fun e => hnot (e ▸ List.mem_map_of_mem (f := Prod.fst) hm)⟩
      · rintro ⟨e | hm, hne⟩
        · exact absurd (by rw [← e]) hne
        · exact hm
  · simp [hfull]

@[simp] theorem get?_setItem_self (d : LimitedCapacityDict K V) (key : K) (value : V) :
    (d.setItem key value).get? key = some value := by
  rw [get?_eq_some_iff]
  change (key, value) ∈ assign d.makeRoom key value
  unfold assign
  split
  next h => exact replaced_mem h
  next => simp

/-- An assignment keeps the other entries except the one it evicts. -/
theorem get?_setItem_other {d : LimitedCapacityDict K V} {key other : K} {value v : V}
    (h : other ≠ key) :
    (d.setItem key value).get? other = some v ↔
      d.get? other = some v ∧ d.evicted? ≠ some other := by
  rw [get?_eq_some_iff, get?_eq_some_iff, ← mem_makeRoom]
  change (other, v) ∈ assign d.makeRoom key value ↔ _
  unfold assign
  split
  next => exact mem_replaced h
  next =>
    have hne : (other, v) ≠ (key, value) := fun e => h (Prod.mk.inj e).1
    simp [hne]

theorem get?_mutate_self {d : LimitedCapacityDict K V} {key : K} (value : V)
    (h : key ∈ d.keys) : (d.mutate key value).get? key = some value :=
  get?_eq_some_iff.mpr (replaced_mem h)

theorem get?_mutate_other {d : LimitedCapacityDict K V} {key other : K} {value v : V}
    (h : other ≠ key) :
    (d.mutate key value).get? other = some v ↔ d.get? other = some v := by
  rw [get?_eq_some_iff, get?_eq_some_iff]
  exact mem_replaced h

@[simp] theorem keys_mutate (d : LimitedCapacityDict K V) (key : K) (value : V) :
    (d.mutate key value).keys = d.keys := replaced_keys d.items key value

@[simp] theorem evicted?_mutate (d : LimitedCapacityDict K V) (key : K) (value : V) :
    (d.mutate key value).evicted? = d.evicted? := by
  have hlen : (d.mutate key value).items.length = d.items.length := by simp [mutate]
  unfold evicted?
  rw [keys_mutate, hlen]
  rfl

theorem mem_keys_setItem_self (d : LimitedCapacityDict K V) (key : K) (value : V) :
    key ∈ (d.setItem key value).keys := by
  simp [mem_keys]

theorem mem_keys_setItem {d : LimitedCapacityDict K V} {key other : K} {value : V}
    (h : other ≠ key) :
    other ∈ (d.setItem key value).keys ↔ other ∈ d.keys ∧ d.evicted? ≠ some other := by
  simp only [mem_keys, Option.isSome_iff_exists]
  constructor
  · rintro ⟨v, hv⟩
    have hv' := (get?_setItem_other h).mp hv
    exact ⟨⟨v, hv'.1⟩, hv'.2⟩
  · rintro ⟨⟨v, hv⟩, hne⟩
    exact ⟨v, (get?_setItem_other h).mpr ⟨hv, hne⟩⟩

end LimitedCapacityDict

end FastPP

namespace FastPP

/-- A Python string, as its code points. -/
abbrev Text := List Char

/-- The replacement character U+FFFD. -/
def replacement : Char := Char.ofNat 0xFFFD

/-- `_is_chinese_char`. -/
def isChineseChar (c : Char) : Bool :=
  let cp := c.toNat
  (0x4E00 ≤ cp && cp ≤ 0x9FFF) || (0x3400 ≤ cp && cp ≤ 0x4DBF) ||
    (0x20000 ≤ cp && cp ≤ 0x2A6DF) || (0x2A700 ≤ cp && cp ≤ 0x2B73F) ||
    (0x2B740 ≤ cp && cp ≤ 0x2B81F) || (0x2B820 ≤ cp && cp ≤ 0x2CEAF) ||
    (0xF900 ≤ cp && cp ≤ 0xFAFF) || (0x2F800 ≤ cp && cp ≤ 0x2FA1F)

/-- `find_printable_text`. -/
def findPrintableText (text : Text) : Text :=
  if text.getLast? = some '\n' then text
  else if text.getLast?.any isChineseChar then text
  else if text.dropLast.getLast?.any isChineseChar then text.dropLast
  else text.rdropWhile fun c => c ≠ ' '

/-- The exceptions that can leave `event_loop`. -/
inductive DetokError
  | keyError
  | assertionError
  | indexError
  deriving DecidableEq

/-- `str.find`. -/
def Text.find? (text pattern : Text) : Option Nat :=
  text.tails.findIdx? fun tail => pattern.isPrefixOf tail

/-- `trim_matched_stop` on a list of ids. A matched id that is falsy counts as
no match, as in the source. -/
def trimMatchedStopIds (output : List Nat) (finishedReason : Option FinishReason)
    (noStopTrim : Bool) : Except DetokError (List Nat) :=
  if noStopTrim then .ok output
  else match finishedReason with
    | some (.matchedToken matched) =>
      if matched = 0 then .ok output
      else if output = [] then .error .assertionError
      else .ok output.dropLast
    | _ => .ok output

/-- `trim_matched_stop` on a string. -/
def trimMatchedStopText (output : Text) (finishedReason : Option FinishReason)
    (noStopTrim : Bool) : Text :=
  if noStopTrim then output
  else match finishedReason with
    | some (.matchedStr matched) =>
      if matched.toList = [] then output
      else match Text.find? output matched.toList with
        | some pos => output.take pos
        | none => output
    | _ => output

/-- The fields of one request in a `BatchTokenIDOut` that `event_loop` reads. -/
structure TokenIDOut where
  rid : Nat
  vid : Nat
  decodedText : Text
  decodeIds : List Nat
  readOffset : Nat
  finishedReason : Option FinishReason
  skipSpecialTokens : Bool
  spacesBetweenSpecialTokens : Bool
  noStopTrim : Bool
  deriving DecidableEq

/-- `DecodeStatus`. -/
structure DecodeStatus where
  vid : Nat
  decodedText : Text
  decodeIds : List Nat
  surrOffset : Nat
  readOffset : Nat
  deriving DecidableEq

abbrev DecodeStatuses := LimitedCapacityDict Nat DecodeStatus

/-- The status made for an output whose rid is not registered. -/
def TokenIDOut.status (out : TokenIDOut) : DecodeStatus where
  vid := out.vid
  decodedText := out.decodedText
  decodeIds := out.decodeIds
  surrOffset := 0
  readOffset := out.readOffset

/-- The registered status that an output finds under its rid and version. -/
def DecodeStatuses.found (d : DecodeStatuses) (out : TokenIDOut) : Option DecodeStatus :=
  (d.get? out.rid).filter fun s => s.vid = out.vid

/-- One turn of the loop that initializes the decode statuses. -/
def DecodeStatuses.initStatus (d : DecodeStatuses) (out : TokenIDOut) :
    DecodeStatuses × DecodeStatus :=
  match d.found out with
  | some s =>
    let s := { s with decodeIds := out.decodeIds }
    (d.mutate out.rid s, s)
  | none => (d.setItem out.rid out.status, out.status)

/-- `s.decode_ids[s.surr_offset :]`. -/
def DecodeStatus.readIds (s : DecodeStatus) : List Nat := s.decodeIds.drop s.surrOffset

/-- `s.decode_ids[s.surr_offset : s.read_offset]`. -/
def DecodeStatus.surrIds (s : DecodeStatus) : List Nat :=
  (s.decodeIds.take s.readOffset).drop s.surrOffset

/-- The first loop of `event_loop`: the statuses, and the surrounding and the read
ids of each request. -/
def initStatuses : DecodeStatuses → List TokenIDOut →
    Except DetokError (DecodeStatuses × List (List Nat × List Nat))
  | d, [] => .ok (d, [])
  | d, out :: rest => do
    let (d, s) := d.initStatus out
    let readIds ← trimMatchedStopIds s.readIds out.finishedReason out.noStopTrim
    let (d, ids) ← initStatuses d rest
    .ok (d, (s.surrIds, readIds) :: ids)

/-- The update of a status by the text it gained: the new status and the text shown
after `decoded_text`. -/
def DecodeStatus.advance (s : DecodeStatus) (finishedReason : Option FinishReason)
    (newText : Text) : DecodeStatus × Text :=
  if finishedReason = none then
    if 0 < newText.length ∧ newText.getLast? ≠ some replacement then
      ({ s with
          decodedText := s.decodedText ++ newText
          surrOffset := s.readOffset
          readOffset := s.decodeIds.length }, [])
    else (s, findPrintableText newText)
  else (s, newText)

/-- The second loop of `event_loop`, over each request's surrounding and read text. -/
def incrementalDecode : DecodeStatuses → List (TokenIDOut × Text × Text) →
    Except DetokError (DecodeStatuses × List Text)
  | d, [] => .ok (d, [])
  | d, (out, surrText, readText) :: rest =>
    match d.get? out.rid with
    | none => .error .keyError
    | some s => do
      let (s, newText) := s.advance out.finishedReason (readText.drop surrText.length)
      let outputStr := trimMatchedStopText (s.decodedText ++ newText) out.finishedReason
        out.noStopTrim
      let (d, outputStrs) ← incrementalDecode (d.mutate out.rid s) rest
      .ok (d, outputStr :: outputStrs)

/-- The tokenizer's `decode`, under `skip_special_tokens` and
`spaces_between_special_tokens`. -/
abbrev Decoder := Bool → Bool → List Nat → Text

/-- `DetokenizerManager.event_loop` on one `BatchTokenIDOut`: the new statuses and
the `output_strs`. -/
def detokenize (decode : Decoder) (d : DecodeStatuses) (recv : List TokenIDOut) :
    Except DetokError (DecodeStatuses × List Text) := do
  let (d, ids) ← initStatuses d recv
  match recv.head? with
  | none => .error .indexError
  | some first =>
    let batchDecode := decode first.skipSpecialTokens first.spacesBetweenSpecialTokens
    incrementalDecode d
      (recv.zip (ids.map fun (surrIds, readIds) => (batchDecode surrIds, batchDecode readIds)))

/-- `event_loop` over the messages it receives. -/
def eventLoop (decode : Decoder) : DecodeStatuses → List (List TokenIDOut) →
    Except DetokError (DecodeStatuses × List (List Text))
  | d, [] => .ok (d, [])
  | d, recv :: rest => do
    let (d, outputStrs) ← detokenize decode d recv
    let (d, outputs) ← eventLoop decode d rest
    .ok (d, outputStrs :: outputs)

/-- `DetokenizerManager.decode_status` when the process starts. -/
def DecodeStatuses.init : DecodeStatuses :=
  LimitedCapacityDict.empty Nat DecodeStatus (1 <<< 15) (by decide)

end FastPP
