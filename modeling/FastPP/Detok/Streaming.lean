import FastPP.Detok.StatusEviction
import FastPP.Lib.Utf8
import Mathlib.Logic.Function.Basic

namespace FastPP

/-- The fields of a request that `stream_output` sends to the detokenizer. -/
structure StreamReq where
  rid : Nat
  vid : Nat
  originInputIdsUnpadded : List Nat
  outputIds : List Nat
  surrOffset : Option Nat
  readOffset : Option Nat
  decodedText : Text
  finishedReason : Option FinishReason
  skipSpecialTokens : Bool
  spacesBetweenSpecialTokens : Bool
  noStopTrim : Bool
  deriving DecidableEq

/-- `INIT_INCREMENTAL_DETOKENIZATION_OFFSET`. -/
def initIncrementalDetokenizationOffset : Nat := 5

/-- `Req.init_incremental_detokenize`: the request with its offsets, the ids from
`surr_offset` on and the read offset among them. -/
def StreamReq.initIncrementalDetokenize (req : StreamReq) : StreamReq × List Nat × Nat :=
  let offsets := match req.surrOffset, req.readOffset with
    | some surrOffset, some readOffset => (surrOffset, readOffset)
    | _, _ => (req.originInputIdsUnpadded.length - initIncrementalDetokenizationOffset,
        req.originInputIdsUnpadded.length)
  ({ req with surrOffset := some offsets.1, readOffset := some offsets.2 },
    (req.originInputIdsUnpadded ++ req.outputIds).drop offsets.1, offsets.2 - offsets.1)

/-- One turn of the loop of `stream_output` on a request that it sends. -/
def StreamReq.streamOutput (req : StreamReq) : StreamReq × TokenIDOut :=
  let (req, decodeIds, readOffset) := req.initIncrementalDetokenize
  (req, {
    rid := req.rid
    vid := req.vid
    decodedText := req.decodedText
    decodeIds := decodeIds
    readOffset := readOffset
    finishedReason := req.finishedReason
    skipSpecialTokens := req.skipSpecialTokens
    spacesBetweenSpecialTokens := req.spacesBetweenSpecialTokens
    noStopTrim := req.noStopTrim })

/-- The offsets are those of the first call, so that later calls give what a first call
would. -/
theorem streamOutput_again (req : StreamReq) (outputIds : List Nat)
    (finishedReason : Option FinishReason)
    (h : req.surrOffset = none ∨ req.readOffset = none) :
    ({ req.streamOutput.1 with
      outputIds := outputIds, finishedReason := finishedReason }).streamOutput =
    ({ req with outputIds := outputIds, finishedReason := finishedReason }).streamOutput := by
  obtain ⟨rid, vid, origin, out, surr, read, text, reason, skip, spaces, trim⟩ := req
  rcases h with h | h
  · cases h
    rfl
  · cases h
    cases surr <;> rfl

/-- A tokenizer whose `decode` joins the bytes of the ids and reads them as UTF-8. -/
def byteDecoder (bytes : Nat → List UInt8) : Decoder := fun _ _ ids =>
  Utf8.decoder.decode (ids.flatMap bytes)

/-- The ids of `decode_ids` before those of the output. -/
def StreamReq.surrounding (req : StreamReq) : List Nat :=
  req.originInputIdsUnpadded.drop
    (req.originInputIdsUnpadded.length - initIncrementalDetokenizationOffset)

/-- A request as it arrives: nothing is decoded, and its prompt and the start of its
surrounding ids fall on character boundaries. -/
structure StreamReq.Arrived (bytes : Nat → List UInt8) (req : StreamReq) : Prop where
  noText : req.decodedText = []
  noOffset : req.surrOffset = none
  promptWhole : Utf8.decoder.Whole (req.originInputIdsUnpadded.flatMap bytes)
  startWhole : Utf8.decoder.Whole ((req.originInputIdsUnpadded.take
    (req.originInputIdsUnpadded.length - initIncrementalDetokenizationOffset)).flatMap bytes)

/-- A request's part in a message: which request, its output so far, and why it
finished, if it did. -/
structure Sent where
  req : Nat
  outputIds : List Nat
  finishedReason : Option FinishReason
  deriving DecidableEq

variable {reqs : Nat → StreamReq} {bytes : Nat → List UInt8}

/-- What `stream_output` sends of it. -/
def Sent.out (reqs : Nat → StreamReq) (sent : Sent) : TokenIDOut :=
  ({ reqs sent.req with
    outputIds := sent.outputIds
    finishedReason := sent.finishedReason }).streamOutput.2

/-- The output ids that are to be shown: without the last one when a stop token was
matched and is to be trimmed. -/
def Sent.shownIds (reqs : Nat → StreamReq) (sent : Sent) : List Nat :=
  match sent.finishedReason with
  | some (.matchedToken _) =>
    if (reqs sent.req).noStopTrim then sent.outputIds else sent.outputIds.dropLast
  | _ => sent.outputIds

/-- The text agrees with the full decoding of the output: a streamed text is a prefix of
it, a final one is all of it. A final text cut at a stop string is left out. -/
def Sent.Faithful (reqs : Nat → StreamReq) (bytes : Nat → List UInt8) (sent : Sent)
    (text : Text) : Prop :=
  match sent.finishedReason with
  | none => text <+: Utf8.decoder.decode (sent.outputIds.flatMap bytes)
  | some (.matchedStr _) => True
  | some _ => text = Utf8.decoder.decode ((sent.shownIds reqs).flatMap bytes)

/-- The streams so far: the output last sent for each request, and the request that last
used each rid. -/
structure Streams where
  last : Nat → List Nat
  sender : Nat → Option Nat

def Streams.start : Streams := ⟨fun _ => [], fun _ => none⟩

def Streams.after (reqs : Nat → StreamReq) (g : Streams) : List Sent → Streams
  | [] => g
  | sent :: rest => Streams.after reqs
      ⟨Function.update g.last sent.req sent.outputIds,
        Function.update g.sender (reqs sent.req).rid (some sent.req)⟩ rest

/-- Each part sent carries more of its request's output than the one before. -/
def Streams.Extends (g : Streams) (sent : Sent) : Prop :=
  g.last sent.req <+: sent.outputIds ∧ (g.last sent.req).length < sent.outputIds.length

/-- The messages of a scheduler: none is empty, and the output of a request grows from
each of them to the next. -/
def WellSent (reqs : Nat → StreamReq) : Streams → List (List Sent) → Prop
  | _, [] => True
  | g, recv :: rest =>
    recv ≠ [] ∧ (∀ sent ∈ recv, g.Extends sent) ∧ WellSent reqs (g.after reqs recv) rest

/-- What the event loop needs of a message: no two of its parts share a rid, no entry it
looked up is dropped, an entry found under a rid was left by the same request, and no
stop token to be trimmed has the id zero. -/
structure Undisturbed (reqs : Nat → StreamReq) (d : DecodeStatuses) (g : Streams)
    (recv : List Sent) : Prop where
  ridsDistinct : (recv.map fun sent => (reqs sent.req).rid).Nodup
  spares : d.Spares [] (recv.map (Sent.out reqs))
  ownEntries : ∀ sent ∈ recv, ∀ s, d.found (sent.out reqs) = some s →
    g.sender (reqs sent.req).rid = some sent.req
  noZeroStop : ∀ sent ∈ recv, sent.finishedReason = some (.matchedToken 0) →
    (reqs sent.req).noStopTrim = true

/-- Every message that the event loop gets to is undisturbed. -/
def AllUndisturbed (reqs : Nat → StreamReq) (decode : Decoder) :
    DecodeStatuses → Streams → List (List Sent) → Prop
  | _, _, [] => True
  | d, g, recv :: rest => Undisturbed reqs d g recv ∧
      ∀ d' texts, detokenize decode d (recv.map (Sent.out reqs)) = .ok (d', texts) →
        AllUndisturbed reqs decode d' (g.after reqs recv) rest

end FastPP
