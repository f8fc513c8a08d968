import FastPP.Detok.Streaming

namespace FastPP

variable {reqs : Nat → StreamReq} {bytes : Nat → List UInt8} {req : StreamReq}
  {o o' : List Nat} {s : DecodeStatus} {sent : Sent} {k : Nat}

/-- The full decoding of a list of ids. -/
def decodeIds (bytes : Nat → List UInt8) (ids : List Nat) : Text :=
  Utf8.decoder.decode (ids.flatMap bytes)

/-- The ids end at a character boundary. -/
def WholeIds (bytes : Nat → List UInt8) (ids : List Nat) : Prop :=
  Utf8.decoder.Whole (ids.flatMap bytes)

theorem WholeIds.decode_append {ids more : List Nat} (h : WholeIds bytes ids) :
    decodeIds bytes (ids ++ more) = decodeIds bytes ids ++ decodeIds bytes more := by
  unfold decodeIds
  rw [List.flatMap_append]
  exact LossyDecoder.Whole.decode_append h _

theorem WholeIds.append {ids more : List Nat} (h : WholeIds bytes ids)
    (hmore : WholeIds bytes more) : WholeIds bytes (ids ++ more) := by
  unfold WholeIds
  rw [List.flatMap_append]
  exact LossyDecoder.Whole.append h hmore

theorem wholeIds_of_getLast? {ids : List Nat}
    (h : (decodeIds bytes ids).getLast? ≠ some replacement) : WholeIds bytes ids :=
  LossyDecoder.whole_of_getLast? h

/-- A status has decoded the first `k` output ids of its request and knows `o`. -/
structure Tracks (bytes : Nat → List UInt8) (req : StreamReq) (o : List Nat) (k : Nat)
    (s : DecodeStatus) : Prop where
  vid : s.vid = req.vid
  ids : s.decodeIds = req.surrounding ++ o
  shown : k ≤ o.length
  read : s.readOffset = req.surrounding.length + k
  surrLe : s.surrOffset ≤ s.readOffset
  surrWhole : WholeIds bytes s.surrIds
  textWhole : WholeIds bytes (o.take k)
  text : s.decodedText = decodeIds bytes (o.take k)

theorem Tracks.readIds_eq (h : Tracks bytes req o k s) :
    s.readIds = s.surrIds ++ o.drop k := by
  have hle : s.surrOffset ≤ (req.surrounding ++ o.take k).length := by
    have hshown := h.shown
    have hsurr := h.surrLe
    rw [h.read] at hsurr
    simp only [List.length_append, List.length_take]
    omega
  have htake : s.decodeIds.take s.readOffset = req.surrounding ++ o.take k := by
    rw [h.ids, h.read, List.take_append]
    simp
  unfold DecodeStatus.readIds DecodeStatus.surrIds
  rw [htake, ← List.drop_append_of_le_length hle, List.append_assoc, List.take_append_drop, h.ids]

/-- A longer output leaves what is decoded as it is. -/
theorem Tracks.extend (h : Tracks bytes req o k s) (hpre : o <+: o') :
    Tracks bytes req o' k { s with decodeIds := req.surrounding ++ o' } := by
  obtain ⟨more, rfl⟩ := hpre
  have htake : (o ++ more).take k = o.take k := List.take_append_of_le_length h.shown
  have hsurr : ({ s with decodeIds := req.surrounding ++ (o ++ more) } : DecodeStatus).surrIds =
      s.surrIds := by
    have hle : req.surrounding.length + k ≤ (req.surrounding ++ o).length := by
      have hshown := h.shown
      simp only [List.length_append]
      omega
    unfold DecodeStatus.surrIds
    rw [h.ids, h.read, ← List.append_assoc, List.take_append_of_le_length hle]
  refine ⟨h.vid, rfl, ?_, h.read, h.surrLe, ?_, ?_, ?_⟩
  · have hshown := h.shown
    simp only [List.length_append]
    omega
  · rw [hsurr]
    exact h.surrWhole
  · rw [htake]
    exact h.textWhole
  · rw [htake]
    exact h.text

theorem surrounding_whole (h : req.Arrived bytes) : WholeIds bytes req.surrounding := by
  apply LossyDecoder.Whole.remainder h.startWhole
  rw [← List.flatMap_append]
  unfold StreamReq.surrounding
  rw [List.take_append_drop]
  exact h.promptWhole

theorem out_decodeIds (h : (reqs sent.req).surrOffset = none) :
    (sent.out reqs).decodeIds = (reqs sent.req).surrounding ++ sent.outputIds := by
  unfold Sent.out StreamReq.streamOutput StreamReq.initIncrementalDetokenize
    StreamReq.surrounding
  simp only [h]
  exact List.drop_append_of_le_length (by omega)

theorem out_readOffset (h : (reqs sent.req).surrOffset = none) :
    (sent.out reqs).readOffset = (reqs sent.req).surrounding.length := by
  unfold Sent.out StreamReq.streamOutput StreamReq.initIncrementalDetokenize
    StreamReq.surrounding
  simp [h]

/-- The status made for a request whose rid is not registered. -/
theorem status_tracks (h : (reqs sent.req).Arrived bytes) :
    Tracks bytes (reqs sent.req) sent.outputIds 0 (sent.out reqs).status := by
  have hids := out_decodeIds h.noOffset
  have hread := out_readOffset h.noOffset
  refine ⟨rfl, hids, Nat.zero_le _, hread, Nat.zero_le _, ?_, LossyDecoder.Whole.nil, h.noText⟩
  unfold DecodeStatus.surrIds
  rw [show (sent.out reqs).status.decodeIds = _ from hids,
    show (sent.out reqs).status.readOffset = _ from hread,
    show (sent.out reqs).status.surrOffset = 0 from rfl, List.take_left, List.drop_zero]
  exact surrounding_whole h

/-- The text that follows what a status has decoded. -/
theorem Tracks.newText (h : Tracks bytes req o k s) (more : List Nat) :
    (decodeIds bytes (s.surrIds ++ more)).drop (decodeIds bytes s.surrIds).length =
      decodeIds bytes more := by
  rw [h.surrWhole.decode_append, List.drop_left]

/-- The text that is decoded and the text that follows it make up the whole. -/
theorem Tracks.text_append (h : Tracks bytes req o k s) (more : List Nat) :
    s.decodedText ++ decodeIds bytes more = decodeIds bytes (o.take k ++ more) := by
  rw [h.text, h.textWhole.decode_append]

theorem findPrintableText_prefix (text : Text) : findPrintableText text <+: text := by
  unfold findPrintableText
  split
  next => exact List.prefix_rfl
  next =>
    split
    next => exact List.prefix_rfl
    next =>
      split
      next => exact List.dropLast_prefix text
      next => exact List.rdropWhile_prefix _ text

/-- The ids that the final text of a request adds to those decoded. -/
theorem trimmed_readIds (h : Tracks bytes (reqs sent.req) sent.outputIds k s)
    (hmore : k < sent.outputIds.length)
    (hzero : sent.finishedReason = some (.matchedToken 0) → (reqs sent.req).noStopTrim = true) :
    trimMatchedStopIds s.readIds sent.finishedReason (reqs sent.req).noStopTrim =
      .ok (s.surrIds ++ (sent.shownIds reqs).drop k) := by
  have hne : sent.outputIds.drop k ≠ [] := by
    intro he
    have hlen := congrArg List.length he
    simp only [List.length_drop, List.length_nil] at hlen
    omega
  rw [h.readIds_eq]
  unfold trimMatchedStopIds Sent.shownIds
  cases htrim : (reqs sent.req).noStopTrim with
  | true =>
    simp only [if_true]
    split <;> rfl
  | false =>
    simp only [Bool.false_eq_true, if_false]
    cases hreason : sent.finishedReason with
    | none => rfl
    | some reason =>
      cases reason with
      | matchedToken matched =>
        have hmatched : matched ≠ 0 := by
          intro he
          subst he
          simp [htrim] at hzero
          exact hzero hreason
        simp only [hmatched, if_false, List.append_eq_nil_iff, hne, and_false]
        rw [List.dropLast_append_of_ne_nil hne, List.dropLast_drop_eq_drop_dropLast]
      | matchedStr _ => rfl
      | length _ => rfl
      | abort _ => rfl

theorem shownIds_split (reqs : Nat → StreamReq) (hmore : k < sent.outputIds.length) :
    sent.outputIds.take k ++ (sent.shownIds reqs).drop k = sent.shownIds reqs := by
  have hcut : sent.outputIds.dropLast.take k = sent.outputIds.take k := by
    rw [List.dropLast_eq_take, List.take_take]
    congr 1
    omega
  have htake : (sent.shownIds reqs).take k = sent.outputIds.take k := by
    unfold Sent.shownIds
    split
    next =>
      split
      next => rfl
      next => exact hcut
    next => rfl
  rw [← htake, List.take_append_drop]

/-- A text that does not end inside a character is committed. -/
theorem Tracks.commit (h : Tracks bytes req o k s)
    (hlast : (decodeIds bytes (o.drop k)).getLast? ≠ some replacement) :
    Tracks bytes req o o.length { s with
      decodedText := s.decodedText ++ decodeIds bytes (o.drop k)
      surrOffset := s.readOffset
      readOffset := s.decodeIds.length } := by
  have hwhole := wholeIds_of_getLast? hlast
  have hlen : s.decodeIds.length = req.surrounding.length + o.length := by
    rw [h.ids, List.length_append]
  refine ⟨h.vid, h.ids, Nat.le_refl _, hlen, ?_, ?_, ?_, ?_⟩
  · show s.readOffset ≤ s.decodeIds.length
    have hshown := h.shown
    rw [hlen, h.read]
    omega
  · unfold DecodeStatus.surrIds
    show WholeIds bytes ((s.decodeIds.take s.decodeIds.length).drop s.readOffset)
    rw [List.take_length, h.ids, h.read, ← List.drop_drop, List.drop_left]
    exact hwhole
  · have hall := h.textWhole.append hwhole
    rw [List.take_append_drop] at hall
    rwa [List.take_length]
  · show s.decodedText ++ decodeIds bytes (o.drop k) = _
    rw [h.text_append, List.take_append_drop, List.take_length]

/-- One turn of the second loop shows the right text and leaves a status that tracks the
same output. -/
theorem advance_faithful (h : Tracks bytes (reqs sent.req) sent.outputIds k s)
    (hmore : k < sent.outputIds.length) {s' : DecodeStatus} {shown : Text}
    (hadv : s.advance sent.finishedReason (decodeIds bytes ((sent.shownIds reqs).drop k)) =
      (s', shown)) :
    (∃ k', Tracks bytes (reqs sent.req) sent.outputIds k' s') ∧
      sent.Faithful reqs bytes (trimMatchedStopText (s'.decodedText ++ shown)
        sent.finishedReason (reqs sent.req).noStopTrim) := by
  have hsplit := shownIds_split reqs hmore
  unfold DecodeStatus.advance at hadv
  unfold Sent.Faithful trimMatchedStopText
  cases hreason : sent.finishedReason with
  | none =>
    have hshown : sent.shownIds reqs = sent.outputIds := by simp [Sent.shownIds, hreason]
    have hwhole : s.decodedText ++ decodeIds bytes (sent.outputIds.drop k) =
        decodeIds bytes sent.outputIds := by
      rw [h.text_append, List.take_append_drop]
    simp only [hreason, if_true, hshown] at hadv
    split at hadv
    next hcommit =>
      cases hadv
      refine ⟨⟨_, h.commit hcommit.2⟩, ?_⟩
      simp only [List.append_nil, ite_self]
      rw [hwhole]
      exact List.prefix_rfl
    next =>
      cases hadv
      refine ⟨⟨k, h⟩, ?_⟩
      simp only [ite_self]
      show _ <+: decodeIds bytes sent.outputIds
      rw [← hwhole]
      exact (List.prefix_append_right_inj _).mpr ( findPrintableText_prefix _)
  | some reason =>
    simp only [hreason, reduceCtorEq, if_false] at hadv
    cases hadv
    refine ⟨⟨k, h⟩, ?_⟩
    have hwhole : s.decodedText ++ decodeIds bytes ((sent.shownIds reqs).drop k) =
        decodeIds bytes (sent.shownIds reqs) := by
      rw [h.text_append, hsplit]
    cases reason with
    | matchedStr _ => trivial
    | matchedToken _ =>
      simp only [ite_self]
      exact hwhole
    | length _ =>
      simp only [ite_self]
      exact hwhole
    | abort _ =>
      simp only [ite_self]
      exact hwhole

end FastPP
