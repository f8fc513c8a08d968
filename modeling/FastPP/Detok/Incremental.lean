import FastPP.Detok.Tracking
import FastPP.Detok.StatusRuns

namespace FastPP

variable {reqs : Nat → StreamReq} {bytes : Nat → List UInt8} {d d' : DecodeStatuses}
  {g : Streams} {sent : Sent} {recv : List Sent}

/-- The rid of the request a part belongs to. -/
def Sent.rid (reqs : Nat → StreamReq) (sent : Sent) : Nat := (reqs sent.req).rid

theorem rid_out (reqs : Nat → StreamReq) (sent : Sent) : (sent.out reqs).rid = sent.rid reqs := rfl

theorem rids_out (reqs : Nat → StreamReq) (recv : List Sent) :
    (recv.map (Sent.out reqs)).map TokenIDOut.rid = recv.map (Sent.rid reqs) := by
  rw [List.map_map]
  rfl

/-- Every registered status tracks the request that last used its rid. -/
def Owned (reqs : Nat → StreamReq) (bytes : Nat → List UInt8) (d : DecodeStatuses)
    (g : Streams) : Prop :=
  ∀ rid s, d.get? rid = some s →
    ∃ i k, g.sender rid = some i ∧ (reqs i).rid = rid ∧ Tracks bytes (reqs i) (g.last i) k s

theorem after_sender {rid : Nat} (h : rid ∉ recv.map (Sent.rid reqs)) :
    (g.after reqs recv).sender rid = g.sender rid := by
  induction recv generalizing g with
  | nil => rfl
  | cons first rest ih =>
    have hne : rid ≠ (reqs first.req).rid := fun e => h (by simp [e, Sent.rid])
    unfold Streams.after
    rw [ih fun hm => h (List.mem_cons_of_mem _ hm)]
    exact Function.update_of_ne hne _ _

theorem after_last {i : Nat} (h : (reqs i).rid ∉ recv.map (Sent.rid reqs)) :
    (g.after reqs recv).last i = g.last i := by
  induction recv generalizing g with
  | nil => rfl
  | cons first rest ih =>
    have hne : i ≠ first.req := fun e => h (by simp [e, Sent.rid])
    unfold Streams.after
    rw [ih fun hm => h (List.mem_cons_of_mem _ hm)]
    exact Function.update_of_ne hne _ _

theorem after_cons (g : Streams) (sent : Sent) (rest : List Sent) :
    g.after reqs (sent :: rest) = (g.after reqs [sent]).after reqs rest := rfl

theorem owned_other {rid : Nat} {s : DecodeStatus} (hne : rid ≠ sent.rid reqs)
    (h : ∃ i k, g.sender rid = some i ∧ (reqs i).rid = rid ∧
      Tracks bytes (reqs i) (g.last i) k s) :
    ∃ i k, (g.after reqs [sent]).sender rid = some i ∧ (reqs i).rid = rid ∧
      Tracks bytes (reqs i) ((g.after reqs [sent]).last i) k s := by
  obtain ⟨i, k, hsender, hrid, htrack⟩ := h
  have hout : rid ∉ [sent].map (Sent.rid reqs) := by simpa using hne
  refine ⟨i, k, ?_, hrid, ?_⟩
  · rw [after_sender hout]
    exact hsender
  · rw [after_last (by rw [hrid]; exact hout)]
    exact htrack

theorem after_self (reqs : Nat → StreamReq) (g : Streams) (sent : Sent) :
    (g.after reqs [sent]).sender (sent.rid reqs) = some sent.req ∧
      (g.after reqs [sent]).last sent.req = sent.outputIds :=
  ⟨Function.update_self _ _ _, Function.update_self _ _ _⟩

/-- An entry of another rid that is there after a registration was there before. -/
theorem get?_initStatus_other {out : TokenIDOut} {rid : Nat} {s : DecodeStatus}
    (hne : rid ≠ out.rid) (h : (d.initStatus out).1.get? rid = some s) :
    d.get? rid = some s := by
  unfold DecodeStatuses.initStatus at h
  split at h
  next => exact (LimitedCapacityDict.get?_mutate_other hne).mp h
  next => exact ((LimitedCapacityDict.get?_setItem_other hne).mp h).1

theorem found_initStatus_other {out later : TokenIDOut} {s : DecodeStatus}
    (hne : later.rid ≠ out.rid) (h : (d.initStatus out).1.found later = some s) :
    d.found later = some s := by
  obtain ⟨hget, hvid⟩ := Option.filter_eq_some_iff.mp h
  exact Option.filter_eq_some_iff.mpr ⟨get?_initStatus_other hne hget, hvid⟩

/-- Registering a part of a message: its status tracks the output sent, and the other
statuses stay owned. -/
theorem initStatus_owned (howned : Owned reqs bytes d g) (harr : (reqs sent.req).Arrived bytes)
    (hext : g.Extends sent)
    (hown : ∀ s, d.found (sent.out reqs) = some s → g.sender (sent.rid reqs) = some sent.req) :
    Owned reqs bytes (d.initStatus (sent.out reqs)).1 (g.after reqs [sent]) ∧
      (d.initStatus (sent.out reqs)).1.get? (sent.rid reqs) =
        some (d.initStatus (sent.out reqs)).2 ∧
      ∃ k, k < sent.outputIds.length ∧
        Tracks bytes (reqs sent.req) sent.outputIds k (d.initStatus (sent.out reqs)).2 := by
  obtain ⟨d₁, s₁, heq⟩ : ∃ d₁ s₁, d.initStatus (sent.out reqs) = (d₁, s₁) := ⟨_, _, rfl⟩
  have hself : d₁.get? (sent.rid reqs) = some s₁ ∧ ∃ k, k < sent.outputIds.length ∧
      Tracks bytes (reqs sent.req) sent.outputIds k s₁ := by
    cases hf : d.found (sent.out reqs) with
    | some s =>
      simp only [DecodeStatuses.initStatus, hf, Prod.mk.injEq] at heq
      obtain ⟨rfl, rfl⟩ := heq
      have hget := (Option.filter_eq_some_iff.mp hf).1
      obtain ⟨i, k, hsender, -, htrack⟩ := howned _ _ hget
      rw [rid_out, hown s hf] at hsender
      cases hsender
      have hlt := hext.2
      have hshown := htrack.shown
      refine ⟨LimitedCapacityDict.get?_mutate_self _ (found_mem_keys hf), k, by omega, ?_⟩
      rw [out_decodeIds harr.noOffset]
      exact htrack.extend hext.1
    | none =>
      simp only [DecodeStatuses.initStatus, hf, Prod.mk.injEq] at heq
      obtain ⟨rfl, rfl⟩ := heq
      have hlt := hext.2
      exact ⟨LimitedCapacityDict.get?_setItem_self d _ _, 0, by omega, status_tracks harr⟩
  have hothers : ∀ rid s, rid ≠ sent.rid reqs → d₁.get? rid = some s → d.get? rid = some s := by
    intro rid s hne hget
    apply get?_initStatus_other (show rid ≠ (sent.out reqs).rid from hne)
    rw [heq]
    exact hget
  rw [heq]
  refine ⟨fun rid s hget => ?_, hself⟩
  by_cases hrid : rid = sent.rid reqs
  · subst hrid
    obtain ⟨k, -, htrack⟩ := hself.2
    have hs : s₁ = s := by
      rw [hself.1] at hget
      exact Option.some.inj hget
    subst hs
    obtain ⟨hsender, hlast⟩ := after_self reqs g sent
    exact ⟨sent.req, k, hsender, rfl, by rw [hlast]; exact htrack⟩
  · exact owned_other hrid (howned rid s (hothers rid s hrid hget))

/-- The entries that a message has looked up stay as they are for the rest of it. -/
theorem spares_keeps {looked : List Nat} {outs : List TokenIDOut} {rid : Nat} {s : DecodeStatus}
    (hspare : d.Spares looked outs) (hin : rid ∈ looked)
    (hout : rid ∉ outs.map TokenIDOut.rid) (hget : d.get? rid = some s) :
    (d.registerAll outs).get? rid = some s := by
  induction outs generalizing d looked with
  | nil => exact hget
  | cons out rest ih =>
    have hne : rid ≠ out.rid := fun e => hout (by simp [e])
    have hrest : rid ∉ rest.map TokenIDOut.rid := fun hm => hout (List.mem_cons_of_mem _ hm)
    have hdrop : d.dropped out ≠ some rid := fun e => hout (hspare.1 rid e hin)
    apply ih hspare.2 (List.mem_append_left _ hin) hrest
    unfold DecodeStatuses.dropped at hdrop
    unfold DecodeStatuses.initStatus
    cases hf : d.found out with
    | some s' => exact (LimitedCapacityDict.get?_mutate_other hne).mpr hget
    | none =>
      rw [if_pos hf] at hdrop
      exact (LimitedCapacityDict.get?_setItem_other hne).mpr ⟨hget, hdrop⟩

/-- Between the two loops: the status of a part tracks its output, and the ids read are
those of the surrounding and of what is still to be shown. -/
structure Read (reqs : Nat → StreamReq) (bytes : Nat → List UInt8) (d : DecodeStatuses)
    (g : Streams) (sent : Sent) (ids : List Nat × List Nat) : Prop where
  sender : g.sender (sent.rid reqs) = some sent.req
  last : g.last sent.req = sent.outputIds
  tracked : ∃ s k, d.get? (sent.rid reqs) = some s ∧ k < sent.outputIds.length ∧
    Tracks bytes (reqs sent.req) sent.outputIds k s ∧
    ids = (s.surrIds, s.surrIds ++ (sent.shownIds reqs).drop k)

theorem initStatuses_read {looked : List Nat} (howned : Owned reqs bytes d g)
    (harr : ∀ i, (reqs i).Arrived bytes) (hext : ∀ sent ∈ recv, g.Extends sent)
    (hrids : (recv.map (Sent.rid reqs)).Nodup)
    (hspare : d.Spares looked (recv.map (Sent.out reqs)))
    (hown : ∀ sent ∈ recv, ∀ s, d.found (sent.out reqs) = some s →
      g.sender (sent.rid reqs) = some sent.req)
    (hzero : ∀ sent ∈ recv, sent.finishedReason = some (.matchedToken 0) →
      (reqs sent.req).noStopTrim = true) :
    ∃ d' ids, initStatuses d (recv.map (Sent.out reqs)) = .ok (d', ids) ∧
      Owned reqs bytes d' (g.after reqs recv) ∧
      List.Forall₂ (Read reqs bytes d' (g.after reqs recv)) recv ids := by
  induction recv generalizing d g looked with
  | nil => exact ⟨d, [], rfl, howned, .nil⟩
  | cons sent rest ih =>
    obtain ⟨hnot, hrids'⟩ := List.nodup_cons.mp hrids
    obtain ⟨howned', hget, k, hk, htrack⟩ := initStatus_owned howned (harr sent.req)
      (hext sent List.mem_cons_self) (hown sent List.mem_cons_self)
    have hothers : ∀ later ∈ rest, later.rid reqs ≠ sent.rid reqs := by
      intro later hlater e
      exact hnot (e ▸ List.mem_map_of_mem hlater)
    have hlater : ∀ later ∈ rest, later.rid reqs ∉ [sent].map (Sent.rid reqs) := by
      intro later hmem
      simpa using hothers later hmem
    obtain ⟨d', ids, hrest, howned'', hread⟩ := ih (g := g.after reqs [sent]) howned'
      (fun later hmem => by
        unfold Streams.Extends
        rw [after_last (hlater later hmem)]
        exact hext later (List.mem_cons_of_mem _ hmem))
      hrids' hspare.2
      (fun later hmem s hf => by
        rw [after_sender (hlater later hmem)]
        exact hown later (List.mem_cons_of_mem _ hmem) s
          (found_initStatus_other (show (later.out reqs).rid ≠ (sent.out reqs).rid from
            hothers later hmem) hf))
      fun later hmem => hzero later (List.mem_cons_of_mem _ hmem)
    have htrim := trimmed_readIds htrack hk (hzero sent List.mem_cons_self)
    have hnot' : sent.rid reqs ∉ (rest.map (Sent.out reqs)).map TokenIDOut.rid := by
      rw [rids_out]
      exact hnot
    have hkept := spares_keeps hspare.2 (List.mem_append_right _ List.mem_cons_self) hnot' hget
    rw [← (initStatuses_ok hrest).1] at hkept
    obtain ⟨hsender, hlast⟩ := after_self reqs g sent
    obtain ⟨s, hs⟩ : ∃ s, s = (d.initStatus (sent.out reqs)).2 := ⟨_, rfl⟩
    refine ⟨d', (s.surrIds, s.surrIds ++ (sent.shownIds reqs).drop k) :: ids, ?_, howned'',
      .cons ⟨?_, ?_, s, k, ?_⟩ hread⟩
    · simp only [List.map_cons, initStatuses]
      rw [show (sent.out reqs).noStopTrim = (reqs sent.req).noStopTrim from rfl,
        show (sent.out reqs).finishedReason = sent.finishedReason from rfl, htrim]
      simp only [hrest, bind, Except.bind]
      rw [hs]
    · rw [after_cons, after_sender hnot, hsender]
    · rw [after_cons, after_last hnot, hlast]
    · rw [hs]
      exact ⟨hkept, hk, htrack, rfl⟩

theorem reads_mutate {rid : Nat} {s : DecodeStatus} {ids : List (List Nat × List Nat)}
    (hne : ∀ sent ∈ recv, sent.rid reqs ≠ rid)
    (h : List.Forall₂ (Read reqs bytes d g) recv ids) :
    List.Forall₂ (Read reqs bytes (d.mutate rid s) g) recv ids := by
  induction h with
  | nil => exact .nil
  | cons hhead _ ih =>
    apply List.Forall₂.cons _ (ih fun sent hmem => hne sent (List.mem_cons_of_mem _ hmem))
    obtain ⟨t, k, hget, hrest⟩ := hhead.tracked
    exact ⟨hhead.sender, hhead.last, t, k,
      (LimitedCapacityDict.get?_mutate_other (hne _ List.mem_cons_self)).mpr hget, hrest⟩

/-- The second loop shows the right text for each part. -/
theorem incrementalDecode_faithful {ids : List (List Nat × List Nat)} (skip spaces : Bool)
    (howned : Owned reqs bytes d g) (hrids : (recv.map (Sent.rid reqs)).Nodup)
    (hread : List.Forall₂ (Read reqs bytes d g) recv ids) :
    ∃ d' texts, incrementalDecode d ((recv.map (Sent.out reqs)).zip (ids.map fun p =>
        (byteDecoder bytes skip spaces p.1, byteDecoder bytes skip spaces p.2))) =
          .ok (d', texts) ∧
      Owned reqs bytes d' g ∧ List.Forall₂ (Sent.Faithful reqs bytes) recv texts := by
  induction recv generalizing d ids with
  | nil =>
    cases hread
    exact ⟨d, [], rfl, howned, .nil⟩
  | cons sent rest ih =>
    obtain _ | ⟨hhead, htail⟩ := hread
    obtain ⟨hnot, hrids'⟩ := List.nodup_cons.mp hrids
    obtain ⟨s, k, hget, hk, htrack, rfl⟩ := hhead.tracked
    obtain ⟨s', shown, hadv⟩ : ∃ s' shown, s.advance sent.finishedReason
        (decodeIds bytes ((sent.shownIds reqs).drop k)) = (s', shown) := ⟨_, _, rfl⟩
    obtain ⟨⟨k', htrack'⟩, hfaithful⟩ := advance_faithful htrack hk hadv
    have hmem : sent.rid reqs ∈ d.keys := by
      rw [LimitedCapacityDict.mem_keys, hget]
      rfl
    have howned' : Owned reqs bytes (d.mutate (sent.rid reqs) s') g := by
      intro rid t ht
      by_cases hrid : rid = sent.rid reqs
      · subst hrid
        rw [LimitedCapacityDict.get?_mutate_self s' hmem] at ht
        cases ht
        exact ⟨sent.req, k', hhead.sender, rfl, by rw [hhead.last]; exact htrack'⟩
      · exact howned rid t ((LimitedCapacityDict.get?_mutate_other hrid).mp ht)
    have hne : ∀ later ∈ rest, later.rid reqs ≠ sent.rid reqs := by
      intro later hlater e
      exact hnot (e ▸ List.mem_map_of_mem hlater)
    obtain ⟨d', texts, hrest, howned'', hfaithful'⟩ :=
      ih howned' hrids' (reads_mutate hne htail)
    refine ⟨d', _ :: texts, ?_, howned'', .cons hfaithful hfaithful'⟩
    have hnew := htrack.newText ((sent.shownIds reqs).drop k)
    simp only [List.map_cons, List.zip_cons_cons, incrementalDecode]
    rw [rid_out, hget]
    simp only [show ∀ ids, byteDecoder bytes skip spaces ids = decodeIds bytes ids from fun _ => rfl]
      at hrest ⊢
    rw [hnew, show (sent.out reqs).finishedReason = sent.finishedReason from rfl, hadv]
    simp only [hrest, bind, Except.bind]
    rfl

/-- An undisturbed message is handled, and each text shown is the right one. -/
theorem detokenize_faithful (howned : Owned reqs bytes d g) (harr : ∀ i, (reqs i).Arrived bytes)
    (hne : recv ≠ []) (hext : ∀ sent ∈ recv, g.Extends sent) (h : Undisturbed reqs d g recv) :
    ∃ d' texts, detokenize (byteDecoder bytes) d (recv.map (Sent.out reqs)) = .ok (d', texts) ∧
      Owned reqs bytes d' (g.after reqs recv) ∧
      List.Forall₂ (Sent.Faithful reqs bytes) recv texts := by
  obtain ⟨d₁, ids, hinit, howned₁, hread⟩ :=
    initStatuses_read howned harr hext h.ridsDistinct h.spares h.ownEntries h.noZeroStop
  obtain ⟨first, rest, rfl⟩ := List.exists_cons_of_ne_nil hne
  obtain ⟨d', texts, hdec, howned', hfaithful⟩ := incrementalDecode_faithful
    (first.out reqs).skipSpecialTokens (first.out reqs).spacesBetweenSpecialTokens howned₁
    h.ridsDistinct hread
  refine ⟨d', texts, ?_, howned', hfaithful⟩
  unfold detokenize
  rw [hinit]
  exact hdec

theorem eventLoop_faithful {history : List (List Sent)} (harr : ∀ i, (reqs i).Arrived bytes)
    (howned : Owned reqs bytes d g) (hsent : WellSent reqs g history)
    (h : AllUndisturbed reqs (byteDecoder bytes) d g history) :
    ∃ d' outputs, eventLoop (byteDecoder bytes) d
        (history.map fun recv => recv.map (Sent.out reqs)) = .ok (d', outputs) ∧
      List.Forall₂ (List.Forall₂ (Sent.Faithful reqs bytes)) history outputs := by
  induction history generalizing d g with
  | nil => exact ⟨d, [], rfl, .nil⟩
  | cons recv rest ih =>
    obtain ⟨hne, hext, hsent'⟩ := hsent
    obtain ⟨d₁, texts, hrecv, howned₁, hfaithful⟩ := detokenize_faithful howned harr hne hext h.1
    obtain ⟨d', outputs, hrest, hfaithful'⟩ := ih howned₁ hsent' (h.2 d₁ texts hrecv)
    refine ⟨d', texts :: outputs, ?_, .cons hfaithful hfaithful'⟩
    simp [eventLoop, hrecv, hrest, bind, Except.bind]

end FastPP

namespace FastPP

variable {reqs : Nat → StreamReq} {bytes : Nat → List UInt8}

/-- The property over a whole history of messages, from the start of the process: every
message is answered, and every text is the right one. -/
def IncrementalIsFull (reqs : Nat → StreamReq) (bytes : Nat → List UInt8)
    (history : List (List Sent)) : Prop :=
  ∃ d outputs, eventLoop (byteDecoder bytes) .init
      (history.map fun recv => recv.map (Sent.out reqs)) = .ok (d, outputs) ∧
    List.Forall₂ (List.Forall₂ (Sent.Faithful reqs bytes)) history outputs

theorem incremental_is_full {history : List (List Sent)} (harr : ∀ i, (reqs i).Arrived bytes)
    (hsent : WellSent reqs .start history)
    (h : AllUndisturbed reqs (byteDecoder bytes) .init .start history) :
    IncrementalIsFull reqs bytes history :=
  eventLoop_faithful harr (fun _ _ hget => by cases hget) hsent h

/-- A request with the one-token prompt `[1]`. -/
def streamReq : StreamReq where
  rid := 7
  vid := 0
  originInputIdsUnpadded := [1]
  outputIds := []
  surrOffset := none
  readOffset := none
  decodedText := []
  finishedReason := none
  skipSpecialTokens := true
  spacesBetweenSpecialTokens := true
  noStopTrim := false

/-- Token 2 is the first half of a character and token 4 the second; the others are
letters. -/
def halfBytes : Nat → List UInt8
  | 2 => [0xC3]
  | 4 => [0xA9]
  | n => [0x61 + n.toUInt8]

theorem streamReq_arrived : ∀ i : Nat, ((fun _ => streamReq) i).Arrived halfBytes := fun _ =>
  ⟨rfl, rfl, .cons (show Utf8.decoder.next [0x62] = some ('b', []) from rfl) .nil, .nil⟩

/-- Half a character is streamed, and then the other half comes with the stop token 3. -/
def halfThenStop : List (List Sent) :=
  [[⟨0, [2], none⟩], [⟨0, [2, 4, 3], some (.matchedToken 3)⟩]]

theorem incremental_is_full_half : IncrementalIsFull (fun _ => streamReq) halfBytes halfThenStop := by
  apply incremental_is_full streamReq_arrived
  · refine ⟨by simp, ?_, by simp, ?_, trivial⟩
    · simp [Streams.Extends, Streams.start]
    · intro sent hsent
      cases List.mem_singleton.mp hsent
      exact ⟨⟨[4, 3], rfl⟩, by decide⟩
  · refine ⟨⟨by decide, spares_of_room (by decide), ?_, by simp⟩, fun d texts hfirst => ?_⟩
    · intro sent hsent s hs
      cases List.mem_singleton.mp hsent
      cases hs
    · have hd := congrArg (fun r => (r.toOption.map Prod.fst).getD .init) hfirst
      replace hd : _ = d := hd
      rw [← hd]
      refine ⟨⟨by decide, spares_of_room (by decide), ?_, by simp⟩, fun _ _ _ => trivial⟩
      intro sent hsent s hs
      cases List.mem_singleton.mp hsent
      rfl

/-- The stop token 0 stays in the final text. -/
theorem stop_token_zero_kept : (∀ i : Nat, ((fun _ => streamReq) i).Arrived halfBytes) ∧
    WellSent (fun _ => streamReq) .start [[⟨0, [0], some (.matchedToken 0)⟩]] ∧
    ¬ IncrementalIsFull (fun _ => streamReq) halfBytes
      [[⟨0, [0], some (.matchedToken 0)⟩]] := by
  refine ⟨streamReq_arrived, ?_, ?_⟩
  · refine ⟨by simp, ?_, trivial⟩
    simp [Streams.Extends, Streams.start]
  · rintro ⟨d, outputs, hloop, hfaithful⟩
    have hshown : (eventLoop (byteDecoder halfBytes) .init
        [[(⟨0, [0], some (.matchedToken 0)⟩ : Sent).out fun _ => streamReq]]).toOption.map Prod.snd =
          some [[['a']]] := by decide
    simp only [List.map_cons, List.map_nil] at hloop
    rw [hloop] at hshown
    cases hshown
    obtain _ | ⟨hrecv, -⟩ := hfaithful
    obtain _ | ⟨hsent, -⟩ := hrecv
    exact absurd (show (['a'] : Text) = [] from hsent) (by decide)

end FastPP
