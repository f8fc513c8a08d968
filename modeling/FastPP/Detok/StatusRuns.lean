import FastPP.Detok.StatusEviction

namespace FastPP

variable {decode : Decoder}

/-- `event_loop` handles `recv` with the statuses `d`, all earlier messages of the
history having gone through. -/
def Handles (decode : Decoder) (d₀ : DecodeStatuses) (history : List (List TokenIDOut))
    (recv : List TokenIDOut) (d : DecodeStatuses) : Prop :=
  ∃ earlier outputs, earlier ++ [recv] <+: history ∧
    eventLoop decode d₀ earlier = .ok (d, outputs)

/-- No status is lost before it is read: at the second loop of each message every rid
of the message is registered, and no `KeyError` ends the process. -/
structure StatusesKept (decode : Decoder) (d₀ : DecodeStatuses)
    (history : List (List TokenIDOut)) : Prop where
  registered : ∀ recv d, Handles decode d₀ history recv d → ∀ d' ids,
    initStatuses d recv = .ok (d', ids) → ∀ out ∈ recv, out.rid ∈ d'.keys
  noKeyError : eventLoop decode d₀ history ≠ .error .keyError

/-- Each message that gets through its first loop spares the entries it looked up. -/
def SparesLookedUp (decode : Decoder) (d₀ : DecodeStatuses)
    (history : List (List TokenIDOut)) : Prop :=
  ∀ recv d, Handles decode d₀ history recv d → (∃ r, initStatuses d recv = .ok r) →
    d.Spares [] recv

theorem handles_later {d₀ d₁ d : DecodeStatuses} {first recv : List TokenIDOut}
    {history : List (List TokenIDOut)} {outputStrs : List Text}
    (hfirst : detokenize decode d₀ first = .ok (d₁, outputStrs))
    (h : Handles decode d₁ history recv d) : Handles decode d₀ (first :: history) recv d := by
  obtain ⟨earlier, outputs, hearlier, hloop⟩ := h
  refine ⟨first :: earlier, outputStrs :: outputs, ?_, ?_⟩
  · simpa using hearlier
  · simp [eventLoop, hfirst, hloop, bind, Except.bind]

theorem handles_first (d₀ : DecodeStatuses) (first : List TokenIDOut)
    (history : List (List TokenIDOut)) : Handles decode d₀ (first :: history) first d₀ :=
  ⟨[], [], by simp, rfl⟩

/-- A message raises `KeyError` only when the first loop has lost one of its rids. -/
theorem detokenize_keyError {d : DecodeStatuses} {recv : List TokenIDOut}
    (h : detokenize decode d recv = .error .keyError) :
    ∃ d' ids, initStatuses d recv = .ok (d', ids) ∧ ∃ out ∈ recv, out.rid ∉ d'.keys := by
  unfold detokenize at h
  cases hinit : initStatuses d recv with
  | error e =>
    have he : e = .keyError := by simpa [hinit, bind, Except.bind] using h
    exact absurd (he ▸ initStatuses_error hinit) (by simp)
  | ok r =>
    obtain ⟨d', ids⟩ := r
    refine ⟨d', ids, rfl, ?_⟩
    by_contra hall
    have hkeys : ∀ out ∈ recv, out.rid ∈ d'.keys := by
      intro out hout
      by_contra hkey
      exact hall ⟨out, hout, hkey⟩
    cases hhead : recv.head? with
    | none => simp [hinit, hhead, bind, Except.bind] at h
    | some first =>
      simp only [hinit, hhead, bind, Except.bind] at h
      have hwork : ∀ work : List (TokenIDOut × Text × Text), (∀ item ∈ work, item.1 ∈ recv) →
          incrementalDecode d' work ≠ .error .keyError := by
        intro work hin herror
        obtain ⟨r, hr⟩ := incrementalDecode_ok_iff.mpr fun item hitem =>
          hkeys item.1 (hin item hitem)
        rw [herror] at hr
        cases hr
      exact hwork _ (fun item hitem => (List.of_mem_zip hitem).1) h

theorem noKeyError_of_registered {d₀ : DecodeStatuses} {history : List (List TokenIDOut)}
    (h : ∀ recv d, Handles decode d₀ history recv d → ∀ d' ids,
      initStatuses d recv = .ok (d', ids) → ∀ out ∈ recv, out.rid ∈ d'.keys) :
    eventLoop decode d₀ history ≠ .error .keyError := by
  induction history generalizing d₀ with
  | nil => simp [eventLoop]
  | cons first rest ih =>
    intro herror
    cases hfirst : detokenize decode d₀ first with
    | error e =>
      have he : e = .keyError := by simpa [eventLoop, hfirst, bind, Except.bind] using herror
      subst he
      obtain ⟨d', ids, hinit, out, hout, hkey⟩ := detokenize_keyError hfirst
      exact hkey (h first d₀ (handles_first d₀ first rest) d' ids hinit out hout)
    | ok r =>
      obtain ⟨d₁, outputStrs⟩ := r
      cases hrest : eventLoop decode d₁ rest with
      | error e =>
        have he : e = .keyError := by
          simpa [eventLoop, hfirst, hrest, bind, Except.bind] using herror
        subst he
        exact ih (fun recv d hd => h recv d (handles_later hfirst hd)) hrest
      | ok r' => simp [eventLoop, hfirst, hrest, bind, Except.bind] at herror

/-- The statuses a message reads are there exactly when no message of the history drops
an entry it has looked up. -/
theorem eventLoop_statusesKept_iff (decode : Decoder) (d₀ : DecodeStatuses)
    (history : List (List TokenIDOut)) :
    StatusesKept decode d₀ history ↔ SparesLookedUp decode d₀ history := by
  constructor
  · intro h recv d hd hinit
    obtain ⟨⟨d', ids⟩, hr⟩ := hinit
    apply (registerAll_keeps_iff d recv).mp
    intro out hout
    have hkey := h.registered recv d hd d' ids hr out hout
    rwa [(initStatuses_ok hr).1] at hkey
  · intro h
    have hreg : ∀ recv d, Handles decode d₀ history recv d → ∀ d' ids,
        initStatuses d recv = .ok (d', ids) → ∀ out ∈ recv, out.rid ∈ d'.keys := by
      intro recv d hd d' ids hr out hout
      rw [(initStatuses_ok hr).1]
      exact (registerAll_keeps_iff d recv).mpr (h recv d hd ⟨_, hr⟩) out hout
    exact ⟨hreg, noKeyError_of_registered hreg⟩

/-- While the dictionary has room for the whole message, nothing is dropped. -/
theorem spares_of_room {d : DecodeStatuses} {recv : List TokenIDOut} {looked : List Nat}
    (h : d.items.length + recv.length ≤ d.capacity) : d.Spares looked recv := by
  induction recv generalizing d looked with
  | nil => trivial
  | cons out rest ih =>
    have hroom : ¬ d.capacity ≤ d.items.length := by
      simp only [List.length_cons] at h
      omega
    have hnext : (d.initStatus out).1.items.length ≤ d.items.length + 1 ∧
        (d.initStatus out).1.capacity = d.capacity := by
      unfold DecodeStatuses.initStatus
      split
      next => exact ⟨by simp [LimitedCapacityDict.mutate], rfl⟩
      next =>
        refine ⟨?_, rfl⟩
        simp only [LimitedCapacityDict.setItem, LimitedCapacityDict.assign,
          LimitedCapacityDict.makeRoom, hroom, if_false]
        split <;> simp
    refine ⟨fun rid hdrop => ?_, ih ?_⟩
    · have hnone : d.dropped out = none := by
        simp [DecodeStatuses.dropped, LimitedCapacityDict.evicted?, hroom]
      rw [hnone] at hdrop
      cases hdrop
    · simp only [List.length_cons] at h
      omega

theorem initStatuses_unfinished {recv : List TokenIDOut} (d : DecodeStatuses)
    (h : ∀ out ∈ recv, out.finishedReason = none) : ∃ r, initStatuses d recv = .ok r := by
  induction recv generalizing d with
  | nil => exact ⟨_, rfl⟩
  | cons out rest ih =>
    obtain ⟨r, hr⟩ := ih (d.initStatus out).1 fun o ho => h o (List.mem_cons_of_mem out ho)
    have htrim : trimMatchedStopIds (d.initStatus out).2.readIds out.finishedReason
        out.noStopTrim = .ok (d.initStatus out).2.readIds := by
      rw [h out List.mem_cons_self]
      simp [trimMatchedStopIds]
    refine ⟨(r.1, ((d.initStatus out).2.surrIds, (d.initStatus out).2.readIds) :: r.2), ?_⟩
    simp [initStatuses, htrim, hr, bind, Except.bind]

/-- A first chunk of a request without text. -/
def tokenIDOut (rid : Nat) : TokenIDOut where
  rid := rid
  vid := 0
  decodedText := []
  decodeIds := [1]
  readOffset := 0
  finishedReason := none
  skipSpecialTokens := true
  spacesBetweenSpecialTokens := true
  noStopTrim := false

theorem eventLoop_snoc {d₀ d₁ d₂ : DecodeStatuses} {history : List (List TokenIDOut)}
    {recv : List TokenIDOut} {outputs : List (List Text)} {outputStrs : List Text}
    (h : eventLoop decode d₀ history = .ok (d₁, outputs))
    (hrecv : detokenize decode d₁ recv = .ok (d₂, outputStrs)) :
    eventLoop decode d₀ (history ++ [recv]) = .ok (d₂, outputs ++ [outputStrs]) := by
  induction history generalizing d₀ outputs with
  | nil =>
    cases h
    simp [eventLoop, hrecv, bind, Except.bind]
  | cons first rest ih =>
    cases hfirst : detokenize decode d₀ first with
    | error e => simp [eventLoop, hfirst, bind, Except.bind] at h
    | ok r =>
      obtain ⟨d', strs⟩ := r
      cases hrest : eventLoop decode d' rest with
      | error e => simp [eventLoop, hfirst, hrest, bind, Except.bind] at h
      | ok r' =>
        obtain ⟨d'', outs⟩ := r'
        have heq : d'' = d₁ ∧ strs :: outs = outputs := by
          simpa [eventLoop, hfirst, hrest, bind, Except.bind] using h
        obtain ⟨hd, houts⟩ := heq
        subst hd houts
        simp [eventLoop, hfirst, ih hrest, bind, Except.bind]

/-- A first chunk handled on its own enters the dictionary as its newest entry. -/
theorem detokenize_new (decode : Decoder) {d : DecodeStatuses} {rid : Nat}
    (hroom : d.items.length < d.capacity) (hnew : rid ∉ d.keys)
    (hvid : ∀ r s, d.get? r = some s → s.vid = 0) :
    ∃ d' outputStrs, detokenize decode d [tokenIDOut rid] = .ok (d', outputStrs) ∧
      d'.keys = d.keys ++ [rid] ∧ d'.capacity = d.capacity ∧
      ∀ r s, d'.get? r = some s → s.vid = 0 := by
  have hget : d.get? rid = none := by
    simpa [LimitedCapacityDict.mem_keys] using hnew
  have hfound : d.found (tokenIDOut rid) = none := by
    simp [DecodeStatuses.found, tokenIDOut, hget]
  have hnotFull : ¬ d.capacity ≤ d.items.length := by omega
  have hinit : d.initStatus (tokenIDOut rid) =
      (d.setItem rid (tokenIDOut rid).status, (tokenIDOut rid).status) := by
    unfold DecodeStatuses.initStatus
    rw [hfound]
    rfl
  have hkeys : (d.setItem rid (tokenIDOut rid).status).keys = d.keys ++ [rid] := by
    change (LimitedCapacityDict.assign d.makeRoom rid _).map Prod.fst = _
    rw [LimitedCapacityDict.assign_keys]
    have hmake : d.makeRoom = d.items := if_neg hnotFull
    rw [hmake]
    exact if_neg hnew
  obtain ⟨s, text, hadv⟩ : ∃ s text, (tokenIDOut rid).status.advance none
      ((decode true true [1]).drop (decode true true []).length) = (s, text) := ⟨_, _, rfl⟩
  have hsvid : s.vid = 0 := by
    unfold DecodeStatus.advance at hadv
    split at hadv
    next =>
      split at hadv
      next => cases hadv; rfl
      next => cases hadv; rfl
    next hne => exact absurd rfl hne
  refine ⟨(d.setItem rid (tokenIDOut rid).status).mutate rid s, [s.decodedText ++ text], ?_, ?_,
    rfl, ?_⟩
  · have hids : initStatuses d [tokenIDOut rid] =
        .ok (d.setItem rid (tokenIDOut rid).status, [([], [1])]) := by
      unfold initStatuses
      rw [hinit]
      rfl
    have hread : incrementalDecode (d.setItem rid (tokenIDOut rid).status)
        [(tokenIDOut rid, decode true true [], decode true true [1])] =
        .ok ((d.setItem rid (tokenIDOut rid).status).mutate rid s, [s.decodedText ++ text]) := by
      unfold incrementalDecode
      have hself := LimitedCapacityDict.get?_setItem_self d rid (tokenIDOut rid).status
      rw [show (tokenIDOut rid).rid = rid from rfl, hself]
      simp only [show (tokenIDOut rid).finishedReason = none from rfl, hadv]
      rfl
    unfold detokenize
    rw [hids]
    exact hread
  · rw [LimitedCapacityDict.keys_mutate, hkeys]
  · intro r t hr
    by_cases hself : r = rid
    · subst hself
      rw [LimitedCapacityDict.get?_mutate_self s
        (LimitedCapacityDict.mem_keys_setItem_self d r _)] at hr
      cases hr
      exact hsvid
    · exact hvid r t ((LimitedCapacityDict.get?_setItem_other hself).mp
        ((LimitedCapacityDict.get?_mutate_other hself).mp hr)).1

/-- The statuses after one message for each of the rids `0, ..., n - 1`. -/
theorem eventLoop_fills (decode : Decoder) (capacity : Nat) (positive : 0 < capacity) {n : Nat}
    (hn : n ≤ capacity) :
    ∃ d outputs, eventLoop decode (.empty Nat DecodeStatus capacity positive)
        ((List.range n).map fun rid => [tokenIDOut rid]) = .ok (d, outputs) ∧
      d.keys = List.range n ∧ d.capacity = capacity ∧ ∀ r s, d.get? r = some s → s.vid = 0 := by
  induction n with
  | zero => exact ⟨_, _, rfl, rfl, rfl, fun r s h => by cases h⟩
  | succ n ih =>
    obtain ⟨d, outputs, hloop, hkeys, hcap, hvid⟩ := ih (by omega)
    have hlen : d.items.length = n := by
      simpa [LimitedCapacityDict.keys] using congrArg List.length hkeys
    obtain ⟨d', outputStrs, hrecv, hkeys', hcap', hvid'⟩ :=
      detokenize_new decode (show d.items.length < d.capacity by omega)
        (show n ∉ d.keys by simp [hkeys]) hvid
    refine ⟨d', outputs ++ [outputStrs], ?_, ?_, by rw [hcap', hcap], hvid'⟩
    · rw [List.range_succ, List.map_append]
      exact eventLoop_snoc hloop hrecv
    · rw [hkeys', hkeys, List.range_succ]

/-- One message for each of as many requests as the dictionary holds, and then one for
the oldest of them together with a new request. -/
def oldestAndNew : List (List TokenIDOut) :=
  (List.range (1 <<< 15)).map (fun rid => [tokenIDOut rid]) ++
    [[tokenIDOut 0, tokenIDOut (1 <<< 15)]]

theorem oldest_status_lost : (∀ recv ∈ oldestAndNew, recv.length ≤ DecodeStatuses.init.capacity) ∧
    ∀ decode, ¬ StatusesKept decode .init oldestAndNew := by
  refine ⟨?_, fun decode hkept => ?_⟩
  · intro recv hrecv
    rcases List.mem_append.mp hrecv with h | h
    · obtain ⟨rid, -, rfl⟩ := List.mem_map.mp h
      show 1 ≤ 1 <<< 15
      decide
    · cases List.mem_singleton.mp h
      show 2 ≤ 1 <<< 15
      decide
  obtain ⟨d, outputs, hloop, hkeys, hcap, hvid⟩ :=
    eventLoop_fills decode (1 <<< 15) (by decide) (Nat.le_refl _)
  have hlen : d.items.length = 1 <<< 15 := by
    simpa [LimitedCapacityDict.keys] using congrArg List.length hkeys
  have h0 : 0 ∈ d.keys := by simp [hkeys]
  have hfull : d.evicted? = some 0 := by
    simp [LimitedCapacityDict.evicted?, hcap, hlen, hkeys, List.head?_range]
  obtain ⟨s, hs⟩ := Option.isSome_iff_exists.mp (LimitedCapacityDict.mem_keys.mp h0)
  have hfound : d.found (tokenIDOut 0) = some s := by
    simp [DecodeStatuses.found, tokenIDOut, hs, hvid 0 s hs]
  have hunfinished : ∀ out ∈ [tokenIDOut 0, tokenIDOut (1 <<< 15)], out.finishedReason = none := by
    simp [tokenIDOut]
  obtain ⟨⟨d', ids⟩, hids⟩ := initStatuses_unfinished d hunfinished
  have hspare : d.Spares [] [tokenIDOut 0, tokenIDOut (1 <<< 15)] := by
    apply (registerAll_keeps_iff d _).mp
    rw [← (initStatuses_ok hids).1]
    exact hkept.registered _ d ⟨_, outputs, List.prefix_rfl, hloop⟩ d' ids hids
  obtain ⟨d₁, hd₁⟩ : ∃ d₁ : DecodeStatuses, d₁ = d.mutate 0 { s with decodeIds := [1] } :=
    ⟨_, rfl⟩
  have hinit : (d.initStatus (tokenIDOut 0)).1 = d₁ := by
    unfold DecodeStatuses.initStatus
    rw [hfound, hd₁]
    rfl
  have hnew₁ : d₁.found (tokenIDOut (1 <<< 15)) = none := by
    have hget : d₁.get? (1 <<< 15) = none := by
      have hout : 1 <<< 15 ∉ d₁.keys := by simp [hd₁, hkeys]
      simpa [LimitedCapacityDict.mem_keys] using hout
    unfold DecodeStatuses.found
    rw [show (tokenIDOut (1 <<< 15)).rid = 1 <<< 15 from rfl, hget]
    rfl
  have hdrop : DecodeStatuses.dropped d₁ (tokenIDOut (1 <<< 15)) = some 0 := by
    unfold DecodeStatuses.dropped
    rw [if_pos hnew₁, hd₁, LimitedCapacityDict.evicted?_mutate, hfull]
  have hlost := hspare.2.1 0 (by rw [hinit]; exact hdrop) (by simp [tokenIDOut])
  simp [tokenIDOut] at hlost

end FastPP
