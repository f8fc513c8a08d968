import FastPP.Detok.Detokenizer

namespace FastPP

variable {d d' : DecodeStatuses} {recv : List TokenIDOut}

/-- The dictionary after the first loop, whatever becomes of the ids it reads. -/
def DecodeStatuses.registerAll (d : DecodeStatuses) : List TokenIDOut → DecodeStatuses
  | [] => d
  | out :: rest => DecodeStatuses.registerAll (d.initStatus out).1 rest

/-- The rid whose entry is dropped to register an output. -/
def DecodeStatuses.dropped (d : DecodeStatuses) (out : TokenIDOut) : Option Nat :=
  if d.found out = none then d.evicted? else none

/-- No registration of a message drops the entry of a rid that the message has
looked up before and does not look up again. -/
def DecodeStatuses.Spares (d : DecodeStatuses) (looked : List Nat) : List TokenIDOut → Prop
  | [] => True
  | out :: rest =>
    (∀ rid, d.dropped out = some rid → rid ∈ looked → rid ∈ (out :: rest).map TokenIDOut.rid) ∧
      DecodeStatuses.Spares (d.initStatus out).1 (looked ++ [out.rid]) rest

theorem found_mem_keys {out : TokenIDOut} {s : DecodeStatus} (h : d.found out = some s) :
    out.rid ∈ d.keys := by
  have hget := (Option.filter_eq_some_iff.mp h).1
  rw [LimitedCapacityDict.mem_keys, hget]
  rfl

theorem initStatus_registers (d : DecodeStatuses) (out : TokenIDOut) :
    out.rid ∈ (d.initStatus out).1.keys := by
  unfold DecodeStatuses.initStatus
  split
  next s hs =>
    rw [LimitedCapacityDict.keys_mutate]
    exact found_mem_keys hs
  next => exact LimitedCapacityDict.mem_keys_setItem_self d out.rid out.status

/-- The other rids stay registered, except the one that is dropped. -/
theorem mem_keys_initStatus {out : TokenIDOut} {rid : Nat} (h : rid ≠ out.rid) :
    rid ∈ (d.initStatus out).1.keys ↔ rid ∈ d.keys ∧ d.dropped out ≠ some rid := by
  unfold DecodeStatuses.initStatus DecodeStatuses.dropped
  cases hf : d.found out with
  | some s => simp
  | none => simpa using LimitedCapacityDict.mem_keys_setItem h

theorem registerAll_absent {rid : Nat} (hrid : rid ∉ recv.map TokenIDOut.rid)
    (hkey : rid ∉ d.keys) : rid ∉ (d.registerAll recv).keys := by
  induction recv generalizing d with
  | nil => exact hkey
  | cons out rest ih =>
    have hne : rid ≠ out.rid := fun e => hrid (by simp [e])
    have hrest : rid ∉ rest.map TokenIDOut.rid := fun hm => hrid (by simp_all)
    apply ih hrest
    intro hm
    exact hkey ((mem_keys_initStatus hne).mp hm).1

/-- What the first loop registers, given the rids looked up before it. -/
theorem registered_iff_spares {looked : List Nat}
    (hlooked : ∀ rid ∈ looked, rid ∈ d.keys ∨ rid ∈ recv.map TokenIDOut.rid) :
    (∀ rid, rid ∈ looked ∨ rid ∈ recv.map TokenIDOut.rid → rid ∈ (d.registerAll recv).keys) ↔
      d.Spares looked recv := by
  induction recv generalizing d looked with
  | nil =>
    constructor
    · intro _
      trivial
    · intro _ rid hrid
      have hin : rid ∈ looked := by simpa using hrid
      exact (hlooked rid hin).resolve_right (by simp)
  | cons out rest ih =>
    by_cases hspare : ∀ rid, d.dropped out = some rid → rid ∈ looked →
        rid ∈ (out :: rest).map TokenIDOut.rid
    · have hnext : ∀ rid ∈ looked ++ [out.rid],
          rid ∈ (d.initStatus out).1.keys ∨ rid ∈ rest.map TokenIDOut.rid := by
        intro rid hrid
        by_cases hself : rid = out.rid
        · exact .inl (hself ▸ initStatus_registers d out)
        · have hin : rid ∈ looked := by simpa [hself] using hrid
          have hwas := hlooked rid hin
          by_cases hdrop : d.dropped out = some rid
          · exact .inr (by simpa [hself] using hspare rid hdrop hin)
          · rcases hwas with hkey | hlater
            · exact .inl ((mem_keys_initStatus hself).mpr ⟨hkey, hdrop⟩)
            · exact .inr (by simpa [hself] using hlater)
      have hiff := ih hnext
      simp only [DecodeStatuses.Spares, DecodeStatuses.registerAll, ← hiff]
      constructor
      · intro h
        refine ⟨hspare, fun rid hrid => h rid ?_⟩
        simpa [or_assoc] using hrid
      · intro h rid hrid
        apply h.2 rid
        simpa [or_assoc] using hrid
    · constructor
      · intro h
        exfalso
        apply hspare
        intro rid hdrop hin
        by_contra hlater
        have hself : rid ≠ out.rid := fun e => hlater (by simp [e])
        have hrest : rid ∉ rest.map TokenIDOut.rid := fun hm => hlater (by simp_all)
        have hgone : rid ∉ (d.initStatus out).1.keys :=
          fun hm => ((mem_keys_initStatus hself).mp hm).2 hdrop
        exact registerAll_absent hrest hgone (h rid (.inl hin))
      · intro h
        exact absurd h.1 hspare

theorem registerAll_keeps_iff (d : DecodeStatuses) (recv : List TokenIDOut) :
    (∀ out ∈ recv, out.rid ∈ (d.registerAll recv).keys) ↔ d.Spares [] recv := by
  rw [← registered_iff_spares (by simp)]
  simp

/-- The first loop, when it does not raise, registers the message and reads the ids
of each of its requests. -/
theorem initStatuses_ok {ids : List (List Nat × List Nat)}
    (h : initStatuses d recv = .ok (d', ids)) :
    d' = d.registerAll recv ∧ ids.length = recv.length := by
  induction recv generalizing d d' ids with
  | nil =>
    cases h
    exact ⟨rfl, rfl⟩
  | cons out rest ih =>
    unfold initStatuses at h
    cases htrim : trimMatchedStopIds (d.initStatus out).2.readIds out.finishedReason
        out.noStopTrim with
    | error e => simp [htrim, bind, Except.bind] at h
    | ok readIds =>
      cases hrest : initStatuses (d.initStatus out).1 rest with
      | error e => simp [htrim, hrest, bind, Except.bind] at h
      | ok found =>
        obtain ⟨dr, idsr⟩ := found
        obtain ⟨hd, hlen⟩ := ih hrest
        simp only [htrim, hrest, bind, Except.bind, Except.ok.injEq, Prod.mk.injEq] at h
        obtain ⟨h1, h2⟩ := h
        exact ⟨by rw [← h1, hd]; rfl, by rw [← h2]; simp [hlen]⟩

theorem initStatuses_error {e : DetokError} (h : initStatuses d recv = .error e) :
    e = .assertionError := by
  induction recv generalizing d with
  | nil => cases h
  | cons out rest ih =>
    unfold initStatuses at h
    cases htrim : trimMatchedStopIds (d.initStatus out).2.readIds out.finishedReason
        out.noStopTrim with
    | error e' =>
      have he : e' = e := by simpa [htrim, bind, Except.bind] using h
      subst he
      unfold trimMatchedStopIds at htrim
      split at htrim
      · cases htrim
      · split at htrim
        · split at htrim
          · cases htrim
          · split at htrim
            · cases htrim; rfl
            · cases htrim
        · cases htrim
    | ok readIds =>
      cases hrest : initStatuses (d.initStatus out).1 rest with
      | error e' =>
        have he : e' = e := by simpa [htrim, hrest, bind, Except.bind] using h
        subst he
        exact ih hrest
      | ok found => simp [htrim, hrest, bind, Except.bind] at h

/-- The second loop raises exactly when a rid it reads is not registered. -/
theorem incrementalDecode_ok_iff {work : List (TokenIDOut × Text × Text)} :
    (∃ r, incrementalDecode d work = .ok r) ↔ ∀ item ∈ work, item.1.rid ∈ d.keys := by
  induction work generalizing d with
  | nil => simp [incrementalDecode]
  | cons item rest ih =>
    obtain ⟨out, surrText, readText⟩ := item
    cases hget : d.get? out.rid with
    | none =>
      have hout : out.rid ∉ d.keys := by simp [LimitedCapacityDict.mem_keys, hget]
      simp [incrementalDecode, hget, hout]
    | some s =>
      have hout : out.rid ∈ d.keys := by simp [LimitedCapacityDict.mem_keys, hget]
      have hrest := @ih (d.mutate out.rid
        (s.advance out.finishedReason (readText.drop surrText.length)).1)
      simp only [LimitedCapacityDict.keys_mutate] at hrest
      simp only [List.mem_cons, forall_eq_or_imp, hout, true_and, ← hrest]
      simp only [incrementalDecode, hget]
      cases hdec : incrementalDecode (d.mutate out.rid
        (s.advance out.finishedReason (readText.drop surrText.length)).1) rest with
      | error e => simp [bind, Except.bind]
      | ok r => simp [bind, Except.bind]

theorem incrementalDecode_error {work : List (TokenIDOut × Text × Text)} {e : DetokError}
    (h : incrementalDecode d work = .error e) : e = .keyError := by
  induction work generalizing d with
  | nil => cases h
  | cons item rest ih =>
    obtain ⟨out, surrText, readText⟩ := item
    cases hget : d.get? out.rid with
    | none => simpa [incrementalDecode, hget] using h.symm
    | some s =>
      cases hdec : incrementalDecode (d.mutate out.rid
        (s.advance out.finishedReason (readText.drop surrText.length)).1) rest with
      | error e' =>
        have he : e' = e := by simpa [incrementalDecode, hget, hdec, bind, Except.bind] using h
        subst he
        exact ih hdec
      | ok r => simp [incrementalDecode, hget, hdec, bind, Except.bind] at h

end FastPP
