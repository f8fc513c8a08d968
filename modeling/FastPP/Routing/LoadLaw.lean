import FastPP.Routing.LoadSteps

namespace FastPP

namespace RouterLoads

variable {s s' : RouterLoads} {client count : Nat} {action : LoadStep} {sel : Selection}
  {forwarded bytes : List UInt8} {success isStream : Bool} {url : String} {totalRetries : Nat}

theorem Settled.start (h : s.Settled) (isStream : Bool) :
    Settled { s with calls := s.calls ++ [outerLoop isStream 0] } := by
  obtain ⟨hpending, hsel⟩ := outerLoop_idle isStream 0
  refine ⟨?_, ?_, ?_⟩
  · intro url count hload
    rw [List.countP_append, List.countP_singleton, waitsFor_none hpending]
    exact h.counts url count hload
  · intro call hcall sel hs
    rcases List.mem_append.mp hcall with hcall | hcall
    · exact h.once call hcall sel hs
    · rw [List.mem_singleton.mp hcall, hsel] at hs
      cases hs
  · intro call hcall sel hs
    rcases List.mem_append.mp hcall with hcall | hcall
    · exact h.linked call hcall sel hs
    · rw [List.mem_singleton.mp hcall, hsel] at hs
      cases hs

theorem Settled.select (h : s.Settled)
    (hcall : s.calls[client]? = some (.selecting isStream totalRetries)) (url : String) :
    (s.select client url isStream totalRetries).Settled := by
  unfold RouterLoads.select
  split
  next => exact h.ended hcall rfl rfl rfl rfl rfl
  next =>
    split
    next => exact h.ended hcall rfl rfl rfl rfl rfl
    next count hload =>
      apply h.setCall rfl
      · intro other hother
        exact (LoadQueue.mem_recount (AList.lookup_isSome.mp (by rw [hload]; rfl))).mp hother
      · exact h.counts.routed hcall rfl rfl rfl hload
      · intro sel hsel
        obtain rfl := Option.some.inj hsel
        exact ⟨Nat.zero_le 1, fun _ => iff_of_true rfl rfl⟩

/-- Only the body of a success is counted down with reason. -/
theorem Settled.body (h : s.Settled)
    (hcall : s.calls[client]? = some (.reading sel success)) (answered : Bool) :
    Decides (sel.url ∈ s.runningQueue → (answered = true ↔ s.poisoned = false))
      (s.body client sel answered) := by
  have hpoisoned : s.poisoned = true →
      Decides (sel.url ∈ s.runningQueue → (answered = true ↔ s.poisoned = false))
        (s.setCall client (sel.answer answered)) := by
    intro hp
    cases answered with
    | true =>
      refine .congr ?_ (h.left hcall rfl rfl rfl rfl fun _ hs => (nomatch hs))
      simp [hp]
    | false =>
      exact .of_settled (h.failed hcall rfl rfl) fun _ => by simp [hp]
  have hgone : s.runningQueue.lookup sel.url = none →
      Decides (sel.url ∈ s.runningQueue → (answered = true ↔ s.poisoned = false))
        (s.setCall client (sel.answer answered)) := by
    intro hload
    have hnot : sel.url ∉ s.runningQueue := by
      rw [← AList.lookup_isSome, hload]
      exact Bool.false_ne_true
    cases answered with
    | true =>
      refine .congr ?_ (h.left hcall rfl rfl rfl rfl fun _ hs => (nomatch hs))
      exact iff_of_true hnot fun hin => absurd hin hnot
    | false => exact .of_settled (h.failed hcall rfl rfl) fun hin => absurd hin hnot
  unfold RouterLoads.body
  split
  next hp => exact hpoisoned hp
  next hp =>
    split
    next hload => exact hgone hload
    next count hload =>
      have hin : sel.url ∈ s.runningQueue := AList.lookup_isSome.mp (by rw [hload]; rfl)
      cases answered with
      | true =>
        apply Decides.of_settled
        · apply h.setCall rfl
          · exact fun other hother => (LoadQueue.mem_recount hin).mp hother
          · exact h.counts.answered hcall rfl rfl hload
          · intro _ hsel
            cases hsel
        · exact fun _ => iff_of_true rfl (by simpa using hp)
      | false =>
        -- the load goes down while the request tries again
        have hbad : ¬ ((s.setLoad sel.url (count - 1)).setCall client
            ({ sel with decrements := sel.decrements + 1 } : Selection).fail).Accounts := by
          intro ha
          obtain ⟨sel', hpending', _, hurl, _⟩ :=
            ({ sel with decrements := sel.decrements + 1 } : Selection).fail_spec
          have hzero := h.counts.zero_of_decrement hcall (by
            rw [hpending']
            exact congrArg some hurl) hload ha.counts
          have hpos := h.counts.pos hcall rfl hload
          omega
        refine ⟨fun hkept => ?_, fun ha => absurd ha hbad⟩
        have hfalse := (hkept hin).mpr (by simpa using hp)
        cases hfalse

/-- A chunk without the marker in it. -/
theorem Settled.chunk_plain (h : s.Settled)
    (hcall : s.calls[client]? = some (.streaming sel forwarded))
    (bytes : List UInt8) :
    Decides (sel.url ∈ s.runningQueue →
        hasFinalEvent (forwarded ++ bytes) = true → hasFinalEvent forwarded = true)
      (s.setCall client (.streaming sel (forwarded ++ bytes))) := by
  by_cases hold : hasFinalEvent forwarded = true
  · have hnew := hasFinalEvent_append hold bytes
    refine .of_settled (h.setCall rfl (fun _ hin => hin) ?_ ?_) fun _ _ => hold
    · apply h.counts.same hcall
      rw [RouteCall.pending_streaming hold, RouteCall.pending_streaming hnew]
    · intro sel' hsel'
      obtain rfl := Option.some.inj hsel'
      have hmem := List.mem_of_getElem? hcall
      refine ⟨h.once _ hmem sel rfl, fun hin => ?_⟩
      rw [h.linked _ hmem sel rfl hin, RouteCall.pending_streaming hold,
        RouteCall.pending_streaming hnew]
  · by_cases hnew : hasFinalEvent (forwarded ++ bytes) = true
    · refine .congr ?_ (h.left hcall rfl rfl (RouteCall.pending_streaming' hold)
        (RouteCall.pending_streaming hnew)
        fun sel' hs => ⟨hs, congrArg Selection.url (Option.some.inj hs).symm⟩)
      constructor
      · exact fun hgone hin => absurd hin hgone
      · exact fun hkept hin => hold (hkept hin hnew)
    · apply Decides.of_settled
      · exact h.moved hcall rfl rfl rfl (RouteCall.pending_streaming' hold) rfl
          (RouteCall.pending_streaming' hnew) rfl rfl
      · exact fun _ hm => absurd hm hnew

/-- A stream that panics in the closure. -/
theorem Settled.chunk_panics (h : s.Settled)
    (hcall : s.calls[client]? = some (.streaming sel forwarded))
    (hqueue : s'.runningQueue = s.runningQueue)
    (hcalls : s'.calls = s.calls.set client .panicked) :
    Decides (sel.url ∈ s.runningQueue → hasFinalEvent forwarded = true) s' := by
  by_cases hold : hasFinalEvent forwarded = true
  · exact .of_settled (h.ended hcall hcalls hqueue (RouteCall.pending_streaming hold) rfl rfl)
      fun _ => hold
  · refine .congr ?_ (h.left hcall hcalls hqueue (RouteCall.pending_streaming' hold) rfl
      fun _ hs => (nomatch hs))
    constructor
    · exact fun hgone hin => absurd hin hgone
    · exact fun hkept hin => hold (hkept hin)

/-- A chunk that is counted down. -/
theorem Settled.chunk_counted (h : s.Settled)
    (hcall : s.calls[client]? = some (.streaming sel forwarded)) (bytes : List UInt8)
    (hload : s.runningQueue.lookup sel.url = some count) :
    Decides (hasFinalEvent forwarded = false ∧ hasFinalEvent (forwarded ++ bytes) = true)
      ((s.setLoad sel.url (count - 1)).setCall client
        (.streaming { sel with decrements := sel.decrements + 1 } (forwarded ++ bytes))) := by
  have hin : sel.url ∈ s.runningQueue := AList.lookup_isSome.mp (by rw [hload]; rfl)
  have hmem := List.mem_of_getElem? hcall
  have hlinked := h.linked _ hmem sel rfl hin
  by_cases hold : hasFinalEvent forwarded = true
  · -- the selection has been counted down before
    rw [RouteCall.pending_streaming hold] at hlinked
    refine ⟨fun hkept => absurd (hkept.1.symm.trans hold) Bool.false_ne_true, fun ha => ?_⟩
    obtain ⟨hlt, _⟩ := List.getElem?_eq_some_iff.mp hcall
    have honce := ha.once _ (List.mem_set hlt _) _ rfl
    have hzero : sel.decrements = 0 := by
      simp only at honce
      omega
    cases hlinked.mp hzero
  · rw [RouteCall.pending_streaming' hold] at hlinked
    by_cases hnew : hasFinalEvent (forwarded ++ bytes) = true
    · apply Decides.of_settled
      · apply h.setCall rfl
        · exact fun other hother => (LoadQueue.mem_recount hin).mp hother
        · exact h.counts.answered hcall (RouteCall.pending_streaming' hold)
            (RouteCall.pending_streaming hnew) hload
        · intro sel' hsel'
          obtain rfl := Option.some.inj hsel'
          have hzero := hlinked.mpr rfl
          refine ⟨by simp only; omega, fun _ => ?_⟩
          rw [RouteCall.pending_streaming hnew]
          exact iff_of_false (by simp) (by simp)
      · exact ⟨by simpa using hold, hnew⟩
    · -- the marker stands in the text of a stream that goes on
      refine ⟨fun hkept => absurd hkept.2 hnew, fun ha => ?_⟩
      have hzero := h.counts.zero_of_decrement hcall (by
        rw [RouteCall.pending_streaming' hold, RouteCall.pending_streaming' hnew]
        rfl) hload ha.counts
      have hpos := h.counts.pos hcall (RouteCall.pending_streaming' hold) hload
      omega

theorem Settled.chunk (h : s.Settled)
    (hcall : s.calls[client]? = some (.streaming sel forwarded)) (bytes : List UInt8) :
    Decides (sel.url ∈ s.runningQueue →
        if hasMarker bytes then
          if s.poisoned then hasFinalEvent forwarded = true
          else hasFinalEvent forwarded = false ∧ hasFinalEvent (forwarded ++ bytes) = true
        else hasFinalEvent (forwarded ++ bytes) = true → hasFinalEvent forwarded = true)
      (s.chunk client sel forwarded bytes) := by
  unfold RouterLoads.chunk
  by_cases hmarker : hasMarker bytes = true
  · rw [if_pos hmarker]
    simp only [hmarker, if_true]
    split
    next => exact h.chunk_panics hcall rfl rfl
    next =>
      split
      next hload =>
        have hnot : sel.url ∉ s.runningQueue := by
          rw [← AList.lookup_isSome, hload]
          exact Bool.false_ne_true
        refine .congr ?_ (h.chunk_panics hcall rfl rfl)
        exact iff_of_true (fun hin => absurd hin hnot) fun hin => absurd hin hnot
      next count hload =>
        have hin : sel.url ∈ s.runningQueue := AList.lookup_isSome.mp (by rw [hload]; rfl)
        refine .congr ?_ (h.chunk_counted hcall bytes hload)
        exact ⟨fun hkept _ => hkept, fun hkept => hkept hin⟩
  · rw [if_neg hmarker, if_neg hmarker]
    exact h.chunk_plain hcall bytes

/-- A call that ends for a reason of the connection. -/
theorem Settled.breaks (h : s.Settled) {call call' : RouteCall}
    (hcall : s.calls[client]? = some call) (hpending' : call'.pending = none)
    (hsel' : call'.selection = none) :
    Decides (∀ call sel, s.calls[client]? = some call → call.pending = some sel →
      sel.url ∉ s.runningQueue) (s.setCall client call') := by
  cases hpending : call.pending with
  | none =>
    refine .of_settled (h.ended hcall rfl rfl hpending hpending' hsel') ?_
    intro call₁ sel hcall₁ hsel
    obtain rfl := Option.some.inj (hcall.symm.trans hcall₁)
    rw [hpending] at hsel
    cases hsel
  | some sel =>
    have hleaves : ∀ sel', call'.selection = some sel' →
        call.selection = some sel' ∧ sel'.url = sel.url := by
      intro sel' hs
      rw [hsel'] at hs
      cases hs
    refine .congr ?_ (h.left hcall rfl rfl hpending hpending' hleaves)
    constructor
    · intro hgone call₁ sel₁ hcall₁ hsel₁
      obtain rfl := Option.some.inj (hcall.symm.trans hcall₁)
      obtain rfl := Option.some.inj (hpending.symm.trans hsel₁)
      exact hgone
    · exact fun hkept => hkept call sel hcall hpending

end RouterLoads

end FastPP
