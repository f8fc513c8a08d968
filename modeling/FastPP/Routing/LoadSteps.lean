import FastPP.Routing.LoadAccounting
import FastPP.Routing.WorkerSelection

namespace FastPP

namespace RouterLoads

variable {s : RouterLoads} {client count : Nat} {call call' : RouteCall} {sel sel' : Selection}
  {url : String} {queue : LoadQueue}

/-- The loads of the queue are the numbers of outstanding requests. -/
def Counts (queue : LoadQueue) (calls : List RouteCall) : Prop :=
  ∀ url count, queue.lookup url = some count → count = calls.countP (RouteCall.waitsFor url)

theorem countP_setCall (h : s.calls[client]? = some call) (call' : RouteCall) (url : String) :
    (s.calls.set client call').countP (RouteCall.waitsFor url) +
        (if call.waitsFor url then 1 else 0) =
      s.calls.countP (RouteCall.waitsFor url) + if call'.waitsFor url then 1 else 0 := by
  obtain ⟨hlt, hget⟩ := List.getElem?_eq_some_iff.mp h
  rw [List.countP_set hlt, hget]
  by_cases hw : call.waitsFor url = true
  · have hpos : 0 < s.calls.countP (RouteCall.waitsFor url) :=
      List.countP_pos_iff.mpr ⟨call, List.mem_of_getElem? h, hw⟩
    rw [if_pos hw]
    omega
  · rw [if_neg hw]
    omega

theorem waitsFor_eq (h : call.pending.map Selection.url = call'.pending.map Selection.url)
    (url : String) : call.waitsFor url = call'.waitsFor url := by
  unfold RouteCall.waitsFor
  rw [h]

theorem waitsFor_none (h : call.pending = none) (url : String) : call.waitsFor url = false := by
  unfold RouteCall.waitsFor
  rw [h]
  rfl

theorem waitsFor_some (h : call.pending = some sel) (url : String) :
    call.waitsFor url = true ↔ sel.url = url := by
  unfold RouteCall.waitsFor
  rw [h, decide_eq_true_eq, Option.map_some, Option.some.injEq]

/-- A request that has a place in the list is counted for its worker. -/
theorem Counts.pos (h : Counts s.runningQueue s.calls) (hcall : s.calls[client]? = some call)
    (hpending : call.pending = some sel) (hload : s.runningQueue.lookup sel.url = some count) :
    0 < count := by
  rw [h _ _ hload]
  exact List.countP_pos_iff.mpr
    ⟨call, List.mem_of_getElem? hcall, (waitsFor_some hpending _).mpr rfl⟩

/-- The call waits for the worker it waited for. -/
theorem Counts.same (h : Counts s.runningQueue s.calls) (hcall : s.calls[client]? = some call)
    (hsame : call'.pending.map Selection.url = call.pending.map Selection.url) :
    Counts s.runningQueue (s.calls.set client call') := by
  intro url count hload
  have hset := countP_setCall hcall call' url
  have hcount := h url count hload
  rw [waitsFor_eq hsame url] at hset
  omega

/-- The call waits no longer. -/
theorem Counts.left_iff (h : Counts s.runningQueue s.calls) (hcall : s.calls[client]? = some call)
    (hpending : call.pending = some sel) (hnone : call'.pending = none) :
    Counts s.runningQueue (s.calls.set client call') ↔ sel.url ∉ s.runningQueue := by
  constructor
  · intro h' hmem
    obtain ⟨count, hload⟩ := Option.isSome_iff_exists.mp (AList.lookup_isSome.mpr hmem)
    have hset := countP_setCall hcall call' sel.url
    rw [if_pos ((waitsFor_some hpending _).mpr rfl), waitsFor_none hnone] at hset
    have hcount := h _ _ hload
    have hcount' := h' _ _ hload
    simp only [Bool.false_eq_true, if_false] at hset
    omega
  · intro hmem url count hload
    have hne : ¬ call.waitsFor url = true := by
      rw [waitsFor_some hpending]
      intro heq
      apply hmem
      rw [heq]
      exact AList.lookup_isSome.mp (by rw [hload]; rfl)
    have hset := countP_setCall hcall call' url
    rw [if_neg hne, waitsFor_none hnone] at hset
    have hcount := h url count hload
    simp only [Bool.false_eq_true, if_false] at hset
    omega

/-- The call waits no longer and its worker's load is decremented. -/
theorem Counts.answered (h : Counts s.runningQueue s.calls) (hcall : s.calls[client]? = some call)
    (hpending : call.pending = some sel) (hnone : call'.pending = none)
    (hload : s.runningQueue.lookup sel.url = some count) :
    Counts (s.runningQueue.insert sel.url (count - 1)) (s.calls.set client call') := by
  intro url load hlookup
  have hset := countP_setCall hcall call' url
  rw [waitsFor_none hnone] at hset
  by_cases hurl : sel.url = url
  · subst hurl
    rw [if_pos ((waitsFor_some hpending _).mpr rfl)] at hset
    rw [AList.lookup_insert] at hlookup
    have hcount := h _ _ hload
    have hdown := Option.some.inj hlookup
    simp only [Bool.false_eq_true, if_false] at hset
    omega
  · rw [if_neg fun hw => hurl ((waitsFor_some hpending _).mp hw)] at hset
    rw [AList.lookup_insert_ne fun heq => hurl heq.symm] at hlookup
    have hcount := h _ _ hlookup
    simp only [Bool.false_eq_true, if_false] at hset
    omega

/-- The load of a worker is decremented while the call waits as before. -/
theorem Counts.zero_of_decrement (h : Counts s.runningQueue s.calls)
    (hcall : s.calls[client]? = some call)
    (hsame : call'.pending.map Selection.url = call.pending.map Selection.url)
    (hload : s.runningQueue.lookup url = some count)
    (h' : Counts (s.runningQueue.insert url (count - 1)) (s.calls.set client call')) :
    count = 0 := by
  have hset := countP_setCall hcall call' url
  rw [waitsFor_eq hsame url] at hset
  have hcount := h _ _ hload
  have hcount' := h' url _ (AList.lookup_insert _)
  omega

/-- A request is routed to a worker. -/
theorem Counts.routed {other : String} (h : Counts s.runningQueue s.calls)
    (hcall : s.calls[client]? = some call) (hnone : call.pending = none)
    (hpending : call'.pending = some sel') (hurl : sel'.url = other)
    (hload : s.runningQueue.lookup other = some count) :
    Counts (s.runningQueue.insert other (count + 1)) (s.calls.set client call') := by
  subst hurl
  intro url load hlookup
  have hset := countP_setCall hcall call' url
  rw [waitsFor_none hnone] at hset
  by_cases hurl : sel'.url = url
  · subst hurl
    rw [if_pos ((waitsFor_some hpending _).mpr rfl)] at hset
    rw [AList.lookup_insert] at hlookup
    have hcount := h _ _ hload
    have hup := Option.some.inj hlookup
    simp only [Bool.false_eq_true, if_false] at hset
    omega
  · rw [if_neg fun hw => hurl ((waitsFor_some hpending _).mp hw)] at hset
    rw [AList.lookup_insert_ne fun heq => hurl heq.symm] at hlookup
    have hcount := h _ _ hlookup
    simp only [Bool.false_eq_true, if_false] at hset
    omega

/-- The load of a worker is gone with the request that removes it. -/
theorem Counts.removed (h : Counts s.runningQueue s.calls) (hcall : s.calls[client]? = some call)
    (hpending : call.pending = some sel) (hnone : call'.pending = none) :
    Counts (s.runningQueue.erase sel.url) (s.calls.set client call') := by
  intro url load hlookup
  by_cases hurl : url = sel.url
  · rw [hurl, AList.lookup_erase] at hlookup
    cases hlookup
  · rw [AList.lookup_erase_ne hurl] at hlookup
    have hset := countP_setCall hcall call' url
    rw [waitsFor_none hnone, if_neg fun hw => hurl ((waitsFor_some hpending _).mp hw).symm] at hset
    have hcount := h _ _ hlookup
    simp only [Bool.false_eq_true, if_false] at hset
    omega

end RouterLoads

variable {sel sel' : Selection} {call call' : RouteCall} {forwarded bytes : List UInt8}

/-- A failed attempt leaves the request with the worker and its load. -/
theorem Selection.fail_spec (sel : Selection) : ∃ sel' : Selection,
    sel.fail.pending = some sel' ∧ sel.fail.selection = some sel' ∧ sel'.url = sel.url ∧
      sel'.decrements = sel.decrements := by
  unfold Selection.fail
  simp only
  split
  next => exact ⟨_, rfl, rfl, rfl, rfl⟩
  next => exact ⟨_, rfl, rfl, rfl, rfl⟩

theorem outerLoop_idle (isStream : Bool) (totalRetries : Nat) :
    (outerLoop isStream totalRetries).pending = none ∧
      (outerLoop isStream totalRetries).selection = none := by
  unfold outerLoop
  split
  next => exact ⟨rfl, rfl⟩
  next => exact ⟨rfl, rfl⟩

theorem hasFinalEvent_append (h : hasFinalEvent forwarded = true) (bytes : List UInt8) :
    hasFinalEvent (forwarded ++ bytes) = true := by
  unfold hasFinalEvent at h ⊢
  rw [Bool.or_eq_true, decide_eq_true_eq, decide_eq_true_eq] at h ⊢
  rcases h with h | h
  · exact .inl (h.trans (List.prefix_append _ _))
  · exact .inr (h.trans (List.prefix_append _ _).isInfix)

theorem RouteCall.pending_streaming (h : hasFinalEvent forwarded = true) :
    (RouteCall.streaming sel forwarded).pending = none := if_pos h

theorem RouteCall.pending_streaming' (h : ¬ hasFinalEvent forwarded = true) :
    (RouteCall.streaming sel forwarded).pending = some sel := if_neg h

namespace RouterLoads

variable {s s' : RouterLoads} {client count : Nat} {action : LoadStep}

/-- The account is right, and a selection has been counted down if its request is answered. -/
structure Settled (s : RouterLoads) : Prop where
  counts : Counts s.runningQueue s.calls
  once : ∀ call ∈ s.calls, ∀ sel, call.selection = some sel → sel.decrements ≤ 1
  linked : ∀ call ∈ s.calls, ∀ sel, call.selection = some sel → sel.url ∈ s.runningQueue →
    (sel.decrements = 0 ↔ call.pending = some sel)

theorem Settled.accounts (h : s.Settled) : s.Accounts := ⟨h.counts, h.once⟩

/-- The state is right if the condition holds, and only then. -/
structure Decides (kept : Prop) (s' : RouterLoads) : Prop where
  settled : kept → s'.Settled
  kept : s'.Accounts → kept

theorem Decides.of_settled {kept : Prop} (h : s'.Settled) (hkept : kept) : Decides kept s' :=
  ⟨fun _ => h, fun _ => hkept⟩

theorem Decides.congr {kept kept' : Prop} (heq : kept ↔ kept') (h : Decides kept s') :
    Decides kept' s' :=
  ⟨fun hk => h.settled (heq.mpr hk), fun hs => heq.mp (h.kept hs)⟩

/-- The other calls are as they were. -/
theorem Settled.setCall (h : s.Settled) (hcalls : s'.calls = s.calls.set client call')
    (hmem : ∀ url, url ∈ s'.runningQueue → url ∈ s.runningQueue)
    (hcounts : Counts s'.runningQueue s'.calls)
    (hnew : ∀ sel, call'.selection = some sel → sel.decrements ≤ 1 ∧
      (sel.url ∈ s'.runningQueue → (sel.decrements = 0 ↔ call'.pending = some sel))) :
    s'.Settled := by
  refine ⟨hcounts, ?_, ?_⟩
  · intro call hcall sel hsel
    rw [hcalls] at hcall
    rcases List.mem_or_eq_of_mem_set hcall with hcall | rfl
    · exact h.once call hcall sel hsel
    · exact (hnew sel hsel).1
  · intro call hcall sel hsel hurl
    rw [hcalls] at hcall
    rcases List.mem_or_eq_of_mem_set hcall with hcall | rfl
    · exact h.linked call hcall sel hsel (hmem _ hurl)
    · exact (hnew sel hsel).2 hurl

/-- The call goes on with its request outstanding. -/
theorem Settled.moved (h : s.Settled) (hcall : s.calls[client]? = some call)
    (hcalls : s'.calls = s.calls.set client call') (hqueue : s'.runningQueue = s.runningQueue)
    (hsel : call.selection = some sel) (hpending : call.pending = some sel)
    (hsel' : call'.selection = some sel') (hpending' : call'.pending = some sel')
    (hurl : sel'.url = sel.url) (hdecrements : sel'.decrements = sel.decrements) :
    s'.Settled := by
  have hmem := List.mem_of_getElem? hcall
  apply h.setCall hcalls
  · exact fun url hurl => hqueue ▸ hurl
  · rw [hqueue, hcalls]
    apply h.counts.same hcall
    rw [hpending, hpending', Option.map_some, Option.map_some, hurl]
  · intro sel₁ hsel₁
    obtain rfl := Option.some.inj (hsel'.symm.trans hsel₁)
    refine ⟨hdecrements ▸ h.once call hmem sel hsel, ?_⟩
    intro hin
    rw [hdecrements]
    rw [hqueue, hurl] at hin
    exact iff_of_true ((h.linked call hmem sel hsel hin).mpr hpending) hpending'

/-- The call ends without being outstanding. -/
theorem Settled.ended (h : s.Settled) (hcall : s.calls[client]? = some call)
    (hcalls : s'.calls = s.calls.set client call') (hqueue : s'.runningQueue = s.runningQueue)
    (hpending : call.pending = none) (hpending' : call'.pending = none)
    (hsel' : call'.selection = none) : s'.Settled := by
  apply h.setCall hcalls
  · exact fun url hurl => hqueue ▸ hurl
  · rw [hqueue, hcalls]
    exact h.counts.same hcall (by rw [hpending, hpending'])
  · intro sel hsel
    rw [hsel'] at hsel
    cases hsel

/-- The call ends while its request is outstanding. -/
theorem Settled.left (h : s.Settled) (hcall : s.calls[client]? = some call)
    (hcalls : s'.calls = s.calls.set client call') (hqueue : s'.runningQueue = s.runningQueue)
    (hpending : call.pending = some sel) (hpending' : call'.pending = none)
    (hsel' : ∀ sel', call'.selection = some sel' →
      call.selection = some sel' ∧ sel'.url = sel.url) :
    Decides (sel.url ∉ s.runningQueue) s' := by
  have hleft := h.counts.left_iff hcall hpending hpending'
  constructor
  · intro hgone
    apply h.setCall hcalls
    · exact fun url hurl => hqueue ▸ hurl
    · rw [hqueue, hcalls]
      exact hleft.mpr hgone
    · intro sel₁ hsel₁
      obtain ⟨hold, hurl⟩ := hsel' sel₁ hsel₁
      refine ⟨h.once call (List.mem_of_getElem? hcall) sel₁ hold, ?_⟩
      intro hin
      rw [hqueue, hurl] at hin
      exact absurd hin hgone
  · intro ha
    have hcounts : Counts s'.runningQueue s'.calls := ha.counts
    rw [hqueue, hcalls] at hcounts
    exact hleft.mp hcounts

/-- An attempt fails and the load is not touched. -/
theorem Settled.failed (h : s.Settled) (hcall : s.calls[client]? = some call)
    (hsel : call.selection = some sel) (hpending : call.pending = some sel) :
    (s.setCall client sel.fail).Settled := by
  obtain ⟨sel', hpending', hsel', hurl, hdecrements⟩ := sel.fail_spec
  exact h.moved hcall rfl rfl hsel hpending hsel' hpending' hurl hdecrements

end RouterLoads

end FastPP
