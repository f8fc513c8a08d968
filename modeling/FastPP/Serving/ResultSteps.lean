import FastPP.Serving.LostResults

namespace FastPP

namespace TokenizerManager

variable {β : Type} {uuid : Nat → String} {m m' : TokenizerManager β} {i : Nat} {w : Waiter β}
  {out : OutDict β}

/-- A final output comes to a generator that has been started and has not ended, and no output to
one that still has its final output to yield. -/
def OutOnTime (m : TokenizerManager β) (out : OutDict β) : Prop :=
  m.hasAborted out.rid = false →
    (out.finishReason.isSome = true →
      ∃ w ∈ m.waiters, w.obj.rid = out.rid ∧ w.place.running = true) ∧
    ∀ w ∈ m.waiters, w.obj.rid = out.rid → w.place.running = true → w.state.finished = false

def OutsOnTime (m : TokenizerManager β) : List (OutDict β) → Prop
  | [] => True
  | out :: outs => m.OutOnTime out ∧ OutsOnTime (m.handleOutput out) outs

def OnTime (m : TokenizerManager β) : ManagerEvent β → Prop
  | .received outs => m.OutsOnTime outs
  | _ => True

theorem start_change (hrunning : ¬ w.place.running = true) : m.Change i w w.start (m.start i w) := by
  refine ⟨rfl, rfl, ?_, id, ?_, ?_, ?_, ?_, ?_⟩
  · intro rid hrid
    exact ⟨if_neg hrid, rfl⟩
  · intro j hj
    have hself : (m.start i w).ridToState w.obj.rid = some i := if_pos rfl
    rw [hself] at hj
    exact ⟨(Option.some.inj hj).symm, rfl⟩
  · intro _ _
    exact if_pos rfl
  · intro _ hevent
    exact nomatch hevent
  · intro _ out hgiven
    rcases hgiven with hmem | hstores
    · exact .inl hmem
    · exact absurd hstores.running hrunning
  · intro out hout
    exact .inl hout

theorem Registered.start (inv : m.Registered) (hw : m.waiters[i]? = some w)
    (hflight : w.place ≠ .ended) (hrunning : ¬ w.place.running = true) :
    (m.start i w).Registered :=
  inv.change hw hflight (start_change hrunning)

theorem distinctRids_of_start (hw : m.waiters[i]? = some w) (h : (m.start i w).DistinctRids) :
    m.DistinctRids := by
  have hi := (List.getElem?_eq_some_iff.mp hw).1
  have hnew : ∀ (j : Nat) (u : Waiter β), m.waiters[j]? = some u → u.place ≠ .ended →
      ∃ u', (m.start i w).waiters[j]? = some u' ∧ u'.obj = u.obj ∧ u'.place ≠ .ended := by
    intro j u hu hplace
    by_cases hj : i = j
    · subst hj
      cases hw.symm.trans hu
      exact ⟨w.start, List.getElem?_set_self hi, rfl, by simp [Waiter.start]⟩
    · exact ⟨u, (List.getElem?_set_ne hj).trans hu, rfl, hplace⟩
  intro j k u u' hu hu' hrid hplace hplace'
  obtain ⟨x, hx, hxobj, hxplace⟩ := hnew j u hu hplace
  obtain ⟨y, hy, hyobj, hyplace⟩ := hnew k u' hu' hplace'
  exact h j k x y hx hy (by rw [hxobj, hyobj, hrid]) hxplace hyplace

/-- A request that is sent and awaited at once is registered. -/
theorem Registered.sendAndWait {obj : WaitObj} {hasRequest : Bool} (inv : m.Registered)
    (hdistinct : (m.sendAndWait obj hasRequest).DistinctRids) :
    (m.sendAndWait obj hasRequest).Registered := by
  have hnew : (m.sendRequest obj hasRequest).waiters[m.waiters.length]? =
      some (Waiter.new obj hasRequest) := by simp [TokenizerManager.sendRequest]
  have hsent := inv.quiet (.sendRequest m obj hasRequest) (distinctRids_of_start hnew hdistinct)
  apply hsent.start hnew
  · simp [Waiter.new]
  · simp [Waiter.new, Suspension.running]

theorem Registered.tokenizeNext {left : List WaitObj} {generators : List Nat} (inv : m.Registered)
    (hdistinct : (m.tokenizeNext left generators).1.DistinctRids) :
    (m.tokenizeNext left generators).1.Registered := by
  cases left with
  | nil => exact inv.quiet (.schedule m generators) hdistinct
  | cons obj left => exact inv

theorem Registered.cacheNext {hasRequest : Bool} {left objs : List WaitObj} {n : Nat}
    (inv : m.Registered)
    (hdistinct : (m.cacheNext uuid hasRequest left objs n).1.DistinctRids) :
    (m.cacheNext uuid hasRequest left objs n).1.Registered := by
  cases left with
  | nil => exact inv.quiet ((Quiet.sendExpanded hasRequest m _).trans (.schedule _ _)) hdistinct
  | cons obj left =>
    have hdrawn := inv.quiet (.regenerateRid uuid m obj) inv.distinct
    exact hdrawn.sendAndWait hdistinct

theorem Registered.firstAwait {call : GenerateCall} (inv : m.Registered)
    (hdistinct : (m.firstAwait call).1.DistinctRids) : (m.firstAwait call).1.Registered := by
  cases call with
  | single obj => exact inv
  | batch objs n =>
    simp only [TokenizerManager.firstAwait] at hdistinct ⊢
    by_cases hn : n = 1
    · rw [if_pos hn] at hdistinct ⊢
      exact inv.tokenizeNext hdistinct
    · rw [if_neg hn]
      exact inv

/-- A task that goes on after tokenizing. -/
theorem Registered.afterTokenizing {task : HandlerTask} {handler : Handler} (inv : m.Registered)
    (h : m.afterTokenizing uuid task = some (m', handler)) (hdistinct : m'.DistinctRids) :
    m'.Registered := by
  unfold TokenizerManager.afterTokenizing at h
  split at h
  next obj _ =>
    cases h
    exact inv.sendAndWait hdistinct
  next obj left generators _ =>
    have hm : ((m.sendRequest obj task.hasRequest).tokenizeNext left
      (generators ++ [m.waiters.length])).1 = m' := congrArg Prod.fst (Option.some.inj h)
    subst hm
    have hsent : (m.sendRequest obj task.hasRequest).DistinctRids := by
      cases left with
      | nil => exact (Quiet.schedule _ _).distinctRids hdistinct
      | cons obj left => exact hdistinct
    exact (inv.quiet (.sendRequest m obj _) hsent).tokenizeNext hdistinct
  next objs n _ =>
    have hm : (m.cacheNext uuid task.hasRequest objs objs n).1 = m' :=
      congrArg Prod.fst (Option.some.inj h)
    subst hm
    exact inv.cacheNext hdistinct
  all_goals exact nomatch h

theorem Registered.afterCaching {task : HandlerTask} {handler : Handler} (inv : m.Registered)
    (h : m.afterCaching uuid task = some (m', handler)) (hdistinct : m'.DistinctRids) :
    m'.Registered := by
  unfold TokenizerManager.afterCaching at h
  split at h
  next generator left objs n _ =>
    obtain ⟨w, _, h⟩ := Option.bind_eq_some_iff.mp h
    split at h
    next =>
      have hm : (m.cacheNext uuid task.hasRequest left objs n).1 = m' :=
        congrArg Prod.fst (Option.some.inj h)
      subst hm
      exact inv.cacheNext hdistinct
    next =>
      split at h
      next =>
        cases h
        exact inv
      next => exact nomatch h
  all_goals exact nomatch h

/-- A running generator's request is found in the dict, or was aborted. -/
theorem Registered.entry_self (inv : m.Registered) (hw : m.waiters[i]? = some w)
    (hflight : w.place ≠ .ended) {j : Nat} (hj : m.ridToState w.obj.rid = some j) :
    j = i ∧ w.place.running = true := by
  obtain ⟨v, hv, hrid, hrunning⟩ := inv.entry _ j hj
  have hended := Suspension.running_ne_ended hrunning
  have hji := inv.distinct j i v w hv hw hrid hended hflight
  subst hji
  cases hw.symm.trans hv
  exact ⟨rfl, hrunning⟩

theorem abortRequest_waiters (m : TokenizerManager β) (rid : String) :
    (m.abortRequest rid).waiters = m.waiters := by
  unfold abortRequest
  split <;> rfl

theorem abortRequest_received (m : TokenizerManager β) (rid : String) :
    (m.abortRequest rid).received = m.received := by
  unfold abortRequest
  split <;> rfl

/-- The abort of a request takes its state out of the dict. -/
theorem abortRequest_change (inv : m.Registered) (hw : m.waiters[i]? = some w)
    (hrunning : w.place.running = true) {v : Waiter β} (hobj : v.obj = w.obj)
    (hfilled : v.place.running = true → v.state.event = true → v.state.outList ≠ []) :
    m.Change i w v ((m.abortRequest w.obj.rid).setWaiter i v) := by
  have haborted : ((m.abortRequest w.obj.rid).setWaiter i v).hasAborted w.obj.rid ≠ false := by
    by_cases hsome : (m.ridToState w.obj.rid).isSome = true
    · simp [abortRequest, hsome, hasAborted, setWaiter, unregister]
    · rw [abortRequest, if_neg hsome]
      intro hnot
      have hlive := inv.live i w hw hrunning hnot
      rw [hlive] at hsome
      exact hsome rfl
  have hunregistered : ((m.abortRequest w.obj.rid).setWaiter i v).ridToState w.obj.rid = none := by
    unfold abortRequest
    split
    next => exact if_pos rfl
    next hnone => exact Option.not_isSome_iff_eq_none.mp hnone
  refine ⟨?_, hobj, ?_, ?_, ?_, ?_, hfilled, ?_, ?_⟩
  · show (m.abortRequest w.obj.rid).waiters.set i v = m.waiters.set i v
    rw [abortRequest_waiters]
  · intro rid hrid
    unfold abortRequest
    split
    next =>
      refine ⟨if_neg hrid, ?_⟩
      simp [hasAborted, setWaiter, unregister, hrid]
    next => exact ⟨rfl, rfl⟩
  · intro hfalse
    exact absurd hfalse haborted
  · intro j hj
    rw [hunregistered] at hj
    cases hj
  · intro _ hfalse
    exact absurd hfalse haborted
  · intro hfalse
    exact absurd hfalse haborted
  · intro out hout
    have hold : out ∈ (m.abortRequest w.obj.rid).received := hout
    rw [abortRequest_received] at hold
    exact .inl hold

/-- `abort_request` from outside. -/
theorem Registered.abortRequest (inv : m.Registered) (rid : String) :
    (m.abortRequest rid).Registered := by
  by_cases hsome : (m.ridToState rid).isSome = true
  · obtain ⟨i, hi⟩ := Option.isSome_iff_exists.mp hsome
    obtain ⟨w, hw, rfl, hrunning⟩ := inv.entry rid i hi
    have hflight := Suspension.running_ne_ended hrunning
    have hset : (m.abortRequest w.obj.rid).setWaiter i w = m.abortRequest w.obj.rid := by
      have hwaiters := abortRequest_waiters m w.obj.rid
      have hsame : m.waiters.set i w = m.waiters := by
        obtain ⟨hlt, hget⟩ := List.getElem?_eq_some_iff.mp hw
        rw [← hget]
        exact List.set_getElem_self hlt
      unfold setWaiter
      rw [hwaiters, hsame, ← hwaiters]
    have hchange := abortRequest_change inv hw hrunning rfl (inv.filled i w hw)
    rw [hset] at hchange
    exact inv.change hw hflight hchange
  · rw [TokenizerManager.abortRequest, if_neg hsome]
    exact inv

/-- A generator that takes its last output from `out_list`. -/
theorem Registered.wake (inv : m.Registered) (hw : m.waiters[i]? = some w)
    (hplace : w.place = .waiting) (hevent : w.state.event = true) : (m.wake i w).Registered := by
  have hrunning : w.place.running = true := by
    rw [hplace]
    rfl
  have hflight : w.place ≠ .ended := by simp [hplace]
  have hself := fun j => inv.entry_self hw hflight (j := j)
  obtain ⟨out, hlast⟩ : ∃ out, w.state.outList.getLast? = some out :=
    ⟨_, List.getLast?_eq_some_getLast (inv.filled i w hw hrunning hevent)⟩
  have hstored : ∀ out', w.Stores out' → out' = out := fun out' hstores =>
    Option.some.inj (hstores.last.symm.trans hlast)
  unfold TokenizerManager.wake
  rw [hlast]
  cases hfinished : w.state.finished with
  | true =>
    apply inv.change (v := w.wake out (m.ridToState w.obj.rid).isSome) hw hflight
    have hended : (w.wake out (m.ridToState w.obj.rid).isSome).place = .ended := by
      simp [Waiter.wake, hfinished]
    have hnotRunning : (w.wake out (m.ridToState w.obj.rid).isSome).place.running = false := by
      rw [hended]
      rfl
    refine ⟨rfl, by simp [Waiter.wake, hfinished], ?_, id, ?_, ?_, ?_, ?_, fun out hout => .inl hout⟩
    · intro rid hrid
      exact ⟨if_neg hrid, rfl⟩
    · intro j hj
      have hnone : ((m.setWaiter i (w.wake out (m.ridToState w.obj.rid).isSome)).unregister
        w.obj.rid).ridToState w.obj.rid = none := if_pos rfl
      exact absurd (hnone.symm.trans hj) (by simp)
    · intro hr
      exact absurd (hnotRunning.symm.trans hr) (by simp)
    · intro hr
      exact absurd (hnotRunning.symm.trans hr) (by simp)
    · intro haborted out' hgiven
      have hlive := inv.live i w hw hrunning haborted
      left
      have hyields : (w.wake out (m.ridToState w.obj.rid).isSome).yields = w.yields ++ [out] := by
        simp [Waiter.wake, hfinished, hlive]
      rw [hyields, List.mem_append, List.mem_singleton]
      exact hgiven.imp id (hstored out')
  | false =>
    apply inv.change (v := w.wake out (m.ridToState w.obj.rid).isSome) hw hflight
    have hwoken : (w.wake out (m.ridToState w.obj.rid).isSome).obj = w.obj ∧
        (w.wake out (m.ridToState w.obj.rid).isSome).place.running = true ∧
        (w.wake out (m.ridToState w.obj.rid).isSome).state.event = false ∧
        ∀ out' ∈ w.yields, out' ∈ (w.wake out (m.ridToState w.obj.rid).isSome).yields := by
      unfold Waiter.wake
      rw [hfinished, if_neg Bool.false_ne_true]
      by_cases hstream : w.obj.stream = true
      · rw [if_pos hstream]
        exact ⟨rfl, rfl, rfl, fun out' hout' => List.mem_append_left _ hout'⟩
      · rw [if_neg hstream]
        refine ⟨rfl, ?_, rfl, fun _ hout' => hout'⟩
        unfold Waiter.check
        cases w.hasRequest <;> rfl
    obtain ⟨hobj, hstill, hcleared, hkept⟩ := hwoken
    refine ⟨rfl, hobj, fun rid _ => ⟨rfl, rfl⟩, id, ?_, ?_, ?_, ?_, fun out hout => .inl hout⟩
    · intro j hj
      exact ⟨(hself j hj).1, hstill⟩
    · intro _ haborted
      exact inv.live i w hw hrunning haborted
    · intro _ hset
      exact absurd (hcleared.symm.trans hset) (by simp)
    · intro _ out' hgiven
      rcases hgiven with hmem | hstores
      · exact .inl (hkept out' hmem)
      · exact absurd (hfinished.symm.trans hstores.finished) (by simp)

/-- An output on time is stored. -/
theorem Registered.handleOutput (inv : m.Registered) (htime : m.OutOnTime out) :
    (m.handleOutput out).Registered := by
  unfold TokenizerManager.handleOutput
  split
  next hnone =>
    refine ⟨inv.distinct, inv.entry, inv.live, inv.filled, ?_⟩
    intro out' hout' hfinal haborted
    rcases List.mem_append.mp hout' with hold | hnew
    · exact inv.given out' hold hfinal haborted
    · rcases List.mem_singleton.mp hnew with rfl
      obtain ⟨w, hw, hrid, hrunning⟩ := (htime haborted).1 hfinal
      obtain ⟨i, hi⟩ := List.getElem?_of_mem hw
      have hlive := inv.live i w hi hrunning (by rw [hrid]; exact haborted)
      rw [hrid, hnone] at hlive
      exact nomatch hlive
  next i hi =>
    obtain ⟨w, hw, hrid, hrunning⟩ := inv.entry _ i hi
    have hflight := Suspension.running_ne_ended hrunning
    rw [hw]
    apply inv.change (v := w.store out) hw hflight
    refine ⟨rfl, rfl, fun rid _ => ⟨rfl, rfl⟩, id, ?_, ?_, ?_, ?_, ?_⟩
    · intro j hj
      exact ⟨(inv.entry_self hw hflight hj).1, hrunning⟩
    · intro _ haborted
      exact inv.live i w hw hrunning haborted
    · intro _ _
      exact List.append_ne_nil_of_right_ne_nil _ (List.cons_ne_nil out [])
    · intro haborted out' hgiven
      rw [hrid] at haborted
      rcases hgiven with hmem | hstores
      · exact .inl hmem
      · have hunfinished := (htime haborted).2 w (List.mem_of_getElem? hw) hrid hrunning
        exact absurd (hunfinished.symm.trans hstores.finished) (by simp)
    · intro out' hout'
      rcases List.mem_append.mp hout' with hold | hnew
      · exact .inl hold
      · rcases List.mem_singleton.mp hnew with rfl
        refine .inr ⟨hrid.symm, fun hfinal _ => .inr ⟨hrunning, ?_, hfinal, rfl⟩⟩
        exact List.getLast?_concat

theorem Registered.received (inv : m.Registered) {outs : List (OutDict β)}
    (htime : m.OutsOnTime outs) : (outs.foldl TokenizerManager.handleOutput m).Registered := by
  induction outs generalizing m with
  | nil => exact inv
  | cons out outs ih => exact ih (inv.handleOutput htime.1) htime.2

/-- One event, by what it does. -/
theorem Registered.step {event : ManagerEvent β} (inv : m.Registered) (htime : m.OnTime event)
    (h : m.step uuid event = some m') (hdistinct : m'.DistinctRids) : m'.Registered := by
  cases event with
  | generate call hasRequest =>
    cases h
    have hfirst : (m.firstAwait call).1.DistinctRids := hdistinct
    exact (inv.firstAwait hfirst).quiet (.addTask _ _) hdistinct
  | tokenized k =>
    obtain ⟨task, _, h⟩ := Option.bind_eq_some_iff.mp h
    obtain ⟨⟨m₁, handler⟩, hafter, h⟩ := Option.bind_eq_some_iff.mp h
    cases h
    exact (inv.afterTokenizing hafter hdistinct).quiet (.setTask _ _ _) hdistinct
  | refused k =>
    obtain ⟨task, _, h⟩ := Option.bind_eq_some_iff.mp h
    split at h
    next =>
      cases h
      exact inv.quiet (.setTask _ _ _) hdistinct
    next => exact nomatch h
  | cached k =>
    obtain ⟨task, _, h⟩ := Option.bind_eq_some_iff.mp h
    obtain ⟨⟨m₁, handler⟩, hafter, h⟩ := Option.bind_eq_some_iff.mp h
    cases h
    exact (inv.afterCaching hafter hdistinct).quiet (.setTask _ _ _) hdistinct
  | started i =>
    obtain ⟨w, hw, h⟩ := Option.bind_eq_some_iff.mp h
    split at h
    next hplace =>
      cases h
      exact inv.start hw (by simp [hplace]) (by simp [hplace, Suspension.running])
    next => exact nomatch h
  | woken i =>
    obtain ⟨w, hw, h⟩ := Option.bind_eq_some_iff.mp h
    split at h
    next hplace =>
      cases h
      exact inv.wake hw hplace.1 hplace.2
    next => exact nomatch h
  | timedOut i =>
    obtain ⟨w, hw, h⟩ := Option.bind_eq_some_iff.mp h
    split at h
    next hplace =>
      cases h
      refine inv.quiet (.setWaiter hw ⟨rfl, rfl, rfl, ?_, ?_⟩) hdistinct
      · rw [hplace]
        unfold Waiter.check
        cases w.hasRequest <;> rfl
      · rw [hplace]
        unfold Waiter.check
        cases w.hasRequest <;> simp
    next => exact nomatch h
  | checked i disconnected =>
    obtain ⟨w, hw, h⟩ := Option.bind_eq_some_iff.mp h
    split at h
    next hplace =>
      split at h
      next =>
        cases h
        apply inv.change (v := { w with place := .ended }) hw (by simp [hplace])
        apply abortRequest_change (v := { w with place := .ended }) inv hw (by rw [hplace]; rfl) rfl
        intro hrunning
        exact nomatch hrunning
      next =>
        cases h
        refine inv.quiet (.setWaiter hw ⟨rfl, rfl, rfl, ?_, ?_⟩) hdistinct
        · rw [hplace]
          rfl
        · simp [hplace]
    next => exact nomatch h
  | resumed i =>
    obtain ⟨w, hw, h⟩ := Option.bind_eq_some_iff.mp h
    split at h
    next hplace =>
      cases h
      refine inv.quiet (.setWaiter hw ⟨rfl, rfl, rfl, ?_, ?_⟩) hdistinct
      · rw [hplace]
        rfl
      · simp [hplace]
    next => exact nomatch h
  | received outs =>
    simp only [TokenizerManager.step] at h
    split at h
    next =>
      cases h
      exact inv.received htime
    next => exact nomatch h
  | aborted rid =>
    cases h
    exact inv.abortRequest rid

end TokenizerManager

end FastPP
