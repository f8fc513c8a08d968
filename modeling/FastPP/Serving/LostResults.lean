import FastPP.Serving.TokenizerManager

namespace FastPP

variable {β : Type}

namespace Waiter

variable {w v u : Waiter β}

/-- A final output is stored, and the next that the generator yields. -/
structure Stores (w : Waiter β) (out : OutDict β) : Prop where
  running : w.place.running = true
  last : w.state.outList.getLast? = some out
  finished : w.state.finished = true
  event : w.state.event = true

/-- The same generator, at another place in the same phase. -/
structure Alike (w v : Waiter β) : Prop where
  obj : v.obj = w.obj
  state : v.state = w.state
  yields : v.yields = w.yields
  running : v.place.running = w.place.running
  ended : v.place = .ended ↔ w.place = .ended

theorem Alike.refl (w : Waiter β) : w.Alike w := ⟨rfl, rfl, rfl, rfl, Iff.rfl⟩

theorem Alike.trans (h : w.Alike v) (h' : v.Alike u) : w.Alike u :=
  ⟨h'.obj.trans h.obj, h'.state.trans h.state, h'.yields.trans h.yields,
    h'.running.trans h.running, h'.ended.trans h.ended⟩

theorem Alike.stores {out : OutDict β} (h : w.Alike v) (hw : w.Stores out) : v.Stores out := by
  obtain ⟨hrunning, hlast, hfinished, hevent⟩ := hw
  rw [← h.state] at hlast hfinished hevent
  exact ⟨h.running.trans hrunning, hlast, hfinished, hevent⟩

end Waiter

namespace TokenizerManager

variable {uuid : Nat → String} {m m' m₁ : TokenizerManager β} {i : Nat} {w v : Waiter β}
  {out : OutDict β}

/-- Requests in flight have different ids. -/
def DistinctRids (m : TokenizerManager β) : Prop :=
  ∀ (i j : Nat) (w v : Waiter β), m.waiters[i]? = some w → m.waiters[j]? = some v →
    w.obj.rid = v.obj.rid → w.place ≠ .ended → v.place ≠ .ended → i = j

/-- The output has been yielded for its request, or is stored in its state. -/
def Given (m : TokenizerManager β) (out : OutDict β) : Prop :=
  ∃ (i : Nat) (w : Waiter β), m.waiters[i]? = some w ∧ w.obj.rid = out.rid ∧
    (out ∈ w.yields ∨ w.Stores out)

/-- What holds between the events. -/
structure Registered (m : TokenizerManager β) : Prop where
  distinct : m.DistinctRids
  entry : ∀ rid i, m.ridToState rid = some i →
    ∃ w : Waiter β, m.waiters[i]? = some w ∧ w.obj.rid = rid ∧ w.place.running = true
  live : ∀ (i : Nat) (w : Waiter β), m.waiters[i]? = some w → w.place.running = true →
    m.hasAborted w.obj.rid = false → m.ridToState w.obj.rid = some i
  filled : ∀ (i : Nat) (w : Waiter β), m.waiters[i]? = some w → w.place.running = true →
    w.state.event = true → w.state.outList ≠ []
  given : ∀ out ∈ m.received, out.finishReason.isSome = true → m.hasAborted out.rid = false →
    m.Given out

theorem init_registered : (init : TokenizerManager β).Registered :=
  ⟨fun _ _ _ _ h => (nomatch h), fun _ _ h => (nomatch h), fun _ _ h => (nomatch h),
    fun _ _ h => (nomatch h), fun _ h => (nomatch h)⟩

/-- No generator enters or leaves the loop of `_wait_one_response`, and none is lost. -/
structure Quiet (m m' : TokenizerManager β) : Prop where
  ridToState : m'.ridToState = m.ridToState
  received : m'.received = m.received
  aborted : ∀ rid, m'.hasAborted rid = m.hasAborted rid
  kept : ∀ (i : Nat) (w : Waiter β), m.waiters[i]? = some w →
    ∃ v, m'.waiters[i]? = some v ∧ w.Alike v
  added : ∀ (i : Nat) (v : Waiter β), m'.waiters[i]? = some v →
    (∃ w, m.waiters[i]? = some w) ∨ v.place.running = false ∧ v.place ≠ .ended

namespace Quiet

theorem refl (m : TokenizerManager β) : m.Quiet m :=
  ⟨rfl, rfl, fun _ => rfl, fun _ w hw => ⟨w, hw, .refl w⟩, fun _ v hv => .inl ⟨v, hv⟩⟩

theorem trans (h : m.Quiet m₁) (h' : m₁.Quiet m') : m.Quiet m' := by
  refine ⟨h'.ridToState.trans h.ridToState, h'.received.trans h.received,
    fun rid => (h'.aborted rid).trans (h.aborted rid), ?_, ?_⟩
  · intro i w hw
    obtain ⟨v, hv, hwv⟩ := h.kept i w hw
    obtain ⟨u, hu, hvu⟩ := h'.kept i v hv
    exact ⟨u, hu, hwv.trans hvu⟩
  · intro i u hu
    rcases h'.added i u hu with ⟨v, hv⟩ | hnew
    · rcases h.added i v hv with hold | ⟨hrunning, hended⟩
      · exact .inl hold
      · obtain ⟨u', hu', hvu⟩ := h'.kept i v hv
        cases hu.symm.trans hu'
        exact .inr ⟨hvu.running.trans hrunning, fun h => hended (hvu.ended.mp h)⟩
    · exact .inr hnew

theorem addTask (m : TokenizerManager β) (task : HandlerTask) : m.Quiet (m.addTask task) :=
  ⟨rfl, rfl, fun _ => rfl, fun _ w hw => ⟨w, hw, .refl w⟩, fun _ v hv => .inl ⟨v, hv⟩⟩

theorem setTask (m : TokenizerManager β) (h : Nat) (task : HandlerTask) : m.Quiet (m.setTask h task) :=
  ⟨rfl, rfl, fun _ => rfl, fun _ w hw => ⟨w, hw, .refl w⟩, fun _ v hv => .inl ⟨v, hv⟩⟩

theorem sendRequest (m : TokenizerManager β) (obj : WaitObj) (hasRequest : Bool) :
    m.Quiet (m.sendRequest obj hasRequest) := by
  refine ⟨rfl, rfl, ?_, ?_, ?_⟩
  · intro rid
    simp [hasAborted, TokenizerManager.sendRequest]
  · intro i w hw
    have hi := (List.getElem?_eq_some_iff.mp hw).1
    exact ⟨w, (List.getElem?_append_left hi).trans hw, .refl w⟩
  · intro i v hv
    by_cases hi : i < m.waiters.length
    · exact .inl ⟨m.waiters[i], List.getElem?_eq_getElem hi⟩
    · have hlast : [Waiter.new obj hasRequest][i - m.waiters.length]? = some v :=
        (List.getElem?_append_right (by omega)).symm.trans hv
      rcases List.mem_singleton.mp (List.mem_of_getElem? hlast) with rfl
      exact .inr ⟨rfl, by simp [Waiter.new]⟩

theorem schedule (m : TokenizerManager β) (generators : List Nat) :
    m.Quiet (m.schedule generators) := by
  have hget : ∀ i, (m.schedule generators).waiters[i]? = m.waiters[i]?.map fun w =>
      if i ∈ generators ∧ w.place = .created then { w with place := .scheduled } else w :=
    fun i => List.getElem?_mapIdx
  refine ⟨rfl, rfl, fun _ => rfl, ?_, ?_⟩
  · intro i w hw
    rw [hget, hw]
    refine ⟨_, rfl, ?_⟩
    show w.Alike (if i ∈ generators ∧ w.place = .created then { w with place := .scheduled } else w)
    split
    next hcreated => exact ⟨rfl, rfl, rfl, by rw [hcreated.2]; rfl, by simp [hcreated.2]⟩
    next => exact .refl w
  · intro i v hv
    rw [hget] at hv
    obtain ⟨w, hw, -⟩ := Option.map_eq_some_iff.mp hv
    exact .inl ⟨w, hw⟩

theorem regenerateRid (uuid : Nat → String) (m : TokenizerManager β) (obj : WaitObj) :
    m.Quiet (m.regenerateRid uuid obj).1 :=
  ⟨rfl, rfl, fun _ => rfl, fun _ w hw => ⟨w, hw, .refl w⟩, fun _ v hv => .inl ⟨v, hv⟩⟩

theorem sendExpanded (hasRequest : Bool) (m : TokenizerManager β) (objs : List WaitObj) :
    m.Quiet (m.sendExpanded uuid hasRequest objs) := by
  induction objs generalizing m with
  | nil => exact refl m
  | cons obj left ih =>
    exact ((regenerateRid uuid m obj).trans (sendRequest _ _ hasRequest)).trans (ih _)

theorem setWaiter (hw : m.waiters[i]? = some w) (h : w.Alike v) : m.Quiet (m.setWaiter i v) := by
  have hi := (List.getElem?_eq_some_iff.mp hw).1
  refine ⟨rfl, rfl, fun _ => rfl, ?_, ?_⟩
  · intro j u hu
    by_cases hj : i = j
    · subst hj
      cases hw.symm.trans hu
      exact ⟨v, List.getElem?_set_self hi, h⟩
    · exact ⟨u, (List.getElem?_set_ne hj).trans hu, .refl u⟩
  · intro j u hu
    have hj : j < m.waiters.length := by
      have := (List.getElem?_eq_some_iff.mp hu).1
      simpa [TokenizerManager.setWaiter] using this
    exact .inl ⟨m.waiters[j], List.getElem?_eq_getElem hj⟩

theorem distinctRids (h : m.Quiet m') (hdistinct : m'.DistinctRids) : m.DistinctRids := by
  intro i j w v hw hv hrid hwplace hvplace
  obtain ⟨w', hw', hwalike⟩ := h.kept i w hw
  obtain ⟨v', hv', hvalike⟩ := h.kept j v hv
  apply hdistinct i j w' v' hw' hv'
  · rw [hwalike.obj, hvalike.obj, hrid]
  · exact fun hended => hwplace (hwalike.ended.mp hended)
  · exact fun hended => hvplace (hvalike.ended.mp hended)

/-- What was there before, if it runs. -/
theorem before (h : m.Quiet m') (hv : m'.waiters[i]? = some v) (hrunning : v.place.running = true) :
    ∃ w, m.waiters[i]? = some w ∧ w.Alike v := by
  rcases h.added i v hv with ⟨w, hw⟩ | ⟨hnot, -⟩
  · obtain ⟨v', hv', halike⟩ := h.kept i w hw
    cases hv.symm.trans hv'
    exact ⟨w, hw, halike⟩
  · exact absurd hrunning (by rw [hnot]; exact Bool.false_ne_true)

end Quiet

theorem Registered.quiet (inv : m.Registered) (h : m.Quiet m') (hdistinct : m'.DistinctRids) :
    m'.Registered := by
  refine ⟨hdistinct, ?_, ?_, ?_, ?_⟩
  · intro rid i hrid
    rw [h.ridToState] at hrid
    obtain ⟨w, hw, rfl, hrunning⟩ := inv.entry rid i hrid
    obtain ⟨v, hv, halike⟩ := h.kept i w hw
    exact ⟨v, hv, congrArg WaitObj.rid halike.obj, halike.running.trans hrunning⟩
  · intro i v hv hrunning haborted
    obtain ⟨w, hw, halike⟩ := h.before hv hrunning
    rw [halike.obj] at haborted ⊢
    rw [h.aborted] at haborted
    rw [h.ridToState]
    exact inv.live i w hw (halike.running.symm.trans hrunning) haborted
  · intro i v hv hrunning hevent
    obtain ⟨w, hw, halike⟩ := h.before hv hrunning
    rw [halike.state] at hevent ⊢
    exact inv.filled i w hw (halike.running.symm.trans hrunning) hevent
  · intro out hout hfinal haborted
    rw [h.received] at hout
    rw [h.aborted] at haborted
    obtain ⟨i, w, hw, hrid, hgiven⟩ := inv.given out hout hfinal haborted
    obtain ⟨v, hv, halike⟩ := h.kept i w hw
    refine ⟨i, v, hv, by rw [halike.obj, hrid], ?_⟩
    rcases hgiven with hyields | hstores
    · exact .inl (halike.yields ▸ hyields)
    · exact .inr (halike.stores hstores)

/-- One generator goes from `w` to `v`; the dict, the aborts and the outputs change for its
request only. -/
structure Change (m : TokenizerManager β) (i : Nat) (w v : Waiter β) (m' : TokenizerManager β) :
    Prop where
  waiters : m'.waiters = m.waiters.set i v
  obj : v.obj = w.obj
  others : ∀ rid, rid ≠ w.obj.rid →
    m'.ridToState rid = m.ridToState rid ∧ m'.hasAborted rid = m.hasAborted rid
  aborted : m'.hasAborted w.obj.rid = false → m.hasAborted w.obj.rid = false
  entry : ∀ j, m'.ridToState w.obj.rid = some j → j = i ∧ v.place.running = true
  live : v.place.running = true → m'.hasAborted w.obj.rid = false →
    m'.ridToState w.obj.rid = some i
  filled : v.place.running = true → v.state.event = true → v.state.outList ≠ []
  kept : m'.hasAborted w.obj.rid = false →
    ∀ out, out ∈ w.yields ∨ w.Stores out → out ∈ v.yields ∨ v.Stores out
  received : ∀ out ∈ m'.received, out ∈ m.received ∨ out.rid = w.obj.rid ∧
    (out.finishReason.isSome = true → m'.hasAborted w.obj.rid = false →
      out ∈ v.yields ∨ v.Stores out)

/-- A generator that changes keeps the states registered: no other in flight has its id. -/
theorem Registered.change (inv : m.Registered) (hw : m.waiters[i]? = some w)
    (hflight : w.place ≠ .ended) (h : m.Change i w v m') : m'.Registered := by
  have hi := (List.getElem?_eq_some_iff.mp hw).1
  have hself : m'.waiters[i]? = some v := by
    rw [h.waiters]
    exact List.getElem?_set_self hi
  have hother : ∀ j, j ≠ i → m'.waiters[j]? = m.waiters[j]? := by
    intro j hj
    rw [h.waiters]
    exact List.getElem?_set_ne (Ne.symm hj)
  have hridNe : ∀ (j : Nat) (u : Waiter β), j ≠ i → m.waiters[j]? = some u → u.place ≠ .ended →
      u.obj.rid ≠ w.obj.rid := by
    intro j u hj hu hplace hrid
    exact hj (inv.distinct j i u w hu hw hrid hplace hflight)
  -- every generator of the new list, with one of the old that is in flight if it is
  have hold : ∀ (j : Nat) (u : Waiter β), m'.waiters[j]? = some u → ∃ u', m.waiters[j]? = some u' ∧
      u'.obj = u.obj ∧ (u.place ≠ .ended → u'.place ≠ .ended) := by
    intro j u hu
    by_cases hj : j = i
    · subst hj
      cases hself.symm.trans hu
      exact ⟨w, hw, h.obj.symm, fun _ => hflight⟩
    · exact ⟨u, (hother j hj).symm.trans hu, rfl, id⟩
  refine ⟨?_, ?_, ?_, ?_, ?_⟩
  · intro j k u u' hu hu' hrid hplace hplace'
    obtain ⟨x, hx, hxobj, hxplace⟩ := hold j u hu
    obtain ⟨y, hy, hyobj, hyplace⟩ := hold k u' hu'
    rw [← hxobj, ← hyobj] at hrid
    exact inv.distinct j k x y hx hy hrid (hxplace hplace) (hyplace hplace')
  · intro rid j hrid
    by_cases heq : rid = w.obj.rid
    · subst heq
      obtain ⟨rfl, hrunning⟩ := h.entry j hrid
      exact ⟨v, hself, by rw [h.obj], hrunning⟩
    · rw [(h.others rid heq).1] at hrid
      obtain ⟨u, hu, rfl, hrunning⟩ := inv.entry rid j hrid
      have hj : j ≠ i := by
        rintro rfl
        cases hw.symm.trans hu
        exact heq rfl
      exact ⟨u, (hother j hj).trans hu, rfl, hrunning⟩
  · intro j u hu hrunning haborted
    by_cases hj : j = i
    · subst hj
      cases hself.symm.trans hu
      rw [h.obj] at haborted ⊢
      exact h.live hrunning haborted
    · rw [hother j hj] at hu
      have hne := hridNe j u hj hu (Suspension.running_ne_ended hrunning)
      rw [(h.others _ hne).2] at haborted
      rw [(h.others _ hne).1]
      exact inv.live j u hu hrunning haborted
  · intro j u hu hrunning hevent
    by_cases hj : j = i
    · subst hj
      cases hself.symm.trans hu
      exact h.filled hrunning hevent
    · rw [hother j hj] at hu
      exact inv.filled j u hu hrunning hevent
  · intro out hout hfinal haborted
    rcases h.received out hout with hout | ⟨hrid, hgiven⟩
    · have haborted' : m.hasAborted out.rid = false := by
        by_cases heq : out.rid = w.obj.rid
        · rw [heq] at haborted ⊢
          exact h.aborted haborted
        · rw [← (h.others _ heq).2, haborted]
      obtain ⟨j, u, hu, hrid, hgiven⟩ := inv.given out hout hfinal haborted'
      by_cases hj : j = i
      · subst hj
        cases hw.symm.trans hu
        rw [← hrid] at haborted
        exact ⟨j, v, hself, by rw [h.obj, hrid], h.kept haborted out hgiven⟩
      · exact ⟨j, u, (hother j hj).trans hu, hrid, hgiven⟩
    · rw [hrid] at haborted
      exact ⟨i, v, hself, by rw [h.obj, hrid], hgiven hfinal haborted⟩

end TokenizerManager

end FastPP
