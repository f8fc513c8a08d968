import FastPP.Serving.ResultSteps

namespace FastPP

namespace TokenizerManager

variable {β : Type} {uuid : Nat → String} {m m' : TokenizerManager β} {i : Nat} {w : Waiter β}
  {out : OutDict β} {events : List (ManagerEvent β)}

/-- Outputs come on time, and requests in flight have different ids. -/
def TimelyRun (uuid : Nat → String) (m : TokenizerManager β) : List (ManagerEvent β) → Prop
  | [] => True
  | event :: events => m.OnTime event ∧
      ∀ m', m.step uuid event = some m' → m'.DistinctRids ∧ TimelyRun uuid m' events

/-- A generator resumed until it yields. -/
def resumption (i : Nat) : Suspension → List (ManagerEvent β)
  | .yielded => [.resumed i, .woken i]
  | .checking => [.checked i false, .woken i]
  | .created | .scheduled | .waiting | .ended => [.woken i]

/-- Every final output received for a request that was not aborted has been yielded, or is stored
in the state of the request and yielded next when its generator is resumed. -/
def NoLostResults (uuid : Nat → String) (m : TokenizerManager β) : Prop :=
  ∀ out ∈ m.received, out.finishReason.isSome = true → m.hasAborted out.rid = false →
    ∃ (i : Nat) (w : Waiter β), m.waiters[i]? = some w ∧ w.obj.rid = out.rid ∧
      (out ∈ w.yields ∨ w.Stores out ∧ m.ridToState out.rid = some i ∧
        ∃ (m' : TokenizerManager β) (w' : Waiter β), m.run uuid (resumption i w.place) = some m' ∧
          m'.waiters[i]? = some w' ∧ w'.yields = w.yields ++ [out])

/-- A generator with a stored final output yields it when its event wakes it. -/
theorem woken_yields (hw : m.waiters[i]? = some w) (hplace : w.place = .waiting)
    (hstores : w.Stores out) (hregistered : m.ridToState w.obj.rid = some i) :
    ∃ m' w', m.step uuid (.woken i) = some m' ∧ m'.waiters[i]? = some w' ∧
      w'.yields = w.yields ++ [out] := by
  have hi := (List.getElem?_eq_some_iff.mp hw).1
  refine ⟨m.wake i w, w.wake out true, ?_, ?_, ?_⟩
  · simp [step, hw, hplace, hstores.event]
  · unfold wake
    rw [hstores.last, hregistered]
    simp only [hstores.finished, if_true]
    exact List.getElem?_set_self hi
  · simp [Waiter.wake, hstores.finished]

/-- So does one that is resumed from another await, or from a `yield`. -/
theorem resumption_yields (hw : m.waiters[i]? = some w) (hstores : w.Stores out)
    (hregistered : m.ridToState w.obj.rid = some i) :
    ∃ m' w', m.run uuid (resumption i w.place) = some m' ∧ m'.waiters[i]? = some w' ∧
      w'.yields = w.yields ++ [out] := by
  have hi := (List.getElem?_eq_some_iff.mp hw).1
  have hwaiting : ({ w with place := .waiting } : Waiter β).Stores out :=
    ⟨rfl, hstores.last, hstores.finished, hstores.event⟩
  have hself : (m.setWaiter i { w with place := .waiting }).waiters[i]? =
      some { w with place := .waiting } := List.getElem?_set_self hi
  have hback : ∃ m' w', (m.setWaiter i { w with place := .waiting }).step uuid (.woken i) = some m' ∧
      m'.waiters[i]? = some w' ∧ w'.yields = w.yields ++ [out] :=
    woken_yields (w := { w with place := .waiting }) hself rfl hwaiting hregistered
  cases hplace : w.place with
  | waiting =>
    obtain ⟨m', w', hstep, hw', hyields⟩ : ∃ m' w', m.step uuid (.woken i) = some m' ∧
      m'.waiters[i]? = some w' ∧ w'.yields = w.yields ++ [out] :=
      woken_yields hw hplace hstores hregistered
    exact ⟨m', w', by simp [resumption, run, hstep], hw', hyields⟩
  | checking =>
    obtain ⟨m', w', hstep, hw', hyields⟩ := hback
    have hfirst : m.step uuid (.checked i false) =
        some (m.setWaiter i { w with place := .waiting }) := by simp [step, hw, hplace]
    exact ⟨m', w', by simp [resumption, run, hfirst, hstep], hw', hyields⟩
  | yielded =>
    obtain ⟨m', w', hstep, hw', hyields⟩ := hback
    have hfirst : m.step uuid (.resumed i) = some (m.setWaiter i { w with place := .waiting }) := by
      simp [step, hw, hplace]
    exact ⟨m', w', by simp [resumption, run, hfirst, hstep], hw', hyields⟩
  | created => exact absurd hstores.running (by simp [hplace, Suspension.running])
  | scheduled => exact absurd hstores.running (by simp [hplace, Suspension.running])
  | ended => exact absurd hstores.running (by simp [hplace, Suspension.running])

theorem Registered.noLostResults (inv : m.Registered) : m.NoLostResults uuid := by
  intro out hout hfinal haborted
  obtain ⟨i, w, hw, hrid, hgiven⟩ := inv.given out hout hfinal haborted
  refine ⟨i, w, hw, hrid, ?_⟩
  rcases hgiven with hmem | hstores
  · exact .inl hmem
  · rw [← hrid] at haborted
    have hlive := inv.live i w hw hstores.running haborted
    exact .inr ⟨hstores, hrid ▸ hlive, resumption_yields hw hstores hlive⟩

theorem Registered.run (inv : m.Registered) (htimely : m.TimelyRun uuid events)
    (h : m.run uuid events = some m') : m'.Registered := by
  induction events generalizing m with
  | nil =>
    cases h
    exact inv
  | cons event events ih =>
    obtain ⟨m₁, hstep, h⟩ := Option.bind_eq_some_iff.mp h
    obtain ⟨hdistinct, hrest⟩ := htimely.2 m₁ hstep
    exact ih (inv.step htimely.1 hstep hdistinct) hrest h

/-- No result is lost in any run where the final outputs come to generators that have been
started. -/
theorem run_noLostResults (htimely : init.TimelyRun uuid events)
    (h : init.run uuid events = some m) : m.NoLostResults uuid :=
  init_registered.run htimely h |>.noLostResults

theorem distinctRids_of_nodup (h : (m.waiters.map fun w => w.obj.rid).Nodup) :
    m.DistinctRids := by
  intro i j w v hw hv hrid _ _
  have hwrid : (m.waiters.map fun w => w.obj.rid)[i]? = some w.obj.rid := by simp [hw]
  have hvrid : (m.waiters.map fun w => w.obj.rid)[j]? = some w.obj.rid := by simp [hv, hrid]
  have hi := (List.getElem?_eq_some_iff.mp hwrid).1
  exact (List.getElem?_inj hi h).mp (hwrid.trans hvrid.symm)

/-- A batch of a request that streams and one that does not: both members are sent before their
generators start, and answered together. -/
def membersAnswered : List (ManagerEvent Unit) :=
  [.generate (.batch [⟨"a", true⟩, ⟨"b", false⟩] 1) false, .tokenized 0, .tokenized 0, .started 1,
    .started 0, .received [⟨"a", none, ()⟩, ⟨"b", some "stop", ()⟩], .woken 0,
    .received [⟨"a", some "length", ()⟩], .woken 1]

theorem run_noLostResults_members : ∃ m : TokenizerManager Unit,
    init.run (fun _ => "") membersAnswered = some m ∧
      m.NoLostResults fun _ => "" := by
  have hmembers : (init.TimelyRun (fun _ => "") membersAnswered) := by
    refine ⟨trivial, fun m₁ h₁ => ?_⟩
    cases h₁
    refine ⟨distinctRids_of_nodup (by decide), trivial, fun m₂ h₂ => ?_⟩
    cases h₂
    refine ⟨distinctRids_of_nodup (by decide), trivial, fun m₃ h₃ => ?_⟩
    cases h₃
    refine ⟨distinctRids_of_nodup (by decide), trivial, fun m₄ h₄ => ?_⟩
    cases h₄
    refine ⟨distinctRids_of_nodup (by decide), trivial, fun m₅ h₅ => ?_⟩
    cases h₅
    refine ⟨distinctRids_of_nodup (by decide), ⟨?_, ?_, trivial⟩, fun m₆ h₆ => ?_⟩
    · exact fun _ => ⟨fun hfinal => (nomatch hfinal), by decide⟩
    · exact fun _ => ⟨fun _ => by decide, by decide⟩
    cases h₆
    refine ⟨distinctRids_of_nodup (by decide), trivial, fun m₇ h₇ => ?_⟩
    cases h₇
    refine ⟨distinctRids_of_nodup (by decide), ⟨?_, trivial⟩, fun m₈ h₈ => ?_⟩
    · exact fun _ => ⟨fun _ => by decide, by decide⟩
    cases h₈
    refine ⟨distinctRids_of_nodup (by decide), trivial, fun m₉ h₉ => ?_⟩
    cases h₉
    exact ⟨distinctRids_of_nodup (by decide), trivial⟩
  exact ⟨_, rfl, run_noLostResults hmembers rfl⟩

/-- The first of two requests is answered before the second is tokenized. -/
theorem not_noLostResults_lateMember : ¬ ∀ (uuid : Nat → String) (events : List (ManagerEvent Unit))
    (m : TokenizerManager Unit), init.run uuid events = some m → m.NoLostResults uuid := by
  intro hall
  obtain ⟨i, w, hw, hrid, hgiven⟩ := hall (fun _ => "")
    [.generate (.batch [⟨"a", false⟩, ⟨"b", false⟩] 1) false, .tokenized 0,
      .received [⟨"a", some "stop", ()⟩], .tokenized 0, .started 0, .started 1,
      .received [⟨"b", some "stop", ()⟩], .woken 1] _ rfl ⟨"a", some "stop", ()⟩ List.mem_cons_self
    rfl (by decide)
  rcases i with _ | _ | i
  · cases hw
    rcases hgiven with hmem | ⟨hstores, _⟩
    · exact nomatch hmem
    · exact nomatch hstores.last
  · cases hw
    exact absurd hrid (by decide)
  · exact nomatch hw

end TokenizerManager

end FastPP
