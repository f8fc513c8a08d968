import FastPP.Routing.LoadLaw

namespace FastPP

namespace RouterLoads

variable {s s' : RouterLoads} {client : Nat} {action : LoadStep} {sel : Selection}
  {urls : List String} {steps : List LoadStep}

theorem Settled.removeUrl (h : s.Settled) (hcall : s.calls[client]? = some (.removing sel)) :
    Decides (sel.url ∉ s.workerUrls → sel.url ∉ s.runningQueue)
      (if sel.url ∈ s.workerUrls then
        { s with workerUrls := s.workerUrls.erase sel.url }.setCall client (.unlisted sel)
      else s.setCall client (outerLoop sel.isStream sel.totalRetries)) := by
  split
  next hin =>
    refine .of_settled (h.moved hcall rfl rfl rfl rfl rfl rfl rfl rfl) fun hnot => absurd hin hnot
  next hnot =>
    obtain ⟨hpending, hsel⟩ := outerLoop_idle sel.isStream sel.totalRetries
    refine .congr ?_ (h.left hcall rfl rfl rfl hpending fun _ hs => ?_)
    · exact ⟨fun hgone _ => hgone, fun hkept => hkept hnot⟩
    · rw [hsel] at hs
      cases hs

theorem Settled.removeRunning (h : s.Settled) (hcall : s.calls[client]? = some (.unlisted sel)) :
    Decides (s.poisoned = true → sel.url ∉ s.runningQueue)
      (if s.poisoned then s.setCall client .panicked
      else { s with runningQueue := s.runningQueue.erase sel.url }.setCall client
        (outerLoop sel.isStream sel.totalRetries)) := by
  split
  next hp =>
    refine .congr ?_ (h.left hcall rfl rfl rfl rfl fun _ hs => (nomatch hs))
    exact ⟨fun hgone _ => hgone, fun hkept => hkept hp⟩
  next hp =>
    obtain ⟨hpending, hsel⟩ := outerLoop_idle sel.isStream sel.totalRetries
    refine .of_settled (h.setCall rfl ?_ ?_ ?_) fun hpoisoned => absurd hpoisoned hp
    · exact fun url hurl => (AList.mem_erase.mp hurl).2
    · exact h.counts.removed hcall rfl hpending
    · intro sel' hs
      rw [hsel] at hs
      cases hs

/-- What one step decides. -/
theorem Settled.step (h : s.Settled) (hstep : s.step action = some s') :
    Decides (s.Kept action) s' := by
  cases action with
  | start isStream =>
    obtain rfl := Option.some.inj hstep
    exact .of_settled (h.start isStream) trivial
  | select client url =>
    simp only [RouterLoads.step] at hstep
    split at hstep
    next isStream totalRetries hcall =>
      obtain rfl := Option.some.inj hstep
      exact .of_settled (h.select hcall url) trivial
    next => cases hstep
  | sendFails client =>
    simp only [RouterLoads.step] at hstep
    split at hstep
    next sel hcall =>
      obtain rfl := Option.some.inj hstep
      exact .of_settled (h.failed hcall rfl rfl) trivial
    next => cases hstep
  | respond client success =>
    simp only [RouterLoads.step] at hstep
    split at hstep
    next sel hcall =>
      split at hstep
      next =>
        obtain rfl := Option.some.inj hstep
        refine .of_settled ?_ trivial
        cases success with
        | true => exact h.moved hcall rfl rfl rfl rfl rfl rfl rfl rfl
        | false => exact h.failed hcall rfl rfl
      next =>
        obtain rfl := Option.some.inj hstep
        exact .of_settled (h.moved hcall rfl rfl rfl rfl rfl rfl rfl rfl) trivial
    next => cases hstep
  | body client readable =>
    simp only [RouterLoads.step] at hstep
    split at hstep
    next sel success hcall =>
      obtain rfl := Option.some.inj hstep
      refine .congr ?_ (h.body hcall (success && readable))
      constructor
      · intro hkept sel' success' hcall'
        obtain ⟨rfl, rfl⟩ := RouteCall.reading.inj (Option.some.inj (hcall.symm.trans hcall'))
        exact hkept
      · exact fun hkept => hkept sel success hcall
    next => cases hstep
  | chunk client bytes =>
    simp only [RouterLoads.step] at hstep
    split at hstep
    next sel forwarded hcall =>
      obtain rfl := Option.some.inj hstep
      refine .congr ?_ (h.chunk hcall bytes)
      constructor
      · intro hkept sel' forwarded' hcall'
        obtain ⟨rfl, rfl⟩ := RouteCall.streaming.inj (Option.some.inj (hcall.symm.trans hcall'))
        exact hkept
      · exact fun hkept => hkept sel forwarded hcall
    next => cases hstep
  | streamEnds client =>
    simp only [RouterLoads.step] at hstep
    split at hstep
    next hcall =>
      obtain rfl := Option.some.inj hstep
      exact h.breaks hcall rfl rfl
    next => cases hstep
  | streamFails client =>
    simp only [RouterLoads.step] at hstep
    split at hstep
    next hcall =>
      obtain rfl := Option.some.inj hstep
      exact h.breaks hcall rfl rfl
    next => cases hstep
  | disconnect client =>
    simp only [RouterLoads.step] at hstep
    split at hstep
    next hcall =>
      obtain rfl := Option.some.inj hstep
      exact h.breaks hcall rfl rfl
    next hcall =>
      obtain rfl := Option.some.inj hstep
      exact h.breaks hcall rfl rfl
    next hcall =>
      obtain rfl := Option.some.inj hstep
      exact h.breaks hcall rfl rfl
    next => cases hstep
  | removeUrl client =>
    simp only [RouterLoads.step] at hstep
    split at hstep
    next sel hcall =>
      have hs' : (if sel.url ∈ s.workerUrls then
          { s with workerUrls := s.workerUrls.erase sel.url }.setCall client (.unlisted sel)
        else s.setCall client (outerLoop sel.isStream sel.totalRetries)) = s' := by
        split at hstep
        next hin => rw [if_pos hin]; exact Option.some.inj hstep
        next hnot => rw [if_neg hnot]; exact Option.some.inj hstep
      subst hs'
      refine .congr ?_ (h.removeUrl hcall)
      constructor
      · intro hkept sel' hcall'
        obtain rfl := RouteCall.removing.inj (Option.some.inj (hcall.symm.trans hcall'))
        exact hkept
      · exact fun hkept => hkept sel hcall
    next => cases hstep
  | removeRunning client =>
    simp only [RouterLoads.step] at hstep
    split at hstep
    next sel hcall =>
      have hs' : (if s.poisoned then s.setCall client .panicked
        else { s with runningQueue := s.runningQueue.erase sel.url }.setCall client
          (outerLoop sel.isStream sel.totalRetries)) = s' := by
        split at hstep
        next hp => rw [if_pos hp]; exact Option.some.inj hstep
        next hp => rw [if_neg hp]; exact Option.some.inj hstep
      subst hs'
      refine .congr ?_ (h.removeRunning hcall)
      constructor
      · intro hkept sel' hcall'
        obtain rfl := RouteCall.unlisted.inj (Option.some.inj (hcall.symm.trans hcall'))
        exact hkept
      · exact fun hkept => hkept sel hcall
    next => cases hstep

theorem lookup_ofUrls {url : String} {count : Nat}
    (h : (LoadQueue.ofUrls urls).lookup url = some count) : count = 0 := by
  have hfold : ∀ (urls : List String) (queue : LoadQueue),
      (∀ url count, queue.lookup url = some count → count = 0) →
      ∀ url count, (urls.foldl (fun queue url => queue.insert url 0) queue).lookup url =
        some count → count = 0 := by
    intro urls
    induction urls with
    | nil => exact fun _ hqueue => hqueue
    | cons first urls ih =>
      intro queue hqueue
      apply ih
      intro url count hlookup
      by_cases hurl : url = first
      · rw [hurl, AList.lookup_insert] at hlookup
        exact (Option.some.inj hlookup).symm
      · rw [AList.lookup_insert_ne hurl] at hlookup
        exact hqueue url count hlookup
  exact hfold urls ∅ (fun _ _ hnone => by rw [AList.lookup_empty] at hnone; cases hnone) url count h

theorem new_settled (urls : List String) : (new urls).Settled := by
  refine ⟨fun url count hload => lookup_ofUrls hload, fun call hcall => ?_, fun call hcall => ?_⟩
  · exact absurd hcall List.not_mem_nil
  · exact absurd hcall List.not_mem_nil

theorem run_concat (s : RouterLoads) (steps : List LoadStep) (action : LoadStep) :
    s.run (steps ++ [action]) = (s.run steps).bind fun s₁ => s₁.step action := by
  unfold run
  rw [List.foldlM_append]
  cases steps.foldlM RouterLoads.step s with
  | none => rfl
  | some s₁ =>
    show ([action].foldlM RouterLoads.step s₁) = s₁.step action
    rw [List.foldlM_cons]
    cases s₁.step action <;> rfl

/-- A run whose steps keep what is settled settled, by induction from its end. -/
theorem run_settled (hsteps : ∀ done action, done ++ [action] <+: steps → ∀ s s',
      (new urls).run done = some s → s.Settled → s.step action = some s' → s'.Settled) :
    ∀ done, done <+: steps → ∀ s, (new urls).run done = some s → s.Settled := by
  intro done
  induction done using List.reverseRecOn with
  | nil =>
    intro _ s hrun
    obtain rfl := Option.some.inj hrun
    exact new_settled urls
  | append_singleton done action ih =>
    intro hpre s hrun
    rw [run_concat] at hrun
    obtain ⟨s₁, hrun₁, hstep⟩ := Option.bind_eq_some_iff.mp hrun
    have h := ih ((List.prefix_append _ _).trans hpre) s₁ hrun₁
    exact hsteps done action hpre s₁ s hrun₁ h hstep

/-- The accounts of a run are right in all its states if and only if all its steps go well. -/
theorem run_accounts_iff (urls : List String) (steps : List LoadStep) :
    (∀ done, done <+: steps → ∀ s, (new urls).run done = some s → s.Accounts) ↔
      ∀ done action, done ++ [action] <+: steps → ∀ s s', (new urls).run done = some s →
        s.step action = some s' → s.Kept action := by
  constructor
  · intro hall
    have hafter : ∀ done action, done ++ [action] <+: steps → ∀ s s',
        (new urls).run done = some s → s.step action = some s' → s'.Accounts := by
      intro done action hpre s s' hrun hstep
      exact hall _ hpre s' (by rw [run_concat, hrun]; exact hstep)
    have hsettled := run_settled fun done action hpre s s' hrun h hstep =>
      (h.step hstep).settled ((h.step hstep).kept (hafter done action hpre s s' hrun hstep))
    intro done action hpre s s' hrun hstep
    have h := hsettled done ((List.prefix_append _ _).trans hpre) s hrun
    exact (h.step hstep).kept (hafter done action hpre s s' hrun hstep)
  · intro hkept
    have hsettled := run_settled fun done action hpre s s' hrun h hstep =>
      (h.step hstep).settled (hkept done action hpre s s' hrun hstep)
    exact fun done hpre s hrun => (hsettled done hpre s hrun).accounts

/-- A response with an error status is counted down although the request tries again, a
marker that comes in two chunks is never counted down, and one in the text of an event is
counted down although the stream goes on. -/
theorem load_drifts :
    (∃ s, (new ["worker"]).run [.start false, .select 0 "worker", .respond 0 false,
        .body 0 true] = some s ∧
      s.runningQueue.lookup "worker" = some 0 ∧ s.outstanding "worker" = 1) ∧
    (∃ s, (new ["worker"]).run [.start true, .select 0 "worker", .respond 0 true,
        .chunk 0 (doneMarker.take 6), .chunk 0 (doneMarker.drop 6), .streamEnds 0] = some s ∧
      s.runningQueue.lookup "worker" = some 1 ∧ s.outstanding "worker" = 0) ∧
    ∃ s, (new ["worker"]).run [.start true, .select 0 "worker", .respond 0 true,
        .chunk 0 (doneMarker.take 6 ++ [123, 34, 116, 101, 120, 116, 34, 58, 34] ++ doneMarker ++
          [34, 125, 10, 10])] = some s ∧
      s.runningQueue.lookup "worker" = some 0 ∧ s.outstanding "worker" = 1 := by
  refine ⟨⟨_, rfl, by decide +kernel, by decide +kernel⟩, ⟨_, rfl, ?_, ?_⟩, ⟨_, rfl, ?_, ?_⟩⟩
  · decide +kernel
  · decide +kernel
  · decide +kernel
  · decide +kernel

end RouterLoads

end FastPP
