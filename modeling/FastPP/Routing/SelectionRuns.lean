import FastPP.Routing.WorkerSelection

namespace FastPP

namespace CacheAware

variable {policy : BalancePolicy} {heap : EvictionHeap} {s s' : CacheAware}

/-- The choice of a selection: a tree with the same tenants, and a worker that has both
entries. -/
theorem Kept.selectUrl (h : s.Kept) (met : s.Choosable policy) (text : List Char) (now : Nat) :
    ∃ tree url, selectUrl policy s text now = some (tree, url) ∧
      (∃ nodes rank, tree.Sound nodes rank) ∧
      (∀ other, other ∈ tree.tenantCharCount ↔ other ∈ s.tree.tenantCharCount) ∧
      url ∈ s.runningQueue ∧ url ∈ s.processedQueue := by
  unfold CacheAware.selectUrl
  unfold Choosable at met
  by_cases himbalanced : isImbalanced policy s.runningQueue
  · rw [if_pos himbalanced] at met
    obtain ⟨url, hshort⟩ := shortest_of_isImbalanced himbalanced
    have hleast := LoadQueue.lookup_shortest hshort
    have hrunning : url ∈ s.runningQueue := by
      apply AList.lookup_isSome.mp
      rw [hleast]
      rfl
    refine ⟨s.tree, url, ?_, h.sound, fun _ => Iff.rfl, hrunning, ?_⟩
    · rw [if_pos himbalanced, hshort]
    · rcases h.counted url hrunning with hprocessed | ⟨other, hother⟩
      · exact hprocessed
      · exact absurd hleast (met other url hother)
  · rw [if_neg himbalanced] at met
    obtain ⟨some_url, hsome⟩ := met
    obtain ⟨nodes, rank, hsound⟩ := h.sound
    obtain ⟨tree, matched, tenant, hmatch, hsound', hsame, htenant⟩ :=
      TenantTree.prefixMatch_sound hsound text now
    have hpick : ∀ url, url ∈ s.tree.tenantCharCount →
        url ∈ s.runningQueue ∧ url ∈ s.processedQueue := h.tenants
    rw [if_neg himbalanced, hmatch]
    by_cases habove : policy.aboveCacheThreshold matched.length text.length
    · refine ⟨tree, tenant, ?_, ⟨nodes, rank, hsound'⟩, hsame, ?_⟩
      · simp only [Option.bind_eq_bind, Option.bind_some, if_pos habove, Option.pure_def]
      · rcases htenant with htenant | ⟨_, hnone⟩
        · exact hpick tenant htenant
        · exact absurd hsome (hnone some_url)
    · refine ⟨tree, tree.getSmallestTenant, ?_, ⟨nodes, rank, hsound'⟩, hsame, ?_⟩
      · simp only [Option.bind_eq_bind, Option.bind_some, if_neg habove, Option.pure_def]
      · apply hpick
        rw [← hsame]
        exact TenantTree.getSmallestTenant_mem ((hsame some_url).mpr hsome)

/-- The first half of a selection: the client has chosen. -/
theorem Kept.lockRunning (h : s.Kept) {client now : Nat} {text : List Char}
    (hcaller : s.callers client = .selecting text) (hfree : s.runningHolder = none)
    (met : s.Choosable policy) : (s.lockRunning policy client text now).Kept := by
  obtain ⟨tree, url, hchoice, hsound, hsame, hrunning, hprocessed⟩ := h.selectUrl met text now
  obtain ⟨count, hcount⟩ : ∃ count, s.runningQueue.lookup url = some count :=
    Option.isSome_iff_exists.mp (AList.lookup_isSome.mpr hrunning)
  have hheld : ({ s with runningHolder := some client } : CacheAware).Kept :=
    ⟨h.sound, h.not_panicked, h.listed, h.counted, h.tenants, fun other text url hurl =>
      absurd hurl (h.not_routed hfree other text url)⟩
  have hqueues := (hheld.sameTenants hsound hsame).setQueues
    (s.runningQueue.insert url (count + 1)) s.processedQueue
    (fun other => LoadQueue.mem_recount hrunning) fun _ hother => hother
  have hmoved := hqueues.setCaller client (.routed text url) (by simp)
    (by
      intro other hother
      simp only [RouterCall.Removing, hcaller] at hother
      simp at hother)
    (by
      intro other hother
      simp only [hcaller] at hother
      cases hother)
    (by
      intro text' url' hsame'
      obtain ⟨_, rfl⟩ := RouterCall.routed.inj hsame'
      exact ⟨rfl, (LoadQueue.mem_recount hrunning).mpr hrunning, hprocessed⟩)
  have hchoice : CacheAware.selectUrl policy { s with runningHolder := some client } text now =
    some (tree, url) := hchoice
  unfold CacheAware.lockRunning
  simp only [hchoice, hcount]
  exact hmoved

/-- The other half: the counts and the tree have the worker, and the locks are free. -/
theorem Kept.lockProcessed (h : s.Kept) {client now : Nat} {text : List Char} {url : String}
    (hcaller : s.callers client = .routed text url) :
    (s.lockProcessed client text url now).Kept := by
  obtain ⟨hholder, hrunning, hprocessed⟩ := h.routed client text url hcaller
  obtain ⟨count, hcount⟩ : ∃ count, s.processedQueue.lookup url = some count :=
    Option.isSome_iff_exists.mp (AList.lookup_isSome.mpr hprocessed)
  obtain ⟨nodes, rank, hsound⟩ := h.sound
  obtain ⟨tree, nodes', rank', hinsert, hsound', hentry⟩ :=
    TenantTree.insert_sound hsound text url now
  have hqueues := h.setQueues s.runningQueue (s.processedQueue.insert url (count + 1))
    (fun _ => Iff.rfl) fun other hother => LoadQueue.mem_insert_iff.mpr (.inr hother)
  have htree := hqueues.setTree ⟨nodes', rank', hsound'⟩ (by
    intro other hother
    rcases (hentry other).mp hother with rfl | hold
    · exact .inr ⟨hrunning, LoadQueue.mem_insert_iff.mpr (.inl rfl)⟩
    · exact .inl hold)
  have hmoved := htree.move client (.selected url) (by simp)
    (by simp [RouterCall.Removing, hcaller]) (by simp [hcaller]) (by simp)
  unfold CacheAware.lockProcessed
  simp only [hcount, hinsert]
  refine ⟨hmoved.sound, hmoved.not_panicked, hmoved.listed, hmoved.counted, hmoved.tenants, ?_⟩
  -- a second selection would hold the lock of this one
  intro other text' url' hother
  have hsame : s.runningHolder = some other := (hmoved.routed other text' url' hother).1
  rw [hholder] at hsame
  obtain rfl := Option.some.inj hsame
  rw [setCaller_callers, if_pos rfl] at hother
  cases hother

theorem Kept.addUrl (h : s.Kept) {client : Nat} {url : String}
    (next : s.step policy heap (.addUrl client url) = some s') : s'.Kept := by
  simp only [CacheAware.step] at next
  split at next
  next hidle =>
    split at next
    next =>
      obtain rfl := Option.some.inj next
      exact h
    next =>
      obtain rfl := Option.some.inj next
      have hurls : ({ s with workerUrls := s.workerUrls ++ [url] } : CacheAware).Kept :=
        ⟨h.sound, h.not_panicked, fun other hother => (h.listed other hother).imp_left
          fun hmem => List.mem_append_left _ hmem, h.counted, h.tenants, h.routed⟩
      exact hurls.move client (.listed url) (by simp) (by simp [RouterCall.Removing, hidle])
        (by simp [hidle]) (by simp)
  next => cases next

/-- The entry in `running_queue` is for a listed worker, and its partner is to come. -/
theorem Kept.addRunning (h : s.Kept) {client : Nat} (met : s.Undisturbed policy (.addRunning client))
    (next : s.step policy heap (.addRunning client) = some s') : s'.Kept := by
  simp only [CacheAware.step] at next
  split at next
  next url hlisted =>
    have hurl := met url hlisted
    split at next
    next hfree =>
      obtain rfl := Option.some.inj next
      have hmoved := h.move client (.queued url) (by simp)
        (by simp [RouterCall.Removing, hlisted]) (by simp [hlisted]) (by simp)
      refine ⟨hmoved.sound, hmoved.not_panicked, ?_, ?_, ?_, ?_⟩
      · intro other hother
        rcases LoadQueue.mem_insert_iff.mp hother with rfl | hother
        · exact .inl hurl
        · exact hmoved.listed other hother
      · intro other hother
        rcases LoadQueue.mem_insert_iff.mp hother with rfl | hother
        · refine .inr ⟨client, ?_⟩
          rw [setCaller_callers, if_pos rfl]
        · exact hmoved.counted other hother
      · intro other hother
        obtain ⟨hr, hp⟩ := hmoved.tenants other hother
        exact ⟨LoadQueue.mem_insert_iff.mpr (.inr hr), hp⟩
      · intro other text url' hother
        exact absurd hother (hmoved.not_routed hfree other text url')
    next => cases next
  next => cases next

theorem Kept.addProcessed (h : s.Kept) {client : Nat}
    (next : s.step policy heap (.addProcessed client) = some s') : s'.Kept := by
  simp only [CacheAware.step] at next
  split at next
  next url hqueued =>
    obtain rfl := Option.some.inj next
    have hqueues := h.setQueues s.runningQueue (s.processedQueue.insert url 0)
      (fun _ => Iff.rfl) fun other hother => LoadQueue.mem_insert_iff.mpr (.inr hother)
    apply hqueues.setCaller client (.counted url)
    · simp
    · simp [RouterCall.Removing, hqueued]
    · intro other hother
      rw [hqueued] at hother
      obtain rfl := RouterCall.queued.inj hother
      exact LoadQueue.mem_insert_iff.mpr (.inl rfl)
    · simp
  next => cases next

theorem Kept.addTenant (h : s.Kept) {client now : Nat}
    (met : s.Undisturbed policy (.addTenant client now))
    (next : s.step policy heap (.addTenant client now) = some s') : s'.Kept := by
  simp only [CacheAware.step] at next
  split at next
  next url hcounted =>
    obtain ⟨hrunning, hprocessed⟩ := met url hcounted
    obtain ⟨nodes, rank, hsound⟩ := h.sound
    obtain ⟨tree, nodes', rank', hinsert, hsound', hentry⟩ :=
      TenantTree.insert_sound hsound [] url now
    split at next
    next =>
      rw [hinsert] at next
      obtain rfl := Option.some.inj next
      have htree := h.setTree ⟨nodes', rank', hsound'⟩ (by
        intro other hother
        rcases (hentry other).mp hother with rfl | hold
        · exact .inr ⟨hrunning, hprocessed⟩
        · exact .inl hold)
      exact htree.move client .idle (by simp) (by simp [RouterCall.Removing, hcounted])
        (by simp [hcounted]) (by simp)
    next => cases next
  next => cases next

/-- The worker leaves the list, and is on its way out. -/
theorem Kept.removeUrl (h : s.Kept) {client : Nat} {url : String}
    (next : s.step policy heap (.removeUrl client url) = some s') : s'.Kept := by
  simp only [CacheAware.step] at next
  split at next
  next hidle =>
    split at next
    next =>
      obtain rfl := Option.some.inj next
      have hmoved := h.move client (.unlisted url) (by simp) (by simp [RouterCall.Removing, hidle])
        (by simp [hidle]) (by simp)
      refine ⟨hmoved.sound, hmoved.not_panicked, ?_, hmoved.counted, hmoved.tenants, hmoved.routed⟩
      intro other hother
      by_cases hsame : other = url
      · subst hsame
        refine .inr ⟨client, ?_⟩
        rw [setCaller_callers, if_pos rfl]
        exact .inl rfl
      · apply (hmoved.listed other hother).imp_left
        exact fun hmem => (List.mem_erase_of_ne hsame).mpr hmem
    next =>
      obtain rfl := Option.some.inj next
      exact h
  next => cases next

theorem Kept.removeTenant (h : s.Kept) {client : Nat}
    (next : s.step policy heap (.removeTenant client) = some s') : s'.Kept := by
  simp only [CacheAware.step] at next
  split at next
  next url hunlisted =>
    obtain ⟨nodes, rank, hsound⟩ := h.sound
    obtain ⟨tree, nodes', hremove, hsound', hentry⟩ := TenantTree.removeTenant_sound hsound url
    split at next
    next =>
      rw [hremove] at next
      obtain rfl := Option.some.inj next
      have htree := h.setTree ⟨nodes', rank, hsound'⟩ fun other hother =>
        .inl ((hentry other).mp hother).2
      apply htree.setCaller client (.untenanted url)
      · simp
      · intro other hother
        rw [hunlisted] at hother
        rcases hother with hother | hother
        · obtain rfl := RouterCall.unlisted.inj hother
          exact .inl (.inr rfl)
        · cases hother
      · simp [hunlisted]
      · simp
    next => cases next
  next => cases next

/-- The entry in `running_queue` goes when nobody chooses and the tenant is gone. -/
theorem Kept.removeRunning (h : s.Kept) {client : Nat}
    (met : s.Undisturbed policy (.removeRunning client))
    (next : s.step policy heap (.removeRunning client) = some s') : s'.Kept := by
  simp only [CacheAware.step] at next
  split at next
  next url huntenanted =>
    have hgone := met url huntenanted
    split at next
    next hfree =>
      obtain rfl := Option.some.inj next
      have hqueue : ({ s with runningQueue := s.runningQueue.erase url } : CacheAware).Kept := by
        refine ⟨h.sound, h.not_panicked, ?_, ?_, ?_, ?_⟩
        · exact fun other hother => h.listed other (AList.mem_erase.mp hother).2
        · exact fun other hother => h.counted other (AList.mem_erase.mp hother).2
        · intro other hother
          obtain ⟨hr, hp⟩ := h.tenants other hother
          refine ⟨AList.mem_erase.mpr ⟨?_, hr⟩, hp⟩
          intro hsame
          exact hgone (hsame ▸ hother)
        · intro other text url' hother
          exact absurd hother (h.not_routed hfree other text url')
      apply hqueue.setCaller client (.unqueued url)
      · simp
      · intro other hother
        rw [huntenanted] at hother
        rcases hother with hother | hother
        · cases hother
        · obtain rfl := RouterCall.untenanted.inj hother
          exact .inr fun hmem => (AList.mem_erase.mp hmem).1 rfl
      · simp [huntenanted]
      · simp
    next => cases next
  next => cases next

theorem Kept.removeProcessed (h : s.Kept) {client : Nat}
    (met : s.Undisturbed policy (.removeProcessed client))
    (next : s.step policy heap (.removeProcessed client) = some s') : s'.Kept := by
  simp only [CacheAware.step] at next
  split at next
  next url hunqueued =>
    have hgone := met url hunqueued
    have hkeep : ∀ other, other ∈ s.runningQueue → other ∈ s.processedQueue →
        other ∈ s.processedQueue.erase url := by
      intro other hr hp
      refine AList.mem_erase.mpr ⟨?_, hp⟩
      intro hsame
      exact hgone (hsame ▸ hr)
    obtain rfl := Option.some.inj next
    have hqueue : ({ s with processedQueue := s.processedQueue.erase url } : CacheAware).Kept := by
      refine ⟨h.sound, h.not_panicked, h.listed, ?_, ?_, ?_⟩
      · exact fun other hother => (h.counted other hother).imp_left (hkeep other hother)
      · intro other hother
        obtain ⟨hr, hp⟩ := h.tenants other hother
        exact ⟨hr, hkeep other hr hp⟩
      · intro other text url' hother
        obtain ⟨hholder, hr, hp⟩ := h.routed other text url' hother
        exact ⟨hholder, hr, hkeep url' hr hp⟩
    exact hqueue.move client .idle (by simp) (by simp [RouterCall.Removing, hunqueued])
      (by simp [hunqueued]) (by simp)
  next => cases next

theorem Kept.step (h : s.Kept) {action : RouterStep} (met : s.Undisturbed policy action)
    (next : s.step policy heap action = some s') : s'.Kept := by
  cases action with
  | lockTree client text =>
    simp only [CacheAware.step] at next
    split at next
    next hfree =>
      obtain rfl := Option.some.inj next
      have hheld : ({ s with treeHolder := some client } : CacheAware).Kept :=
        ⟨h.sound, h.not_panicked, h.listed, h.counted, h.tenants, h.routed⟩
      exact hheld.move client (.selecting text) (by simp)
        (by simp [RouterCall.Removing, hfree.1]) (by simp [hfree.1]) (by simp)
    next => cases next
  | lockRunning client now =>
    simp only [CacheAware.step] at next
    split at next
    next text hselecting =>
      split at next
      next hfree =>
        obtain rfl := Option.some.inj next
        exact h.lockRunning hselecting hfree met
      next => cases next
    next => cases next
  | lockProcessed client now =>
    simp only [CacheAware.step] at next
    split at next
    next text url hrouted =>
      obtain rfl := Option.some.inj next
      exact h.lockProcessed hrouted
    next => cases next
  | finish client =>
    simp only [CacheAware.step] at next
    split at next
    next url hselected =>
      obtain rfl := Option.some.inj next
      exact h.move client .idle (by simp) (by simp [RouterCall.Removing, hselected])
        (by simp [hselected]) (by simp)
    next => cases next
  | addUrl client url => exact h.addUrl next
  | addRunning client => exact h.addRunning met next
  | addProcessed client => exact h.addProcessed next
  | addTenant client now => exact h.addTenant met next
  | removeUrl client url => exact h.removeUrl next
  | removeTenant client => exact h.removeTenant next
  | removeRunning client => exact h.removeRunning met next
  | removeProcessed client => exact h.removeProcessed met next
  | evict maxSize =>
    simp only [CacheAware.step] at next
    split at next
    next =>
      obtain ⟨nodes, rank, hsound⟩ := h.sound
      obtain ⟨tree, nodes', hevict, hsound', hsame⟩ :=
        TenantTree.evictTenantBySize_sound heap hsound maxSize
      rw [hevict] at next
      obtain rfl := Option.some.inj next
      exact h.sameTenants ⟨nodes', rank, hsound'⟩ hsame
    next => cases next

theorem Reordered.kept (hr : s.Reordered s') (h : s.Kept) : s'.Kept := by
  have hrunning : ∀ url, url ∈ s'.runningQueue ↔ url ∈ s.runningQueue := fun _ =>
    AList.mem_of_perm hr.running
  have hprocessed : ∀ url, url ∈ s'.processedQueue ↔ url ∈ s.processedQueue := fun _ =>
    AList.mem_of_perm hr.processed
  obtain ⟨nodes, rank, hsound⟩ := h.sound
  refine ⟨⟨nodes, rank, hr.tree.sound hsound⟩, ?_, ?_, ?_, ?_, ?_⟩
  · rw [hr.callers]
    exact h.not_panicked
  · simp only [hrunning, hr.urls, hr.callers]
    exact h.listed
  · simp only [hrunning, hprocessed, hr.callers]
    exact h.counted
  · intro url hurl
    rw [hrunning, hprocessed]
    exact h.tenants url ((AList.mem_of_perm hr.tree.counts).mp hurl)
  · simp only [hrunning, hprocessed, hr.callers, hr.runningHolder]
    exact h.routed

/-- The tree of `Router::new` has the workers as tenants. -/
theorem plant_sound {tree tree' : TenantTree} {urls : List String} {now : Nat}
    (hsound : ∃ nodes rank, tree.Sound nodes rank) (h : plant tree urls now = some tree') :
    (∃ nodes rank, tree'.Sound nodes rank) ∧
      ∀ url ∈ tree'.tenantCharCount, url ∈ urls ∨ url ∈ tree.tenantCharCount := by
  induction urls generalizing tree with
  | nil =>
    obtain rfl := Option.some.inj h
    exact ⟨hsound, fun url hurl => .inr hurl⟩
  | cons first urls ih =>
    obtain ⟨nodes, rank, hsound⟩ := hsound
    obtain ⟨tree₁, nodes₁, rank₁, hinsert, hsound₁, hentry⟩ :=
      TenantTree.insert_sound hsound [] first now
    unfold plant at h
    rw [hinsert] at h
    obtain ⟨hsound', hurls⟩ := ih ⟨nodes₁, rank₁, hsound₁⟩ h
    refine ⟨hsound', ?_⟩
    intro url hurl
    rcases hurls url hurl with hmem | hmem
    · exact .inl (List.mem_cons_of_mem first hmem)
    · apply ((hentry url).mp hmem).imp_left
      rintro rfl
      exact List.mem_cons_self

theorem new_kept {urls : List String} {tree : TenantTree} {now : Nat}
    (h : plant .new urls now = some tree) : (new urls tree).Kept := by
  obtain ⟨hsound, hurls⟩ := plant_sound ⟨_, _, TenantTree.new_sound⟩ h
  refine ⟨hsound, ?_, ?_, ?_, ?_, ?_⟩
  · intro client hpanicked
    cases hpanicked
  · exact fun url hurl => .inl (LoadQueue.mem_ofUrls.mp hurl)
  · exact fun url hurl => .inl hurl
  · intro url hurl
    rcases hurls url hurl with hmem | hmem
    · exact ⟨LoadQueue.mem_ofUrls.mpr hmem, LoadQueue.mem_ofUrls.mpr hmem⟩
    · cases hmem
  · intro client text url hrouted
    cases hrouted

/-- In every run in which no call overtakes another, the invariant holds. -/
theorem Run.kept {urls : List String} (h : Run policy heap (Undisturbed policy) urls s) :
    s.Kept := by
  induction h with
  | new planted => exact new_kept planted
  | step _ met next ih => exact ih.step met next
  | reorder _ same ih => exact same.kept ih

/-- Every worker can be planted. -/
theorem exists_plant {tree : TenantTree} (hsound : ∃ nodes rank, tree.Sound nodes rank)
    (urls : List String) (now : Nat) : ∃ tree', plant tree urls now = some tree' := by
  induction urls generalizing tree with
  | nil => exact ⟨tree, rfl⟩
  | cons first urls ih =>
    obtain ⟨nodes, rank, hsound⟩ := hsound
    obtain ⟨tree₁, nodes₁, rank₁, hinsert, hsound₁, _⟩ :=
      TenantTree.insert_sound hsound [] first now
    obtain ⟨tree', h⟩ := ih ⟨nodes₁, rank₁, hsound₁⟩
    refine ⟨tree', ?_⟩
    unfold plant
    rw [hinsert]
    exact h

/-- A run of given steps, all of which meet a condition. -/
def runListed (policy : BalancePolicy) (heap : EvictionHeap)
    (condition : CacheAware → RouterStep → Prop) [∀ s action, Decidable (condition s action)]
    (s : CacheAware) : List RouterStep → Option CacheAware
  | [] => some s
  | action :: actions =>
    if condition s action then do
      let s ← s.step policy heap action
      runListed policy heap condition s actions
    else none

theorem run_of_runListed {condition condition' : CacheAware → RouterStep → Prop}
    [∀ s action, Decidable (condition s action)]
    (himp : ∀ s action, condition s action → condition' s action) {urls : List String}
    {actions : List RouterStep} (h : Run policy heap condition' urls s)
    (hrun : s.runListed policy heap condition actions = some s') :
    Run policy heap condition' urls s' := by
  induction actions generalizing s with
  | nil =>
    obtain rfl := Option.some.inj hrun
    exact h
  | cons action actions ih =>
    unfold runListed at hrun
    split at hrun
    next hmet =>
      obtain ⟨s₁, hstep, hrun⟩ := Option.bind_eq_some_iff.mp hrun
      exact ih (.step h (himp s action hmet) hstep) hrun
    next => cases hrun

/-- A `remove_worker` that nobody overtakes meets the condition. -/
theorem removeWorker_undisturbed {urls : List String}
    (h : Run policy heap (Undisturbed policy) urls s)
    {client : Nat} (hidle : s.callers client = .idle) (htree : s.treeHolder = none)
    (hrunning : s.runningHolder = none) {url : String} (hurl : url ∈ s.workerUrls) :
    ∃ s', Run policy heap (Undisturbed policy) urls s' ∧
      s'.workerUrls = s.workerUrls.erase url ∧ s'.callers client = .idle := by
  obtain ⟨nodes, rank, hsound⟩ := h.kept.sound
  obtain ⟨tree, nodes', hremove, _, hentry⟩ := TenantTree.removeTenant_sound hsound url
  let unlisted : CacheAware :=
    { s with workerUrls := s.workerUrls.erase url }.setCaller client (.unlisted url)
  let untenanted : CacheAware := { unlisted with tree := tree }.setCaller client (.untenanted url)
  let unqueued : CacheAware :=
    { untenanted with runningQueue := untenanted.runningQueue.erase url }.setCaller client
      (.unqueued url)
  have hurlStep : s.step policy heap (.removeUrl client url) = some unlisted := by
    simp only [step, hidle, if_true, hurl, unlisted]
  have htenantStep : unlisted.step policy heap (.removeTenant client) = some untenanted := by
    simp [step, unlisted, untenanted, setCaller, htree, hremove]
  have hrunningStep : untenanted.step policy heap (.removeRunning client) = some unqueued := by
    simp [step, unlisted, untenanted, unqueued, setCaller, hrunning]
  have hprocessedStep : unqueued.step policy heap (.removeProcessed client) =
      some ({ unqueued with processedQueue := unqueued.processedQueue.erase url }.setCaller client
        .idle) := by
    simp [step, unqueued, setCaller]
  have hgone : untenanted.Undisturbed policy (.removeRunning client) := by
    intro other hother
    obtain rfl : url = other := by simpa [untenanted, setCaller] using hother
    exact fun hmem => ((hentry url).mp hmem).1 rfl
  have hempty : unqueued.Undisturbed policy (.removeProcessed client) := by
    intro other hother
    obtain rfl : url = other := by simpa [unqueued, setCaller] using hother
    exact fun hmem => (AList.mem_erase.mp hmem).1 rfl
  have hmet : s.Undisturbed policy (.removeUrl client url) := trivial
  have hmet' : unlisted.Undisturbed policy (.removeTenant client) := trivial
  have hrun := (((h.step hmet hurlStep).step hmet' htenantStep).step hgone hrunningStep).step
    hempty hprocessedStep
  exact ⟨_, hrun, rfl, by simp [setCaller]⟩

/-- A policy that balances as soon as the loads differ. -/
def eager : BalancePolicy where
  balanceAbsThreshold := 0
  aboveRelThreshold maxLoad minLoad := decide (minLoad < maxLoad)
  aboveCacheThreshold matched total := decide (total < 2 * matched)

def steady : BalancePolicy := { eager with balanceAbsThreshold := 32 }

/-- One call at a time: a selection finds the load balanced and a tenant, an addition its
worker listed and counted, and a removal its tenant gone. -/
def inTurn (policy : BalancePolicy) (s : CacheAware) : RouterStep → Bool
  | .lockRunning _ _ =>
    !isImbalanced policy s.runningQueue && !s.tree.tenantCharCount.keys.isEmpty
  | .addRunning client =>
    match s.callers client with
    | .listed url => decide (url ∈ s.workerUrls)
    | _ => false
  | .addTenant client _ =>
    match s.callers client with
    | .counted url => decide (url ∈ s.runningQueue ∧ url ∈ s.processedQueue)
    | _ => false
  | .removeRunning client =>
    match s.callers client with
    | .untenanted url => decide (url ∉ s.tree.tenantCharCount)
    | _ => false
  | .removeProcessed client =>
    match s.callers client with
    | .unqueued url => decide (url ∉ s.runningQueue)
    | _ => false
  | _ => true

theorem undisturbed_of_inTurn {action : RouterStep} (h : s.inTurn policy action = true) :
    s.Undisturbed policy action := by
  cases action with
  | lockRunning client now =>
    obtain ⟨hbalanced, htenant⟩ := Bool.and_eq_true_iff.mp h
    have hoff : isImbalanced policy s.runningQueue = false := by simpa using hbalanced
    have hne : s.tree.tenantCharCount.keys ≠ [] := by simpa using htenant
    obtain ⟨url, hurl⟩ := List.exists_mem_of_ne_nil _ hne
    show s.Choosable policy
    unfold Choosable
    rw [hoff, if_neg Bool.false_ne_true]
    exact ⟨url, hurl⟩
  | addRunning client =>
    intro url hcaller
    simp only [inTurn, hcaller] at h
    exact of_decide_eq_true h
  | addTenant client now =>
    intro url hcaller
    simp only [inTurn, hcaller] at h
    exact of_decide_eq_true h
  | removeRunning client =>
    intro url hcaller
    simp only [inTurn, hcaller] at h
    exact of_decide_eq_true h
  | removeProcessed client =>
    intro url hcaller
    simp only [inTurn, hcaller] at h
    exact of_decide_eq_true h
  | _ => trivial

end CacheAware

/-- Worker selection: no run of `Router::RoundRobin` whose removals leave the indices in
range, and none of `Router::CacheAware` in which no call overtakes another of the same worker,
has a panic or chooses a worker that is not there. -/
theorem selection_safe (policy : BalancePolicy) (heap : EvictionHeap) {workerUrls : List String}
    (hne : workerUrls ≠ []) :
    (∀ s, RoundRobin.Run RoundRobin.RemovalFits workerUrls s → s.Safe) ∧
      ∀ s, CacheAware.Run policy heap (CacheAware.Undisturbed policy) workerUrls s → s.Safe :=
  ⟨fun _ h => (h.kept hne).safe, fun _ h => h.kept.safe⟩

/-- Selections, an addition, a removal and another selection in each router. -/
theorem selection_safe_first :
    (∃ s, RoundRobin.Run RoundRobin.RemovalFits ["a", "b"] s ∧ s.workerUrls = ["b", "c"] ∧
      s.readers 0 = .chosen 0 ∧ s.Safe) ∧
    ∃ s, CacheAware.Run CacheAware.steady TenantTree.firstLeast
        (CacheAware.Undisturbed CacheAware.steady) ["a", "b"] s ∧ s.workerUrls = ["b", "c"] ∧
      s.Safe := by
  have hsafe := selection_safe CacheAware.steady TenantTree.firstLeast (List.cons_ne_nil "a" ["b"])
  constructor
  · obtain ⟨s, hbefore, hurls, hcurrent, hreaders⟩ : ∃ s, (RoundRobin.new ["a", "b"]).runListed
        (fun _ action => action.isRemoval = false) [.load 0, .compute 0, .exchange 0, .lookup 0,
          .load 0, .compute 0, .exchange 0, .lookup 0, .add "c"] = some s ∧
        s.workerUrls = ["a", "b", "c"] ∧ s.currentIndex = 0 ∧ s.readers = fun _ => .idle := by
      refine ⟨_, rfl, rfl, rfl, funext fun client => ?_⟩
      by_cases hclient : client = 0
      · subst hclient
        rfl
      · simp [RoundRobin.setReader, RoundRobin.new]
    have hrun : RoundRobin.Run RoundRobin.RemovalFits ["a", "b"] s :=
      RoundRobin.run_of_runListed (fun _ _ => RoundRobin.removalFits_of_not_removal) .new hbefore
    have hfits : s.RemovalFits (.remove "a") := by
      refine ⟨?_, ?_⟩
      · rw [hurls, hcurrent]
        decide
      · intro client index hindex
        rw [hreaders] at hindex
        cases hindex
    obtain ⟨urls, current, readers⟩ := s
    obtain rfl : urls = ["a", "b", "c"] := hurls
    obtain rfl : current = 0 := hcurrent
    obtain rfl : readers = fun _ => .idle := hreaders
    have hremoved := RoundRobin.Run.step hrun hfits rfl
    obtain ⟨s', hafter, hurls, hreader⟩ : ∃ s, RoundRobin.runListed
        (fun _ action => action.isRemoval = false) ⟨["b", "c"], 0, fun _ => .idle⟩
        [.load 0, .compute 0, .exchange 0] = some s ∧ s.workerUrls = ["b", "c"] ∧
          s.readers 0 = .chosen 0 :=
      ⟨_, rfl, rfl, rfl⟩
    have hrun' := RoundRobin.run_of_runListed
      (fun _ _ => RoundRobin.removalFits_of_not_removal) hremoved hafter
    exact ⟨s', hrun', hurls, hreader, hsafe.1 s' hrun'⟩
  · obtain ⟨tree, hplant, s, hbefore, hurls, hidle, htree, hrunning⟩ : ∃ tree,
        CacheAware.plant .new ["a", "b"] 0 = some tree ∧ ∃ s,
          (CacheAware.new ["a", "b"] tree).runListed CacheAware.steady TenantTree.firstLeast
            (fun s action => s.inTurn CacheAware.steady action = true)
            [.lockTree 0 ['x'], .lockRunning 0 1, .lockProcessed 0 1, .finish 0,
              .addUrl 0 "c", .addRunning 0, .addProcessed 0, .addTenant 0 2,
              .lockTree 0 ['y'], .lockRunning 0 3, .lockProcessed 0 3, .finish 0] = some s ∧
          s.workerUrls = ["a", "b", "c"] ∧ s.callers 0 = .idle ∧ s.treeHolder = none ∧
          s.runningHolder = none :=
      ⟨_, rfl, _, rfl, rfl, rfl, rfl, rfl⟩
    have hrun := CacheAware.run_of_runListed (fun _ _ => CacheAware.undisturbed_of_inTurn)
      (.new hplant) hbefore
    obtain ⟨s', hrun', hurls', _⟩ := CacheAware.removeWorker_undisturbed hrun hidle htree hrunning
      (hurls ▸ List.mem_cons_self : "a" ∈ s.workerUrls)
    refine ⟨s', hrun', ?_, hsafe.2 s' hrun'⟩
    rw [hurls', hurls]
    rfl

/-- The list is never empty. In the first run a removal leaves the index behind the list;
in the second a worker is chosen that an `add_worker` has put into one queue only. -/
theorem selection_panics :
    (∃ s, RoundRobin.Run (fun s _ => s.workerUrls ≠ []) ["a", "b"] s ∧ s.workerUrls ≠ [] ∧
      ¬ s.Safe) ∧
    ∃ s, CacheAware.Run CacheAware.eager TenantTree.firstLeast (fun s _ => s.workerUrls ≠ []) ["a"] s ∧
      s.workerUrls ≠ [] ∧ ¬ s.Safe := by
  constructor
  · obtain ⟨s, hrun, hurls, hreader⟩ : ∃ s, (RoundRobin.new ["a", "b"]).runListed
        (fun s _ => s.workerUrls ≠ []) [.load 0, .compute 0, .exchange 0, .lookup 0, .remove "b",
          .load 0, .compute 0, .exchange 0, .lookup 0] = some s ∧
        s.workerUrls = ["a"] ∧ s.readers 0 = .panicked :=
      ⟨_, rfl, rfl, rfl⟩
    refine ⟨s, RoundRobin.run_of_runListed (fun _ _ h => h) .new hrun, by simp [hurls], ?_⟩
    exact fun hsafe => hsafe.not_panicked 0 hreader
  · obtain ⟨tree, hplant, s, hrun, hurls, hcaller⟩ : ∃ tree,
        CacheAware.plant .new ["a"] 0 = some tree ∧ ∃ s,
          (CacheAware.new ["a"] tree).runListed CacheAware.eager TenantTree.firstLeast
            (fun s _ => s.workerUrls ≠ [])
            [.lockTree 0 ['x'], .lockRunning 0 1, .lockProcessed 0 1, .finish 0, .addUrl 1 "b",
              .addRunning 1, .lockTree 0 ['x'], .lockRunning 0 2, .lockProcessed 0 2] = some s ∧
          s.workerUrls = ["a", "b"] ∧ s.callers 0 = .panicked :=
      ⟨_, rfl, _, rfl, rfl, rfl⟩
    refine ⟨s, CacheAware.run_of_runListed (fun _ _ h => h) (.new hplant) hrun, by simp [hurls], ?_⟩
    exact fun hsafe => hsafe.not_panicked 0 hcaller

end FastPP
