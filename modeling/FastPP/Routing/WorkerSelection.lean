import FastPP.Routing.CacheAware
import FastPP.Routing.RoundRobin

namespace FastPP

namespace LoadQueue

theorem mem_insert_iff {queue : LoadQueue} {url other : String} {load : Nat} :
    other ∈ queue.insert url load ↔ other = url ∨ other ∈ queue := by
  rw [AList.mem_insert]

/-- A count that changes leaves the workers as they are. -/
theorem mem_recount {queue : LoadQueue} {url other : String} {load : Nat} (h : url ∈ queue) :
    other ∈ queue.insert url load ↔ other ∈ queue := by
  rw [mem_insert_iff]
  constructor
  · rintro (rfl | hother)
    · exact h
    · exact hother
  · exact Or.inr

theorem mem_ofUrls {urls : List String} {url : String} : url ∈ ofUrls urls ↔ url ∈ urls := by
  have hfold : ∀ (urls : List String) (queue : LoadQueue),
      url ∈ urls.foldl (fun queue url => queue.insert url 0) queue ↔ url ∈ urls ∨ url ∈ queue := by
    intro urls
    induction urls with
    | nil => simp
    | cons first urls ih =>
      intro queue
      rw [List.foldl_cons, ih, mem_insert_iff, List.mem_cons]
      tauto
  rw [ofUrls, hfold]
  simp

/-- The shortest queue has the least load. -/
theorem lookup_shortest {queue : LoadQueue} {url : String} (h : queue.shortest = some url) :
    queue.lookup url = some queue.minLoad := by
  obtain ⟨entry, hentry, rfl⟩ := Option.map_eq_some_iff.mp h
  have hmem := List.argmin_mem hentry
  have hleast : queue.loads.min? = some entry.2 := by
    apply List.min?_eq_some_iff.mpr
    constructor
    · exact List.mem_map_of_mem hmem
    · intro load hload
      obtain ⟨other, hother, rfl⟩ := List.mem_map.mp hload
      exact List.le_of_mem_argmin hother hentry
  rw [minLoad, hleast]
  exact AList.mem_lookup_iff.mpr hmem

theorem shortest_eq_none {queue : LoadQueue} (h : queue.shortest = none) : queue.loads = [] := by
  have hnone := List.argmin_eq_none.mp (Option.map_eq_none_iff.mp h)
  rw [loads, hnone]
  rfl

end LoadQueue

/-- The smallest tenant is one, if there is any. -/
theorem TenantTree.getSmallestTenant_mem {S : TenantTree} {t : String}
    (h : t ∈ S.tenantCharCount) : S.getSmallestTenant ∈ S.tenantCharCount := by
  unfold getSmallestTenant
  cases hleast : S.tenantCharCount.entries.argmin fun entry => entry.2 with
  | none =>
    have hnil := List.argmin_eq_none.mp hleast
    rw [AList.mem_keys, AList.keys, hnil] at h
    cases h
  | some entry =>
    rw [AList.mem_keys]
    exact List.mem_map_of_mem (List.argmin_mem hleast)

namespace CacheAware

variable {policy : BalancePolicy} {heap : EvictionHeap} {s : CacheAware}

/-- An imbalanced queue has entries. -/
theorem shortest_of_isImbalanced (h : isImbalanced policy s.runningQueue) :
    ∃ url, s.runningQueue.shortest = some url := by
  cases hshort : s.runningQueue.shortest with
  | some url => exact ⟨url, rfl⟩
  | none =>
    have hloads := LoadQueue.shortest_eq_none hshort
    unfold isImbalanced LoadQueue.maxLoad at h
    rw [hloads] at h
    simp at h

/-- The invariant: an entry of `running_queue` belongs to a listed worker or to one that is
on its way out, and has its partner or gets it; a tenant has both entries; and the worker
of a selection has both, which nobody removes while it holds its lock. -/
structure Kept (s : CacheAware) : Prop where
  sound : ∃ nodes rank, s.tree.Sound nodes rank
  not_panicked : ∀ client, s.callers client ≠ .panicked
  listed : ∀ url ∈ s.runningQueue,
    url ∈ s.workerUrls ∨ ∃ other, (s.callers other).Removing url
  counted : ∀ url ∈ s.runningQueue, url ∈ s.processedQueue ∨ ∃ other, s.callers other = .queued url
  tenants : ∀ url ∈ s.tree.tenantCharCount, url ∈ s.runningQueue ∧ url ∈ s.processedQueue
  routed : ∀ client text url, s.callers client = .routed text url →
    s.runningHolder = some client ∧ url ∈ s.runningQueue ∧ url ∈ s.processedQueue

theorem Kept.safe (h : s.Kept) : s.Safe where
  not_panicked := h.not_panicked
  selected := by
    intro client text url hrouted
    obtain ⟨_, hrunning, hprocessed⟩ := h.routed client text url hrouted
    exact ⟨hrunning, hprocessed, h.listed url hrunning⟩

/-- While the lock is free no selection has chosen. -/
theorem Kept.not_routed (h : s.Kept) (hfree : s.runningHolder = none) (client : Nat)
    (text : List Char) (url : String) : s.callers client ≠ .routed text url := by
  intro hrouted
  have hholder := (h.routed client text url hrouted).1
  rw [hfree] at hholder
  cases hholder

theorem setCaller_callers (s : CacheAware) (client other : Nat) (call : RouterCall) :
    (s.setCaller client call).callers other = if other = client then call else s.callers other :=
  Function.update_apply s.callers client call other

/-- A call goes on, if nobody needs where it stood. -/
theorem Kept.setCaller (h : s.Kept) (client : Nat) (call : RouterCall)
    (hne : call ≠ .panicked)
    (hremoving : ∀ url, (s.callers client).Removing url →
      call.Removing url ∨ url ∉ s.runningQueue)
    (hqueued : ∀ url, s.callers client = .queued url → url ∈ s.processedQueue)
    (hrouted : ∀ text url, call = .routed text url →
      s.runningHolder = some client ∧ url ∈ s.runningQueue ∧ url ∈ s.processedQueue) :
    (s.setCaller client call).Kept where
  sound := h.sound
  not_panicked := by
    intro other
    rw [setCaller_callers]
    by_cases hsame : other = client
    · rw [if_pos hsame]
      exact hne
    · rw [if_neg hsame]
      exact h.not_panicked other
  listed := by
    intro url hurl
    apply (h.listed url hurl).imp_right
    rintro ⟨other, hother⟩
    by_cases hsame : other = client
    · subst hsame
      refine ⟨other, ?_⟩
      rw [setCaller_callers, if_pos rfl]
      exact (hremoving url hother).resolve_right (not_not_intro hurl)
    · refine ⟨other, ?_⟩
      rw [setCaller_callers, if_neg hsame]
      exact hother
  counted := by
    intro url hurl
    rcases h.counted url hurl with hprocessed | ⟨other, hother⟩
    · exact .inl hprocessed
    · by_cases hsame : other = client
      · subst hsame
        exact .inl (hqueued url hother)
      · refine .inr ⟨other, ?_⟩
        rw [setCaller_callers, if_neg hsame]
        exact hother
  tenants := h.tenants
  routed := by
    intro other text url hother
    rw [setCaller_callers] at hother
    split at hother
    next hsame =>
      rw [hsame]
      exact hrouted text url hother
    next => exact h.routed other text url hother

/-- A call from a place that nobody needs goes on to another one. -/
theorem Kept.move (h : s.Kept) (client : Nat) (call : RouterCall) (hne : call ≠ .panicked)
    (hremoving : ∀ url, ¬ (s.callers client).Removing url)
    (hqueued : ∀ url, s.callers client ≠ .queued url)
    (hrouted : ∀ text url, call ≠ .routed text url) : (s.setCaller client call).Kept :=
  h.setCaller client call hne (fun url hurl => absurd hurl (hremoving url))
    (fun url hurl => absurd hurl (hqueued url)) fun text url hurl => absurd hurl (hrouted text url)

/-- The tree changes, and has no tenants without entries. -/
theorem Kept.setTree (h : s.Kept) {tree : TenantTree} (hsound : ∃ nodes rank, tree.Sound nodes rank)
    (htenants : ∀ url ∈ tree.tenantCharCount, url ∈ s.tree.tenantCharCount ∨
      url ∈ s.runningQueue ∧ url ∈ s.processedQueue) : ({ s with tree := tree } : CacheAware).Kept where
  sound := hsound
  not_panicked := h.not_panicked
  listed := h.listed
  counted := h.counted
  tenants := by
    intro url hurl
    exact (htenants url hurl).elim (h.tenants url) id
  routed := h.routed

/-- The tree is searched or trimmed. -/
theorem Kept.sameTenants (h : s.Kept) {tree : TenantTree}
    (hsound : ∃ nodes rank, tree.Sound nodes rank)
    (hsame : ∀ url, url ∈ tree.tenantCharCount ↔ url ∈ s.tree.tenantCharCount) :
    ({ s with tree := tree } : CacheAware).Kept :=
  h.setTree hsound fun url hurl => .inl ((hsame url).mp hurl)

/-- Counts change, and entries are added. -/
theorem Kept.setQueues (h : s.Kept) (running processed : LoadQueue)
    (hrunning : ∀ url, url ∈ running ↔ url ∈ s.runningQueue)
    (hprocessed : ∀ url ∈ s.processedQueue, url ∈ processed) :
    ({ s with runningQueue := running, processedQueue := processed } : CacheAware).Kept where
  sound := h.sound
  not_panicked := h.not_panicked
  listed url hurl := h.listed url ((hrunning url).mp hurl)
  counted url hurl := (h.counted url ((hrunning url).mp hurl)).imp_left (hprocessed url)
  tenants := by
    intro url hurl
    obtain ⟨hr, hp⟩ := h.tenants url hurl
    exact ⟨(hrunning url).mpr hr, hprocessed url hp⟩
  routed := by
    intro client text url hurl
    obtain ⟨hholder, hr, hp⟩ := h.routed client text url hurl
    exact ⟨hholder, (hrunning url).mpr hr, hprocessed url hp⟩

end CacheAware

end FastPP
