import FastPP.Routing.StoredText

namespace FastPP

namespace TenantTree

/-- The same nodes with the same tenants. -/
structure SameTenants (S S' : TenantTree) : Prop where
  same : ∀ m, SameNode (S.nodes m) (S'.nodes m)
  tenants : ∀ m t, t ∈ (S'.nodes m).tenantLastAccessTime ↔ t ∈ (S.nodes m).tenantLastAccessTime

variable {S S' : TenantTree} {tree : Finset Nat} {rank : Nat → Nat} {n : Nat} {s text : List Char}
  {t : String} {heap : EvictionHeap}

theorem SameTenants.refl (S : TenantTree) : SameTenants S S :=
  ⟨fun _ => ⟨rfl, rfl, rfl⟩, fun _ _ => Iff.rfl⟩

theorem SameTenants.symm (h : SameTenants S S') : SameTenants S' S :=
  ⟨fun m => ⟨(h.same m).children.symm, (h.same m).text.symm, (h.same m).parent.symm⟩,
    fun m t => (h.tenants m t).symm⟩

theorem SameTenants.trans {S₁ : TenantTree} (h : SameTenants S S₁) (h₁ : SameTenants S₁ S') :
    SameTenants S S' where
  same m := ⟨(h₁.same m).children.trans (h.same m).children,
    (h₁.same m).text.trans (h.same m).text, (h₁.same m).parent.trans (h.same m).parent⟩
  tenants m t := (h₁.tenants m t).trans (h.tenants m t)

theorem SameTenants.stored_iff (h : SameTenants S S') : S'.Stored t s ↔ S.Stored t s := by
  constructor
  · intro ⟨n, hn, ht⟩
    exact ⟨n, hn.congr h.symm.same, (h.tenants n t).mp ht⟩
  · intro ⟨n, hn, ht⟩
    exact ⟨n, hn.congr h.same, (h.tenants n t).mpr ht⟩

theorem sameTenants_touch (now : Nat) (ht : t ∈ (S.nodes n).tenantLastAccessTime) :
    SameTenants S (S.touch n t now) where
  same := touch_same S n t now
  tenants m s := by
    rw [mem_touch]
    constructor
    · rintro (⟨rfl, rfl⟩ | hs)
      · exact ht
      · exact hs
    · exact .inr

/-- The way up to the root gives no node to a tenant that has the first one. -/
theorem sameTenants_touchUp {fuel now : Nat} (h : S.Tenanted tree) (hS : S.Shape tree rank)
    (hn : n ∈ tree) (ht : t ∈ (S.nodes n).tenantLastAccessTime)
    (hup : touchUp t now fuel S n = some S') : SameTenants S S' := by
  induction fuel generalizing S n with
  | zero => cases hup
  | succ fuel ih =>
    have htouch := sameTenants_touch now ht
    unfold touchUp at hup
    split at hup
    next => exact Option.some.inj hup ▸ htouch
    next p hparent =>
      have hp := (hS.hangs_of_parent hn hparent).mem
      have hown := h.inherit n hn p hparent t ht
      refine htouch.trans (ih ?_ (hS.congr rfl htouch.same) hp ((htouch.tenants p t).mpr hown) hup)
      constructor
      · intro m hm h0
        obtain ⟨s, hs⟩ := h.owned m hm h0
        exact ⟨s, (htouch.tenants m s).mpr hs⟩
      · intro m hm p hp s hs
        rw [(htouch.same m).parent] at hp
        rw [htouch.tenants] at hs ⊢
        exact h.inherit m hm p hp s hs

/-- What the loop finds from the root is the longest match among the texts of the nodes that
a filter lets pass. -/
theorem MatchedDown.longestMatch {accepts : Nat → Bool} {curr k : Nat} {P : List Char → Prop}
    (h : S.MatchedDown accepts 0 text curr k) (hP : ∀ s, P s → ∃ n, S.Down accepts 0 n s)
    (hleads : ∀ u, S.Down accepts 0 curr u → u ≠ [] → P u) :
    LongestMatch P text (text.take k) := by
  have hlength : (text.take k).length = k := by
    rw [List.length_take]
    exact Nat.min_eq_left h.le
  refine ⟨List.take_prefix _ _, ?_, ?_⟩
  · obtain ⟨u, hdown, hpre, _⟩ := h.leads
    by_cases hu : u = []
    · rw [hu] at hpre
      exact .inl (List.prefix_nil.mp hpre)
    · exact .inr ⟨u, hleads u hdown hu, hpre⟩
  · intro s hs pre htext hpre
    obtain ⟨n, hdown⟩ := hP s hs
    rw [hlength]
    exact h.longest n s pre hdown htext hpre

/-- The match ends in the node at which the loop ended. -/
theorem MatchedDown.endsAt {accepts : Nat → Bool} {curr k : Nat}
    (h : S.MatchedDown accepts 0 text curr k) : S.EndsAt curr (text.take k) := by
  obtain ⟨u, hdown, hpre, hends⟩ := h.leads
  refine ⟨u, hdown.mono fun _ _ => rfl, hpre, ?_⟩
  rw [List.length_take, Nat.min_eq_left h.le]
  rcases hends with ⟨rfl, _⟩ | hends
  · exact .inl rfl
  · exact .inr hends

/-- Only the empty text leads from the root to the root. -/
theorem Down.ne_root {accepts : Nat → Bool} {u : List Char} (h : S.Down accepts 0 n u)
    (hS : S.Shape tree rank) (hu : u ≠ []) : n ≠ 0 := by
  rintro rfl
  have hrank := h.rank_eq hS hS.root_mem
  have := List.length_pos_iff.mpr hu
  omega

theorem Sound.not_stored (h : S.Sound tree rank) (hroot : t ∉ (S.nodes 0).tenantLastAccessTime) :
    ¬ S.Stored t s := by
  intro ⟨n, hn, ht⟩
  exact hroot (h.tenant_root (hn.mem h.shape h.shape.root_mem) ht)

/-- `prefix_match` is exact: it returns the longest match among all stored texts, with a tenant
of the node where it ends. -/
theorem prefixMatch_exact (h : S.Sound tree rank) (text : List Char) (now : Nat) :
    ∃ S' matched tenant, S.prefixMatch text now = some (S', matched, tenant) ∧
      LongestMatch (fun s => ∃ t, S.Stored t s) text matched ∧
      ((∃ n, S.EndsAt n matched ∧ tenant ∈ (S.nodes n).tenantLastAccessTime) ∨
        tenant = "empty" ∧ ∀ t s, ¬ S.Stored t s) ∧
      ∀ t s, S'.Stored t s ↔ S.Stored t s := by
  obtain ⟨curr, k, hloop, hmatched⟩ := h.shape.matchLoop_exact (fun _ => true) h.shape.root_mem
    (Nat.le_refl text.length) 0
  have hcurr : curr ∈ tree := by
    obtain ⟨u, hdown, _⟩ := hmatched.leads
    exact hdown.mem h.shape h.shape.root_mem
  have hlongest : LongestMatch (fun s => ∃ t, S.Stored t s) text (text.take k) := by
    refine hmatched.longestMatch (fun s hs => ?_) fun u hdown hu => ?_
    · obtain ⟨t, n, hn, _⟩ := hs
      exact ⟨n, hn⟩
    · obtain ⟨t, ht⟩ := h.tenanted.owned curr hcurr (hdown.ne_root h.shape hu)
      exact ⟨t, curr, hdown, ht⟩
  rw [Nat.zero_add] at hloop
  unfold prefixMatch
  rw [hloop]
  cases hkeys : (S.nodes curr).tenantLastAccessTime.keys with
  | nil =>
    have hnone : ∀ t, t ∉ (S.nodes curr).tenantLastAccessTime := by
      intro t ht
      rw [AList.mem_keys, hkeys] at ht
      cases ht
    have hroot : curr = 0 := by
      by_contra h0
      obtain ⟨t, ht⟩ := h.tenanted.owned curr hcurr h0
      exact hnone t ht
    refine ⟨S, text.take k, "empty", ?_, hlongest, .inr ⟨rfl, fun t s => ?_⟩, fun _ _ => Iff.rfl⟩
    · simp [hkeys]
    · exact h.not_stored (hroot ▸ hnone t)
  | cons tenant rest =>
    have ht : tenant ∈ (S.nodes curr).tenantLastAccessTime := by
      rw [AList.mem_keys, hkeys]
      exact List.mem_cons_self
    have hends := hmatched.endsAt
    by_cases hempty : tenant = "empty"
    · refine ⟨S, text.take k, tenant, ?_, hlongest, .inl ⟨curr, hends, ht⟩, fun _ _ => Iff.rfl⟩
      simp [hkeys, hempty]
    · obtain ⟨S', hup, _⟩ := touchUp_sound now h hcurr ht (h.shape.above_le curr)
      have hsame := sameTenants_touchUp h.tenanted h.shape hcurr ht hup
      refine ⟨S', text.take k, tenant, ?_, hlongest, .inl ⟨curr, hends, ht⟩,
        fun _ _ => hsame.stored_iff⟩
      simp [hkeys, hempty, hup]

/-- `prefix_match_tenant` is exact: it returns the longest match among the texts stored for the
tenant. -/
theorem prefixMatchTenant_exact (h : S.Sound tree rank) (text : List Char) (t : String)
    (now : Nat) : ∃ S' matched, S.prefixMatchTenant text t now = some (S', matched) ∧
      LongestMatch (S.Stored t) text matched ∧ ∀ t' s, S'.Stored t' s ↔ S.Stored t' s := by
  obtain ⟨curr, k, hloop, hmatched⟩ := h.shape.matchLoop_exact
    (fun n => decide (t ∈ (S.nodes n).tenantLastAccessTime)) h.shape.root_mem
    (Nat.le_refl text.length) 0
  have hlongest : LongestMatch (S.Stored t) text (text.take k) := by
    refine hmatched.longestMatch (fun s hs => ?_) fun u hdown hu => ?_
    · obtain ⟨n, hn, ht⟩ := hs
      exact ⟨n, (hn.tenant h.shape h.tenanted h.shape.root_mem ht).1⟩
    · refine ⟨curr, hdown.mono fun _ _ => rfl, ?_⟩
      rcases hdown.passes_last with ⟨_, hnil⟩ | hpasses
      · exact absurd hnil hu
      · exact of_decide_eq_true hpasses
  have hcurr : curr ∈ tree := by
    obtain ⟨u, hdown, _⟩ := hmatched.leads
    exact hdown.mem h.shape h.shape.root_mem
  rw [Nat.zero_add] at hloop
  unfold prefixMatchTenant
  rw [hloop]
  by_cases ht : t ∈ (S.nodes curr).tenantLastAccessTime
  · obtain ⟨S', hup, _⟩ := touchUp_sound now h hcurr ht (h.shape.above_le curr)
    have hsame := sameTenants_touchUp h.tenanted h.shape hcurr ht hup
    refine ⟨S', text.take k, ?_, hlongest, fun _ _ => hsame.stored_iff⟩
    simp [ht, hup]
  · refine ⟨S, text.take k, ?_, hlongest, fun _ _ => Iff.rfl⟩
    simp [ht]

/-- In every run both matches are exact, for every text, and leave the stored texts alone. -/
theorem run_matches_exact (h : Run heap S) (text : List Char) (now : Nat) :
    (∃ S' matched tenant, S.prefixMatch text now = some (S', matched, tenant) ∧
      LongestMatch (fun s => ∃ t, S.Stored t s) text matched ∧
      ((∃ n, S.EndsAt n matched ∧ tenant ∈ (S.nodes n).tenantLastAccessTime) ∨
        tenant = "empty" ∧ ∀ t s, ¬ S.Stored t s) ∧
      ∀ t s, S'.Stored t s ↔ S.Stored t s) ∧
    ∀ t, ∃ S' matched, S.prefixMatchTenant text t now = some (S', matched) ∧
      LongestMatch (S.Stored t) text matched ∧ ∀ t' s, S'.Stored t' s ↔ S.Stored t' s := by
  obtain ⟨tree, rank, hsound⟩ := h.sound
  exact ⟨prefixMatch_exact hsound text now, fun t => prefixMatchTenant_exact hsound text t now⟩

theorem run_matches_exact_parted : ∃ S, partedTexts = some S ∧
    ∃ S', S.prefixMatchTenant ['a', 'd'] "second" 3 = some (S', ['a']) ∧
      LongestMatch (S.Stored "second") ['a', 'd'] ['a'] ∧
      ∀ t s, S'.Stored t s ↔ S.Stored t s := by
  obtain ⟨S, hS, hrun, _⟩ := partedTexts_run
  obtain ⟨S', matched, hmatch, hlongest, hkept⟩ :=
    (run_matches_exact hrun ['a', 'd'] 3).2 "second"
  have hview : (partedTexts.bind fun S => S.prefixMatchTenant ['a', 'd'] "second" 3).map Prod.snd =
      some ['a'] := by
    decide +kernel
  rw [hS, Option.bind_some, hmatch] at hview
  obtain rfl := Option.some.inj hview
  exact ⟨S, hS, S', hmatch, hlongest, hkept⟩

end TenantTree

end FastPP
