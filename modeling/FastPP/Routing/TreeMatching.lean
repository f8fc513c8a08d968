import FastPP.Routing.TreeSplit

namespace FastPP

namespace TenantTree

variable {S : TenantTree} {tree : Finset Nat} {rank : Nat → Nat} {n prev : Nat} {t : String}

/-- The loop of the two matches ends at a node of the tree. -/
theorem Shape.matchLoop_spec (h : S.Shape tree rank) (accepts : Nat → Bool) {fuel : Nat}
    {text : List Char} (hprev : prev ∈ tree) (hfuel : text.length ≤ fuel) (currIdx : Nat) :
    ∃ curr currIdx', S.matchLoop accepts fuel prev text currIdx = some (curr, currIdx') ∧
      curr ∈ tree := by
  induction fuel generalizing prev text currIdx with
  | zero =>
    obtain rfl := List.length_eq_zero_iff.mp (Nat.le_zero.mp hfuel)
    exact ⟨prev, currIdx, by rw [matchLoop], hprev⟩
  | succ fuel ih =>
    cases text with
    | nil => exact ⟨prev, currIdx, by rw [matchLoop], hprev⟩
    | cons c rest =>
      unfold matchLoop
      cases hchild : (S.nodes prev).children.lookup c with
      | none => exact ⟨prev, currIdx, rfl, hprev⟩
      | some matched =>
        obtain ⟨hmt, _, _, hhead⟩ := h.children prev hprev c matched hchild
        have hpos : 0 < sharedPrefixCount (S.nodes matched).text (c :: rest) :=
          sharedPrefixCount_pos hhead rfl
        simp only
        split
        next =>
          split
          next =>
            apply ih hmt
            rw [List.length_drop]
            omega
          next => exact ⟨matched, _, rfl, hmt⟩
        next => exact ⟨prev, currIdx, rfl, hprev⟩

/-- The nodes whose text down to them is not longer. -/
def above (tree : Finset Nat) (rank : Nat → Nat) (n : Nat) : Finset Nat :=
  tree.filter fun m => rank m ≤ rank n

theorem Hangs.above_lt {p : Nat} (h : S.Hangs tree rank n p) (hn : n ∈ tree) :
    (above tree rank p).card < (above tree rank n).card := by
  apply Finset.card_lt_card
  have hlt := h.rank_lt
  refine ⟨?_, ?_⟩
  · intro m hm
    obtain ⟨hmt, hle⟩ := Finset.mem_filter.mp hm
    exact Finset.mem_filter.mpr ⟨hmt, by omega⟩
  · intro hsub
    have hmem := hsub (Finset.mem_filter.mpr ⟨hn, Nat.le_refl (rank n)⟩)
    have hle := (Finset.mem_filter.mp hmem).2
    omega

/-- The way up to the root ends, and writes times only. -/
theorem touchUp_sound {fuel : Nat} (now : Nat) (h : S.Sound tree rank) (hn : n ∈ tree)
    (ht : t ∈ (S.nodes n).tenantLastAccessTime) (hfuel : (above tree rank n).card ≤ fuel) :
    ∃ S', touchUp t now fuel S n = some S' ∧ S'.Sound tree rank ∧
      ∀ s, s ∈ S'.tenantCharCount ↔ s ∈ S.tenantCharCount := by
  induction fuel generalizing S n with
  | zero =>
    have hpos : 0 < (above tree rank n).card :=
      Finset.card_pos.mpr ⟨n, Finset.mem_filter.mpr ⟨hn, Nat.le_refl _⟩⟩
    omega
  | succ fuel ih =>
    have hentry := (h.entry t).mpr (h.tenant_root hn ht)
    have hg := granted_touch now ht hentry
    have h₁ : (S.touch n t now).Sound tree rank := by
      apply hg.sound h hn
      intro p hp
      exact h.tenanted.inherit n hn p hp t ht
    unfold touchUp
    cases hparent : (S.nodes n).parent with
    | none => exact ⟨_, rfl, h₁, fun _ => Iff.rfl⟩
    | some p =>
      have hp := h.shape.hangs_of_parent hn hparent
      have hlt := hp.above_lt hn
      exact ih h₁ hp.mem ((hg.tenants p t).mpr (.inr (h.tenanted.inherit n hn p hparent t ht)))
        (by omega)

theorem Shape.above_le (h : S.Shape tree rank) (n : Nat) :
    (above tree rank n).card ≤ S.nextNode :=
  (Finset.card_filter_le _ _).trans h.card_le

/-- `prefix_match` returns, keeps the tree sound, and names a tenant of the tree unless
there is none. -/
theorem prefixMatch_sound (h : S.Sound tree rank) (text : List Char) (now : Nat) :
    ∃ S' matched tenant, S.prefixMatch text now = some (S', matched, tenant) ∧
      S'.Sound tree rank ∧ (∀ s, s ∈ S'.tenantCharCount ↔ s ∈ S.tenantCharCount) ∧
      (tenant ∈ S.tenantCharCount ∨ (tenant = "empty" ∧ ∀ s, s ∉ S.tenantCharCount)) := by
  obtain ⟨curr, currIdx, hloop, hcurr⟩ := h.shape.matchLoop_spec (fun _ => true)
    h.shape.root_mem (Nat.le_refl text.length) 0
  cases hkeys : (S.nodes curr).tenantLastAccessTime.keys with
  | nil =>
    have hnone : ∀ s, s ∉ (S.nodes curr).tenantLastAccessTime := by
      intro s hs
      rw [AList.mem_keys, hkeys] at hs
      cases hs
    have hroot : curr = 0 := by
      by_contra h0
      obtain ⟨s, hs⟩ := h.tenanted.owned curr hcurr h0
      exact hnone s hs
    refine ⟨S, text.take currIdx, "empty", ?_, h, fun _ => Iff.rfl, .inr ⟨rfl, ?_⟩⟩
    · unfold prefixMatch
      rw [hloop]
      have hfirst : ((S.nodes curr).tenantLastAccessTime.keys.head?).getD "empty" = "empty" := by
        rw [hkeys]
        rfl
      simp only [Option.bind_eq_bind, Option.bind_some, hfirst, if_true, Option.pure_def]
    · intro s hs
      rw [h.entry, ← hroot] at hs
      exact hnone s hs
  | cons tenant rest =>
    have ht : tenant ∈ (S.nodes curr).tenantLastAccessTime := by
      rw [AList.mem_keys, hkeys]
      exact List.mem_cons_self
    have hentry := (h.entry tenant).mpr (h.tenant_root hcurr ht)
    obtain ⟨S', hup, hsound, hcounts⟩ := touchUp_sound now h hcurr ht (h.shape.above_le curr)
    have hfirst : ((S.nodes curr).tenantLastAccessTime.keys.head?).getD "empty" = tenant := by
      rw [hkeys]
      rfl
    by_cases hempty : tenant = "empty"
    · refine ⟨S, text.take currIdx, tenant, ?_, h, fun _ => Iff.rfl, .inl hentry⟩
      unfold prefixMatch
      rw [hloop]
      simp only [Option.bind_eq_bind, Option.bind_some, hfirst, if_pos hempty, Option.pure_def]
    · refine ⟨S', text.take currIdx, tenant, ?_, hsound, hcounts, .inl hentry⟩
      unfold prefixMatch
      rw [hloop]
      simp only [Option.bind_eq_bind, Option.bind_some, hfirst, if_neg hempty, hup,
        Option.pure_def]

/-- `prefix_match_tenant` returns and keeps the tree sound. -/
theorem prefixMatchTenant_sound (h : S.Sound tree rank) (text : List Char) (t : String)
    (now : Nat) : ∃ S' matched, S.prefixMatchTenant text t now = some (S', matched) ∧
      S'.Sound tree rank := by
  obtain ⟨curr, currIdx, hloop, hcurr⟩ := h.shape.matchLoop_spec
    (fun n => decide (t ∈ (S.nodes n).tenantLastAccessTime)) h.shape.root_mem
    (Nat.le_refl text.length) 0
  unfold prefixMatchTenant
  rw [hloop]
  by_cases ht : t ∈ (S.nodes curr).tenantLastAccessTime
  · obtain ⟨S', hup, hsound, _⟩ := touchUp_sound now h hcurr ht (h.shape.above_le curr)
    refine ⟨S', text.take currIdx, ?_, hsound⟩
    simp only [Option.bind_eq_bind, Option.bind_some, if_pos ht, hup, Option.pure_def]
  · refine ⟨S, text.take currIdx, ?_, h⟩
    simp only [Option.bind_eq_bind, Option.bind_some, if_neg ht, Option.pure_def]

end TenantTree

end FastPP
