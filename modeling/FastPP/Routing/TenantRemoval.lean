import FastPP.Routing.EvictionOrder

namespace FastPP

namespace TenantTree

/-- What the removal of a tenant leaves of the tree. -/
structure Removed (S S' : TenantTree) (t : String) : Prop where
  gone : ∀ n, ¬ S'.Holds t n
  uncounted : t ∉ S'.tenantCharCount
  owned : ∀ n, S'.Reachable n → n ≠ 0 → ∃ u, u ∈ (S'.nodes n).tenantLastAccessTime
  holds : ∀ u, u ≠ t → ∀ n, S'.Holds u n ↔ S.Holds u n
  stored : ∀ u, u ≠ t → ∀ s, S'.Stored u s ↔ S.Stored u s
  matching : ∀ u, u ≠ t → ∀ text now,
    (S'.prefixMatchTenant text u now).map (·.2) = (S.prefixMatchTenant text u now).map (·.2)
  counts : ∀ u, u ≠ t → S'.tenantCharCount.lookup u = S.tenantCharCount.lookup u

variable {S S' : TenantTree} {tree tree' : Finset Nat} {rank : Nat → Nat} {n p : Nat}
  {t u : String} {s text : List Char} {heap : EvictionHeap}

theorem SameTenants.reachable (h : SameTenants S S') (hn : S.Reachable n) : S'.Reachable n := by
  induction hn with
  | root => exact .root
  | @child p n c _ edge ih => exact .child ih (by rw [(h.same p).children]; exact edge)

theorem SameTenants.holds_iff (h : SameTenants S S') : S'.Holds u n ↔ S.Holds u n := by
  unfold Holds
  rw [h.tenants]
  exact ⟨fun hn => ⟨h.symm.reachable hn.1, hn.2⟩, fun hn => ⟨h.reachable hn.1, hn.2⟩⟩

/-- What leads down in the rest of the tree led down before. -/
theorem Dropped.down_old {accepts : Nat → Bool} (hd : Dropped S S' tree tree' n t) {m : Nat}
    (h : S'.Down accepts p m s) (hp : p ∈ tree') : S.Down accepts p m s := by
  induction h with
  | here m => exact .here m
  | @child p k m c s edge passes _ ih =>
    obtain ⟨hold, hk⟩ := (hd.children p hp c k).mp edge
    rw [hd.text]
    exact .child hold passes (ih hk)

/-- The way down to a node of another tenant is still there. -/
theorem Dropped.down_kept (hd : Dropped S S' tree tree' n t) (hS : S.Shape tree rank)
    (hT : S.Tenanted tree) (hu : u ≠ t) {m : Nat} (h : S.Down (fun _ => true) p m s)
    (hp : p ∈ tree') (hm : u ∈ (S.nodes m).tenantLastAccessTime) :
    S'.Down (fun _ => true) p m s := by
  induction h with
  | here m => exact .here m
  | @child p k m c s edge _ below ih =>
    obtain ⟨hk, _⟩ := hS.children p (hd.sub p hp) c k edge
    obtain ⟨_, hown⟩ := below.tenant hS hT hk hm
    have hk' := hd.mem_of_tenant hk (hd.mem_tenants.mpr ⟨hown, fun e => hu e.2⟩)
    rw [← hd.text]
    exact .child ((hd.children p hp c k).mpr ⟨edge, hk'⟩) rfl (ih hk' hm)

theorem Dropped.stored_iff (hd : Dropped S S' tree tree' n t) (hS : S.Shape tree rank)
    (hT : S.Tenanted tree) (hS' : S'.Shape tree' rank) (hu : u ≠ t) :
    S'.Stored u s ↔ S.Stored u s := by
  constructor
  · intro ⟨m, hm, hown⟩
    exact ⟨m, hd.down_old hm hS'.root_mem, (hd.mem_tenants.mp hown).1⟩
  · intro ⟨m, hm, hown⟩
    exact ⟨m, hd.down_kept hS hT hu hm hS'.root_mem hown,
      hd.mem_tenants.mpr ⟨hown, fun e => hu e.2⟩⟩

/-- The removal leaves the other tenants alone, by induction on its rounds. -/
theorem removeLoop_others {fuel : Nat} {queue : List Nat} (h : S.Removing tree rank t queue)
    (hloop : removeLoop t fuel S queue = some S') (hu : u ≠ t) :
    (∀ n, S'.Holds u n ↔ S.Holds u n) ∧ ∀ s, S'.Stored u s ↔ S.Stored u s := by
  induction fuel generalizing S tree queue with
  | zero =>
    cases queue with
    | nil =>
      rw [removeLoop] at hloop
      obtain rfl := Option.some.inj hloop
      exact ⟨fun _ => Iff.rfl, fun _ => Iff.rfl⟩
    | cons n queue => cases hloop
  | succ fuel ih =>
    cases queue with
    | nil =>
      rw [removeLoop] at hloop
      obtain rfl := Option.some.inj hloop
      exact ⟨fun _ => Iff.rfl, fun _ => Iff.rfl⟩
    | cons n queue =>
      obtain ⟨S₁, tree₁, hdrop, hd, _, h₁⟩ := h.step
      rw [removeLoop, hdrop] at hloop
      obtain ⟨hholds, hstored⟩ := ih h₁ hloop
      constructor
      · intro m
        rw [hholds, hd.holds_iff rfl h.shape h₁.shape]
        exact ⟨And.left, fun hm => ⟨hm, fun e => hu e.2⟩⟩
      · intro s
        rw [hstored, hd.stored_iff h.shape h.tenanted h₁.shape hu]

theorem LongestMatch.unique {P : List Char → Prop} {matched matched' : List Char}
    (h : LongestMatch P text matched) (h' : LongestMatch P text matched') : matched = matched' := by
  have hle : ∀ {a b}, LongestMatch P text a → LongestMatch P text b → a.length ≤ b.length := by
    intro a b ha hb
    rcases ha.found with rfl | ⟨s, hs, hpre⟩
    · exact Nat.zero_le _
    · exact hb.longest s hs a ha.isPre hpre
  exact (List.prefix_of_prefix_length_le h.isPre h'.isPre (hle h h')).eq_of_length_le (hle h' h)

/-- What `prefix_match_tenant` returns is determined by the texts stored for the tenant. -/
theorem Sound.matching_eq {rank' : Nat → Nat} (h : S.Sound tree rank) (h' : S'.Sound tree' rank')
    (hstored : ∀ s, S'.Stored u s ↔ S.Stored u s) (text : List Char) (now : Nat) :
    (S'.prefixMatchTenant text u now).map (·.2) =
      (S.prefixMatchTenant text u now).map (·.2) := by
  obtain ⟨_, matched, hmatch, hlongest, _⟩ := prefixMatchTenant_exact h text u now
  obtain ⟨_, matched', hmatch', hlongest', _⟩ := prefixMatchTenant_exact h' text u now
  have hsame : S'.Stored u = S.Stored u := funext fun s => propext (hstored s)
  rw [hsame] at hlongest'
  rw [hmatch, hmatch', Option.map_some, Option.map_some, hlongest.unique hlongest']

/-- In every run `remove_tenant` removes the tenant from all nodes and with it every node that
has no other one, and leaves the other tenants alone. -/
theorem run_removes (h : Run heap S) (t : String) :
    ∃ S', S.removeTenant t = some S' ∧ Removed S S' t := by
  obtain ⟨tree, rank, hsound⟩ := h.sound
  obtain ⟨S', tree', hremove, hsound', hkeys⟩ := removeTenant_sound hsound t
  obtain ⟨nodes, hnodes, hnodup, hmem⟩ := hsound.shape.allNodes_spec
  have hstart := hsound.removing_start t hnodup hmem
  obtain ⟨S₁, _, hloop, _, hcounts⟩ := removeLoop_spec hstart
    ((Finset.card_filter_le _ _).trans hsound.shape.card_le)
  have hafter : S.removeTenant t =
      some { S₁ with tenantCharCount := S₁.tenantCharCount.erase t } := by
    unfold removeTenant
    rw [hnodes]
    show (removeLoop t S.nextNode S (nodes.filter fun n => t ∈ S.leafOf n)).bind _ = _
    rw [hloop]
    rfl
  obtain rfl := Option.some.inj (hremove.symm.trans hafter)
  have hsame : SameTenants S₁ { S₁ with tenantCharCount := S₁.tenantCharCount.erase t } :=
    ⟨fun _ => ⟨rfl, rfl, rfl⟩, fun _ _ => Iff.rfl⟩
  have huncounted : t ∉ S₁.tenantCharCount.erase t := fun ht => ((hkeys t).mp ht).1 rfl
  have hstored : ∀ u, u ≠ t → ∀ s,
      Stored { S₁ with tenantCharCount := S₁.tenantCharCount.erase t } u s ↔ S.Stored u s := by
    intro u hu s
    rw [hsame.stored_iff]
    exact (removeLoop_others hstart hloop hu).2 s
  refine ⟨_, hremove, ?_, huncounted, ?_, ?_, hstored, ?_, ?_⟩
  · intro n hn
    obtain ⟨hnt, ht⟩ := hsound'.shape.holds_iff.mp hn
    exact huncounted ((hsound'.entry t).mpr (hsound'.tenant_root hnt ht))
  · intro n hn h0
    exact hsound'.tenanted.owned n (hsound'.shape.reachable_mem hn) h0
  · intro u hu n
    rw [hsame.holds_iff]
    exact (removeLoop_others hstart hloop hu).1 n
  · exact fun u hu text now => hsound.matching_eq hsound' (hstored u hu) text now
  · intro u hu
    rw [← hcounts]
    exact AList.lookup_erase_ne hu

/-- One of the two tenants of the split node is removed. -/
theorem run_removes_parted : ∃ S, partedTexts = some S ∧
    ∃ S', S.removeTenant "first" = some S' ∧ Removed S S' "first" := by
  obtain ⟨S, hS, hrun, _⟩ := partedTexts_run
  exact ⟨S, hS, run_removes hrun "first"⟩

end TenantTree

end FastPP
