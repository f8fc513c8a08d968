import FastPP.Routing.PrefixMatching

namespace FastPP

namespace TenantTree

/-- The tenant has the node, which is in the tree. -/
def Holds (S : TenantTree) (t : String) (n : Nat) : Prop :=
  S.Reachable n ∧ t ∈ (S.nodes n).tenantLastAccessTime

/-- A leaf among the nodes of the tenant that was accessed no later than its other leaves. -/
structure OldestLeaf (S : TenantTree) (t : String) (n : Nat) : Prop where
  holds : S.Holds t n
  leaf : S.NotBelow n t
  oldest : ∀ m, S.Holds t m → S.NotBelow m t →
    ∀ first ∈ (S.nodes n).tenantLastAccessTime.lookup t,
      ∀ time ∈ (S.nodes m).tenantLastAccessTime.lookup t, first ≤ time

/-- Tenants are taken out of nodes one at a time, each out of its oldest leaf and only while
its count is over the size. -/
inductive Evictions (maxSize : Nat) : TenantTree → List (Nat × String) → TenantTree → Prop
  | done (S : TenantTree) : Evictions maxSize S [] S
  | evict {S S₁ S₂ S' : TenantTree} {n : Nat} {t : String} {later : List (Nat × String)}
      (exceeds : maxSize < S.charCount t) (oldest : S.OldestLeaf t n)
      (counted : S.subChars t (S.nodes n).text.length = some S₁)
      (dropped : S₁.dropTenant n t = some S₂) (rest : Evictions maxSize S₂ later S') :
      Evictions maxSize S ((n, t) :: later) S'

/-- What an eviction leaves of the tree. -/
structure Evicted (S S' : TenantTree) (maxSize : Nat) (removed : List (Nat × String)) : Prop where
  order : Evictions maxSize S removed S'
  bounded : ∀ t, S'.charCount t ≤ maxSize
  lost : ∀ t n, S'.Holds t n ↔ S.Holds t n ∧ (n, t) ∉ removed
  kept : ∀ t, S.charCount t ≤ maxSize → ∀ n, S'.Holds t n ↔ S.Holds t n
  text : ∀ n, (S'.nodes n).text = (S.nodes n).text
  closed : ∀ t n, S'.Holds t n → n ≠ 0 →
    ∃ p c, S'.Holds t p ∧ (S'.nodes p).children.lookup c = some n
  prefixes : ∀ t s, S'.Stored t s → ∀ pre, pre <+: s → ∀ now,
    (S'.prefixMatchTenant pre t now).map (·.2) = some pre

variable {S S₁ S' : TenantTree} {tree tree' : Finset Nat} {rank : Nat → Nat} {n m : Nat}
  {t s : String} {heap : EvictionHeap} {maxSize : Nat}

theorem Shape.holds_iff (h : S.Shape tree rank) :
    S.Holds t n ↔ n ∈ tree ∧ t ∈ (S.nodes n).tenantLastAccessTime :=
  ⟨fun hn => ⟨h.reachable_mem hn.1, hn.2⟩, fun hn => ⟨h.mem_reachable hn.1, hn.2⟩⟩

theorem Sound.withinSize_eq (h : S.Sound tree rank) (hn : n ∈ tree)
    (ht : t ∈ (S.nodes n).tenantLastAccessTime) :
    S.withinSize maxSize t = decide (S.charCount t ≤ maxSize) := by
  have hentry := (h.entry t).mpr (h.tenant_root hn ht)
  obtain ⟨count, hcount⟩ := Option.isSome_iff_exists.mp (AList.lookup_isSome.mpr hentry)
  unfold withinSize charCount
  rw [hcount]
  rfl

/-- The entries have the access times of their leaves, and every leaf of a tenant that is over
the size has one. -/
structure Frontier (S : TenantTree) (tree : Finset Nat) (maxSize : Nat)
    (pq : List EvictionEntry) : Prop where
  timed : ∀ e ∈ pq, (S.nodes e.node).tenantLastAccessTime.lookup e.tenant = some e.timestamp
  complete : ∀ t, maxSize < S.charCount t → ∀ m ∈ tree, t ∈ S.leafOf m →
    ∃ e ∈ pq, e.node = m ∧ e.tenant = t

namespace Frontier

variable {e : EvictionEntry} {pq rest : List EvictionEntry}

theorem of_perm (h : S.Frontier tree maxSize pq) (hp : rest.Perm pq) :
    S.Frontier tree maxSize rest where
  timed e he := h.timed e (hp.mem_iff.mp he)
  complete t hover m hm hleaf := by
    obtain ⟨e, he, heq⟩ := h.complete t hover m hm hleaf
    exact ⟨e, hp.mem_iff.mpr he, heq⟩

/-- The entry of a tenant within the size is not needed. -/
theorem tail (h : S.Frontier tree maxSize (e :: rest)) (hwithin : S.charCount e.tenant ≤ maxSize) :
    S.Frontier tree maxSize rest where
  timed e' he' := h.timed e' (List.mem_cons_of_mem e he')
  complete t hover m hm hleaf := by
    obtain ⟨e', he', hnode, rfl⟩ := h.complete t hover m hm hleaf
    rcases List.mem_cons.mp he' with rfl | he'
    · omega
    · exact ⟨e', he', hnode, rfl⟩

/-- The least entry is an oldest leaf of its tenant. -/
theorem oldestLeaf (h : S.Frontier tree maxSize (e :: rest)) (hshape : S.Shape tree rank)
    (hpq : S.Evicting tree (e :: rest)) (hleast : ∀ z ∈ rest, e.timestamp ≤ z.timestamp)
    (hover : maxSize < S.charCount e.tenant) : S.OldestLeaf e.tenant e.node := by
  obtain ⟨hn, hleaf⟩ := hpq.leaves e List.mem_cons_self
  obtain ⟨ht, hbelow⟩ := mem_leafOf.mp hleaf
  refine ⟨hshape.holds_iff.mpr ⟨hn, ht⟩, hbelow, ?_⟩
  intro m hm hmbelow first hfirst time htime
  rw [h.timed e List.mem_cons_self] at hfirst
  obtain rfl := Option.some.inj hfirst
  obtain ⟨hmt, hmo⟩ := hshape.holds_iff.mp hm
  obtain ⟨z, hz, rfl, hzt⟩ := h.complete e.tenant hover m hmt (mem_leafOf.mpr ⟨hmo, hmbelow⟩)
  have hlookup := h.timed z hz
  rw [hzt, htime] at hlookup
  obtain rfl := Option.some.inj hlookup
  rcases List.mem_cons.mp hz with rfl | hz
  · exact Nat.le_refl _
  · exact hleast z hz

theorem parentEntry_complete {p : Nat} (hparent : (S'.nodes n).parent = some p)
    (hleaf : t ∈ S'.leafOf p) :
    ∃ e ∈ (S'.parentEntry n t).toList, e.node = p ∧ e.tenant = t := by
  obtain ⟨time, htime⟩ :=
    Option.isSome_iff_exists.mp (AList.lookup_isSome.mpr (mem_leafOf.mp hleaf).1)
  have hentry : S'.parentEntry n t = some ⟨time, t, p⟩ := by
    unfold parentEntry
    rw [hparent]
    show (if t ∈ S'.leafOf p then _ else _) = _
    rw [if_pos hleaf, htime]
    rfl
  exact ⟨⟨time, t, p⟩, by rw [hentry]; exact List.mem_cons_self, rfl, rfl⟩

theorem parentEntry_timed (he : e ∈ (S'.parentEntry n t).toList) :
    (S'.nodes e.node).tenantLastAccessTime.lookup e.tenant = some e.timestamp := by
  have he := Option.mem_toList.mp he
  unfold parentEntry at he
  split at he
  next => cases he
  next p hp =>
    split at he
    next hleaf =>
      obtain ⟨time, htime, rfl⟩ := Option.map_eq_some_iff.mp he
      exact htime
    next => cases he

/-- After an eviction the entries are still right: only the parent can be a new leaf. -/
theorem step (h : S.Frontier tree maxSize (e :: rest)) (hnodes : S₁.nodes = S.nodes)
    (hshape : S₁.Shape tree rank) (hpq : S.Evicting tree (e :: rest))
    (hd : Dropped S₁ S' tree tree' e.node e.tenant)
    (hcount : ∀ s, S'.charCount s ≤ S.charCount s) :
    S'.Frontier tree' maxSize (rest ++ (S'.parentEntry e.node e.tenant).toList) := by
  constructor
  · intro e' he'
    rcases List.mem_append.mp he' with he' | he'
    · have htime := h.timed e' (List.mem_cons_of_mem e he')
      rw [hd.tenants, hnodes]
      by_cases hnode : e'.node = e.node
      · have htenant : e'.tenant ≠ e.tenant := by
          intro htenant
          have hnodup := hpq.nodup
          rw [List.map_cons, List.nodup_cons] at hnodup
          exact hnodup.1 (List.mem_map.mpr ⟨e', he', by rw [hnode, htenant]⟩)
        rw [if_pos hnode, AList.lookup_erase_ne htenant]
        exact htime
      · rw [if_neg hnode]
        exact htime
    · exact parentEntry_timed he'
  · intro s hover m hm hleaf
    obtain ⟨hmo, hbelow⟩ := mem_leafOf.mp hleaf
    by_cases hparent : (S₁.nodes e.node).parent = some m ∧ s = e.tenant
    · obtain ⟨hparent, rfl⟩ := hparent
      rw [← hd.parent] at hparent
      obtain ⟨e', he', heq⟩ := parentEntry_complete hparent hleaf
      exact ⟨e', List.mem_append_right rest he', heq⟩
    · obtain ⟨hold, hne⟩ := hd.mem_tenants.mp hmo
      have hbelow₁ := hd.notBelow_old hshape hm (fun hp hs => hparent ⟨hp, hs⟩) hbelow
      have hleaf₁ : s ∈ S₁.leafOf m := mem_leafOf.mpr ⟨hold, hbelow₁⟩
      have hleafS : s ∈ S.leafOf m := by
        unfold leafOf at hleaf₁ ⊢
        rwa [← hnodes]
      obtain ⟨e', he', rfl, rfl⟩ :=
        h.complete s (hover.trans_le (hcount s)) m (hd.sub m hm) hleafS
      rcases List.mem_cons.mp he' with rfl | he'
      · exact absurd ⟨rfl, rfl⟩ hne
      · exact ⟨e', List.mem_append_left _ he', rfl, rfl⟩

end Frontier

theorem leafEntries_timed {e : EvictionEntry} (he : e ∈ S.leafEntries n) :
    (S.nodes e.node).tenantLastAccessTime.lookup e.tenant = some e.timestamp := by
  obtain ⟨tenant, _, he⟩ := List.mem_filterMap.mp he
  obtain ⟨time, htime, rfl⟩ := Option.map_eq_some_iff.mp he
  exact htime

/-- The leaves of all nodes are all entries. -/
theorem frontier_start (S : TenantTree) (maxSize : Nat) {nodes : List Nat}
    (hmem : ∀ n, n ∈ nodes ↔ n ∈ tree) :
    S.Frontier tree maxSize (nodes.flatMap S.leafEntries) where
  timed := by
    intro e he
    obtain ⟨n, _, he⟩ := List.mem_flatMap.mp he
    exact leafEntries_timed he
  complete := by
    intro t _ m hm hleaf
    obtain ⟨time, htime⟩ :=
      Option.isSome_iff_exists.mp (AList.lookup_isSome.mpr (mem_leafOf.mp hleaf).1)
    refine ⟨⟨time, t, m⟩, List.mem_flatMap.mpr ⟨m, (hmem m).mpr hm, ?_⟩, rfl, rfl⟩
    exact List.mem_filterMap.mpr ⟨t, hleaf, by rw [htime]; rfl⟩

/-- When no entry is left, no tenant is over the size: one that is has a leaf. -/
theorem Sound.bounded (h : S.Sound tree rank) (hfrontier : S.Frontier tree maxSize []) (t : String) :
    S.charCount t ≤ maxSize := by
  by_contra hover
  have hpos : S.usedSize tree t ≠ 0 := by
    rw [← h.count]
    omega
  obtain ⟨n, hn, hshare⟩ := Finset.exists_ne_zero_of_sum_ne_zero hpos
  have ht : t ∈ (S.nodes n).tenantLastAccessTime := by
    by_contra ht
    exact hshare (if_neg ht)
  obtain ⟨m, hm, hleaf⟩ := h.shape.exists_leaf hn ht
  obtain ⟨e, he, _⟩ := hfrontier.complete t (by omega) m hm hleaf
  cases he

/-- One eviction takes one node from one tenant, whose count goes down. -/
theorem Dropped.holds_iff (hd : Dropped S₁ S' tree tree' n t) (hnodes : S₁.nodes = S.nodes)
    (hS : S.Shape tree rank) (hS' : S'.Shape tree' rank) :
    S'.Holds s m ↔ S.Holds s m ∧ ¬ (m = n ∧ s = t) := by
  rw [hS.holds_iff, hS'.holds_iff, hd.mem_tenants, hnodes]
  constructor
  · intro ⟨hm, hs, hne⟩
    exact ⟨⟨hd.sub m hm, hs⟩, hne⟩
  · intro ⟨⟨hm, hs⟩, hne⟩
    refine ⟨hd.mem_of_tenant hm (hd.mem_tenants.mpr ⟨?_, hne⟩), hs, hne⟩
    rwa [hnodes]

theorem Dropped.charCount_le (hd : Dropped S₁ S' tree tree' n t) (hnodes : S₁.nodes = S.nodes)
    (hn : n ∈ tree) (hS : S.Sound tree rank) (hS' : S'.Sound tree' rank) (s : String) :
    S'.charCount s ≤ S.charCount s := by
  have hused := hd.usedSize_eq hn s
  have hsame : S₁.usedSize tree s = S.usedSize tree s := by
    unfold usedSize share
    rw [hnodes]
  rw [hS.count, hS'.count]
  omega

/-- The loop evicts oldest leaves until no tenant is over the size, by induction on its
rounds. -/
theorem evictLoop_order {fuel : Nat} {pq : List EvictionEntry} (h : S.Sound tree rank)
    (hpq : S.Evicting tree pq) (hfrontier : S.Frontier tree maxSize pq)
    (hloop : evictLoop heap maxSize fuel S pq = some S') :
    ∃ removed tree', Evictions maxSize S removed S' ∧ S'.Frontier tree' maxSize [] ∧
      S'.Sound tree' rank := by
  induction fuel generalizing S tree pq with
  | zero => cases hloop
  | succ fuel ih =>
    cases pq with
    | nil =>
      rw [evictLoop, heap.pop_nil] at hloop
      obtain rfl := Option.some.inj hloop
      exact ⟨[], tree, .done S, hfrontier, h⟩
    | cons x xs =>
      obtain ⟨e, rest, hperm, hleast, hround⟩ := evictLoop_pop heap maxSize fuel h hpq
      have hpq' := hpq.of_perm hperm
      have hfrontier' := hfrontier.of_perm hperm
      obtain ⟨hn, hleaf⟩ := hpq'.leaves e List.mem_cons_self
      have hwithin : S.withinSize maxSize e.tenant = decide (S.charCount e.tenant ≤ maxSize) :=
        h.withinSize_eq hn (mem_leafOf.mp hleaf).1
      rcases hround with ⟨hin, hround⟩ |
        ⟨hover, S₁, S₂, tree₂, hsub, hnodes, hshape, hdrop, hd, hsound, _, hstep, hround⟩
      · rw [hround] at hloop
        rw [hin] at hwithin
        exact ih h hpq'.tail (hfrontier'.tail (of_decide_eq_true hwithin.symm)) hloop
      · rw [hround] at hloop
        rw [hover] at hwithin
        have hsize : maxSize < S.charCount e.tenant :=
          Nat.lt_of_not_le (of_decide_eq_false hwithin.symm)
        have hfrontier₂ := hfrontier'.step hnodes hshape hpq' hd
          (hd.charCount_le hnodes hn h hsound)
        obtain ⟨removed, tree', hrest, hend⟩ := ih hsound hstep hfrontier₂ hloop
        exact ⟨(e.node, e.tenant) :: removed, tree',
          .evict hsize (hfrontier'.oldestLeaf h.shape hpq' hleast hsize) hsub hdrop hrest, hend⟩

/-- What evictions take from the tree, by induction on them. -/
theorem Evictions.spec {removed : List (Nat × String)} (h : Evictions maxSize S removed S')
    (hS : S.Sound tree rank) :
    (∀ t n, S'.Holds t n ↔ S.Holds t n ∧ (n, t) ∉ removed) ∧
      (∀ n t, (n, t) ∈ removed → maxSize < S.charCount t) ∧
      ∀ n, (S'.nodes n).text = (S.nodes n).text := by
  induction h generalizing tree with
  | done S => exact ⟨fun t n => ⟨fun hn => ⟨hn, List.not_mem_nil⟩, And.left⟩,
      fun n t hmem => absurd hmem List.not_mem_nil, fun n => rfl⟩
  | @evict S S₁ S₂ S' n t later exceeds oldest counted dropped rest ih =>
    obtain ⟨hn, ht⟩ := hS.shape.holds_iff.mp oldest.holds
    have hover : S.withinSize maxSize t = false := by
      rw [hS.withinSize_eq hn ht]
      exact decide_eq_false (Nat.not_le_of_lt exceeds)
    obtain ⟨S₁', S₂', tree', hsub, hnodes, hshape, hdrop, hd, hsound, _⟩ :=
      hS.evict hn (mem_leafOf.mpr ⟨ht, oldest.leaf⟩) hover
    obtain rfl := Option.some.inj (counted.symm.trans hsub)
    obtain rfl := Option.some.inj (dropped.symm.trans hdrop)
    obtain ⟨hlost, hsizes, htexts⟩ := ih hsound
    refine ⟨?_, ?_, ?_⟩
    · intro s m
      rw [hlost, hd.holds_iff hnodes hS.shape hsound.shape, List.mem_cons, not_or, Prod.mk.injEq,
        and_assoc]
    · intro m s hmem
      rcases List.mem_cons.mp hmem with heq | hmem
      · obtain ⟨rfl, rfl⟩ := Prod.mk.inj heq
        exact exceeds
      · exact (hsizes m s hmem).trans_le (hd.charCount_le hnodes hn hS hsound s)
    · intro m
      rw [htexts, hd.text, hnodes]

/-- The prefixes of a stored text match in full. -/
theorem Sound.prefix_matches (h : S.Sound tree rank) {s pre : List Char} (hs : S.Stored t s)
    (hpre : pre <+: s) (now : Nat) : (S.prefixMatchTenant pre t now).map (·.2) = some pre := by
  obtain ⟨S', matched, hmatch, hlongest, _⟩ := prefixMatchTenant_exact h pre t now
  have hlen := hlongest.longest s hs pre List.prefix_rfl hpre
  rw [hmatch, Option.map_some, hlongest.isPre.eq_of_length_le hlen]

/-- In every run an eviction ends with all tenants within the size; it takes nodes one at a
time, each an oldest leaf of a tenant that is over the size, and nothing else. -/
theorem run_evicts (h : Run heap S) (maxSize : Nat) :
    ∃ S' removed, S.evictTenantBySize heap maxSize = some S' ∧
      Evicted S S' maxSize removed := by
  obtain ⟨tree, rank, hsound⟩ := h.sound
  obtain ⟨S', _, hevict, _⟩ := evictTenantBySize_sound heap hsound maxSize
  obtain ⟨nodes, hnodes, hnodup, hmem⟩ := hsound.shape.allNodes_spec
  have hloop := hevict
  unfold evictTenantBySize at hloop
  rw [hnodes] at hloop
  obtain ⟨removed, tree', horder, hfrontier, hsound'⟩ := evictLoop_order hsound
    (S.evicting_start hnodup hmem) (S.frontier_start maxSize hmem) hloop
  obtain ⟨hlost, hsizes, htexts⟩ := horder.spec hsound
  refine ⟨S', removed, hevict, horder, hsound'.bounded hfrontier, hlost, ?_, htexts, ?_, ?_⟩
  · intro t ht n
    rw [hlost]
    refine ⟨And.left, fun hn => ⟨hn, fun hmem => ?_⟩⟩
    have := hsizes n t hmem
    omega
  · intro t n hn h0
    obtain ⟨hnt, ht⟩ := hsound'.shape.holds_iff.mp hn
    obtain ⟨p, hp⟩ := hsound'.shape.hangs n hnt h0
    obtain ⟨c, _, hchild⟩ := hp.child
    have hparent := hsound'.tenanted.inherit n hnt p hp.parent t ht
    exact ⟨p, c, hsound'.shape.holds_iff.mpr ⟨hp.mem, hparent⟩, hchild⟩
  · exact fun t s hs pre hpre now => hsound'.prefix_matches hs hpre now

theorem run_evicts_parted : ∃ S, partedTexts = some S ∧
    ∃ S' removed, S.evictTenantBySize firstLeast 1 = some S' ∧ Evicted S S' 1 removed := by
  obtain ⟨S, hS, hrun, _⟩ := partedTexts_run
  exact ⟨S, hS, run_evicts hrun 1⟩

end TenantTree

end FastPP
