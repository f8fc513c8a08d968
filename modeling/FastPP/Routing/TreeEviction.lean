import FastPP.Routing.TreeRemoval
import Mathlib.Algebra.Order.BigOperators.Group.Finset

namespace FastPP

namespace TenantTree

variable {S S' : TenantTree} {tree tree' : Finset Nat} {rank : Nat → Nat} {n m p : Nat}
  {t s : String}

/-- The pairs of a node and a tenant of it. -/
def tenancies (S : TenantTree) (tree : Finset Nat) : Nat :=
  ∑ m ∈ tree, (S.nodes m).tenantLastAccessTime.keys.length

theorem Dropped.tenancies_eq (hd : Dropped S S' tree tree' n t) (hn : n ∈ tree)
    (ht : t ∈ (S.nodes n).tenantLastAccessTime) :
    S'.tenancies tree' + 1 = S.tenancies tree := by
  have hall : S'.tenancies tree' = S'.tenancies tree := by
    unfold tenancies
    apply Finset.sum_subset hd.sub
    intro m hm hgone
    have hmn : m = n := by
      by_contra hne
      exact hgone (hd.kept m hm hne)
    subst hmn
    rw [hd.gone hgone]
    rfl
  rw [hall]
  unfold tenancies
  rw [← Finset.add_sum_erase tree _ hn, ← Finset.add_sum_erase tree _ hn]
  have hrest : ∑ m ∈ tree.erase n, (S'.nodes m).tenantLastAccessTime.keys.length =
      ∑ m ∈ tree.erase n, (S.nodes m).tenantLastAccessTime.keys.length := by
    apply Finset.sum_congr rfl
    intro m hm
    rw [hd.tenants, if_neg (Finset.mem_erase.mp hm).1]
  have hpos := List.length_pos_of_mem (AList.mem_keys.mp ht)
  rw [hrest, hd.tenants, if_pos rfl, AList.keys_erase, List.length_erase_of_mem (AList.mem_keys.mp ht)]
  omega

/-- A tenant that is a leaf at the root is nowhere else. -/
theorem Sound.root_leaf (h : S.Sound tree rank) (hleaf : t ∈ S.leafOf 0) (hm : m ∈ tree)
    (h0 : m ≠ 0) : t ∉ (S.nodes m).tenantLastAccessTime := by
  intro ht
  induction hk : rank m using Nat.strongRecOn generalizing m with
  | ind k ih =>
    subst hk
    obtain ⟨p, hp⟩ := h.shape.hangs m hm h0
    by_cases hp0 : p = 0
    · obtain ⟨c, _, hchild⟩ := hp.child
      rw [hp0] at hchild
      exact (mem_leafOf.mp hleaf).2 c m hchild ht
    · exact ih _ hp.rank_lt hp.mem hp0 (h.tenanted.inherit m hm p hp.parent t ht) rfl

theorem Sound.root_leaf_count (h : S.Sound tree rank) (hleaf : t ∈ S.leafOf 0) :
    S.charCount t = 0 := by
  rw [h.count]
  apply Finset.sum_eq_zero
  intro m hm
  unfold share
  by_cases h0 : m = 0
  · rw [h0, h.shape.root_text]
    exact ite_self 0
  · exact if_neg (h.root_leaf hleaf hm h0)

theorem Sound.share_le (h : S.Sound tree rank) (hn : n ∈ tree) (t : String) :
    S.share t n ≤ S.charCount t := by
  rw [h.count]
  exact Finset.single_le_sum (fun _ _ => Nat.zero_le _) hn

/-- The count of a tenant that is over its size goes down by what the node has, which is
not more. -/
theorem Sound.subChars_spec (h : S.Sound tree rank) (hn : n ∈ tree)
    (ht : t ∈ (S.nodes n).tenantLastAccessTime) {maxSize : Nat}
    (hover : S.withinSize maxSize t = false) :
    ∃ S', S.subChars t (S.nodes n).text.length = some S' ∧ S'.nodes = S.nodes ∧
      S'.nextNode = S.nextNode ∧ (∀ s, s ∈ S'.tenantCharCount ↔ s ∈ S.tenantCharCount) ∧
      ∀ s, S'.charCount s + (if s = t then S.share t n else 0) = S.charCount s := by
  have hentry := (h.entry t).mpr (h.tenant_root hn ht)
  obtain ⟨count, hcount⟩ := Option.isSome_iff_exists.mp (AList.lookup_isSome.mpr hentry)
  have hshare := h.share_le hn t
  have hlen : S.share t n = (S.nodes n).text.length := if_pos ht
  have hchar : S.charCount t = count := by
    unfold charCount
    rw [hcount]
    rfl
  have hpos : 0 < count := by
    unfold withinSize at hover
    rw [hcount] at hover
    simp only [decide_eq_false_iff_not] at hover
    omega
  refine ⟨{ S with tenantCharCount :=
    S.tenantCharCount.insert t (count - (S.nodes n).text.length) }, ?_, rfl, rfl, ?_, ?_⟩
  · unfold subChars
    rw [hcount]
    show (if 0 < count then _ else _) = _
    rw [if_pos hpos, if_pos (by omega)]
  · intro s
    rw [AList.mem_insert]
    constructor
    · rintro (rfl | hs)
      · exact hentry
      · exact hs
    · exact .inr
  · intro s
    by_cases hst : s = t
    · subst hst
      have hnew : (S.tenantCharCount.insert s (count - (S.nodes n).text.length)).lookup s =
          some (count - (S.nodes n).text.length) := AList.lookup_insert _
      rw [if_pos rfl, hchar, hlen]
      unfold charCount
      rw [hnew, Option.getD_some]
      omega
    · have hold : (S.tenantCharCount.insert t (count - (S.nodes n).text.length)).lookup s =
          S.tenantCharCount.lookup s := AList.lookup_insert_ne hst
      rw [if_neg hst, Nat.add_zero]
      unfold charCount
      rw [hold]

/-- One eviction keeps the tree sound. -/
theorem Sound.evict (h : S.Sound tree rank) (hn : n ∈ tree) (hleaf : t ∈ S.leafOf n)
    {maxSize : Nat} (hover : S.withinSize maxSize t = false) :
    ∃ S₁ S' tree', S.subChars t (S.nodes n).text.length = some S₁ ∧ S₁.nodes = S.nodes ∧
      S₁.Shape tree rank ∧ S₁.dropTenant n t = some S' ∧ Dropped S₁ S' tree tree' n t ∧ S'.Sound tree' rank ∧
      ∀ s, s ∈ S'.tenantCharCount ↔ s ∈ S.tenantCharCount := by
  obtain ⟨ht, hbelow⟩ := mem_leafOf.mp hleaf
  obtain ⟨S₁, hsub, hnodes, hnext, hentry, hcount⟩ := h.subChars_spec hn ht hover
  have hsame : ∀ m, SameNode (S.nodes m) (S₁.nodes m) := by
    intro m
    rw [hnodes]
    exact ⟨rfl, rfl, rfl⟩
  have htenanted : S₁.Tenanted tree := by
    refine ⟨?_, ?_⟩
    · rw [hnodes]
      exact h.tenanted.owned
    · rw [hnodes]
      exact h.tenanted.inherit
  have hbelow₁ : S₁.NotBelow n t := by
    unfold NotBelow
    rw [hnodes]
    exact hbelow
  have hshape₁ : S₁.Shape tree rank := h.shape.congr hnext hsame
  obtain ⟨S', tree', hdrop, hd, hshape, htenanted'⟩ := dropTenant_spec hshape₁ htenanted hn hbelow₁
  -- at the root nothing is left of a tenant that is over its size
  have hn0 : n ≠ 0 := by
    rintro rfl
    have hentry' := (h.entry t).mpr ht
    obtain ⟨count, hlookup⟩ := Option.isSome_iff_exists.mp (AList.lookup_isSome.mpr hentry')
    have hzero := h.root_leaf_count hleaf
    unfold charCount at hzero
    unfold withinSize at hover
    rw [hlookup] at hzero hover
    simp only [Option.getD_some, decide_eq_false_iff_not] at hzero hover
    omega
  have hkeys : ∀ s, s ∈ S'.tenantCharCount ↔ s ∈ S.tenantCharCount := by
    intro s
    rw [hd.counts, hentry]
  refine ⟨S₁, S', tree', hsub, hnodes, hshape₁, hdrop, hd, ⟨hshape, htenanted', ?_, ?_⟩, hkeys⟩
  · intro s
    have hused := hd.usedSize_eq hn s
    have hsize : S₁.usedSize tree s = S.usedSize tree s := by
      unfold usedSize share
      rw [hnodes]
    have hshare : S₁.share t n = S.share t n := by
      unfold share
      rw [hnodes]
    have hchar : S'.charCount s = S₁.charCount s := by
      unfold charCount
      rw [hd.counts]
    have hstep := hcount s
    rw [h.count] at hstep
    rw [hsize, hshare] at hused
    rw [hchar]
    omega
  · intro s
    rw [hkeys, h.entry, hd.mem_tenants, hnodes]
    exact ⟨fun hs => ⟨hs, fun e => hn0 e.1.symm⟩, fun hs => hs.1⟩

/-- The entries are leaves, each of them once. -/
structure Evicting (S : TenantTree) (tree : Finset Nat) (pq : List EvictionEntry) : Prop where
  leaves : ∀ e ∈ pq, e.node ∈ tree ∧ e.tenant ∈ S.leafOf e.node
  nodup : (pq.map fun e => (e.node, e.tenant)).Nodup

theorem parentEntry_spec {e : EvictionEntry} (he : S.parentEntry n t = some e) :
    e.tenant = t ∧ (S.nodes n).parent = some e.node ∧ t ∈ S.leafOf e.node := by
  unfold parentEntry at he
  split at he
  next => cases he
  next p hp =>
    split at he
    next hleaf =>
      obtain ⟨time, _, rfl⟩ := Option.map_eq_some_iff.mp he
      exact ⟨rfl, hp, hleaf⟩
    next => cases he

theorem Evicting.of_perm {pq pq' : List EvictionEntry} (h : S.Evicting tree pq)
    (hp : pq'.Perm pq) : S.Evicting tree pq' where
  leaves e he := h.leaves e (hp.mem_iff.mp he)
  nodup := (hp.map _).nodup_iff.mpr h.nodup

theorem Evicting.tail {e : EvictionEntry} {pq : List EvictionEntry}
    (h : S.Evicting tree (e :: pq)) : S.Evicting tree pq where
  leaves e' he' := h.leaves e' (List.mem_cons_of_mem e he')
  nodup := (List.nodup_cons.mp h.nodup).2

/-- After an eviction the other entries are still leaves, and the parent may be a new one. -/
theorem Evicting.step {e : EvictionEntry} {pq : List EvictionEntry}
    (h : S.Evicting tree (e :: pq)) (hshape : S.Shape tree rank)
    (hd : Dropped S S' tree tree' e.node e.tenant) :
    S'.Evicting tree' (pq ++ (S'.parentEntry e.node e.tenant).toList) := by
  obtain ⟨hn, hleaf⟩ := h.leaves e List.mem_cons_self
  obtain ⟨ht, _⟩ := mem_leafOf.mp hleaf
  have hnodup := h.nodup
  rw [List.map_cons, List.nodup_cons] at hnodup
  have hother : ∀ e' ∈ pq, ¬ (e'.node = e.node ∧ e'.tenant = e.tenant) := by
    rintro e' he' ⟨h1, h2⟩
    exact hnodup.1 (List.mem_map.mpr ⟨e', he', by rw [h1, h2]⟩)
  constructor
  · intro e' he'
    rcases List.mem_append.mp he' with he' | he'
    · obtain ⟨hmt, hml⟩ := h.leaves e' (List.mem_cons_of_mem e he')
      exact hd.leafOf_mono hmt (hother e' he') hml
    · obtain ⟨htenant, hparent, hml⟩ := parentEntry_spec (Option.mem_toList.mp he')
      rw [hd.parent] at hparent
      have hp := hshape.hangs_of_parent hn hparent
      have hne : e'.node ≠ e.node := by
        intro heq
        have hlt := hp.rank_lt
        rw [heq] at hlt
        exact Nat.lt_irrefl _ hlt
      rw [htenant]
      exact ⟨hd.kept _ hp.mem hne, hml⟩
  · rw [List.map_append, List.nodup_append]
    refine ⟨hnodup.2, ?_, ?_⟩
    · cases S'.parentEntry e.node e.tenant with
      | none => exact List.nodup_nil
      | some e' => exact List.nodup_singleton _
    · rintro a ha b hb rfl
      obtain ⟨e₁, he₁, rfl⟩ := List.mem_map.mp ha
      obtain ⟨e₂, he₂, hpair⟩ := List.mem_map.mp hb
      obtain ⟨htenant, hparent, _⟩ := parentEntry_spec (Option.mem_toList.mp he₂)
      obtain ⟨hnode, hten⟩ := Prod.mk.inj hpair
      rw [hd.parent, hnode] at hparent
      have hold := (h.leaves e₁ (List.mem_cons_of_mem e he₁)).2
      rw [← hten, htenant] at hold
      exact hshape.not_leaf_above hn hparent ht hold

/-- What one round of the loop does: it leaves a tenant within the size alone, and takes one
over it out of the leaf of the entry. -/
theorem evictLoop_pop (heap : EvictionHeap) (maxSize fuel : Nat) {x : EvictionEntry}
    {xs : List EvictionEntry} (h : S.Sound tree rank) (hpq : S.Evicting tree (x :: xs)) :
    ∃ e rest, (e :: rest).Perm (x :: xs) ∧ (∀ z ∈ rest, e.timestamp ≤ z.timestamp) ∧
      (S.withinSize maxSize e.tenant = true ∧
          evictLoop heap maxSize (fuel + 1) S (x :: xs) = evictLoop heap maxSize fuel S rest ∨
        S.withinSize maxSize e.tenant = false ∧ ∃ S₁ S' tree',
          S.subChars e.tenant (S.nodes e.node).text.length = some S₁ ∧ S₁.nodes = S.nodes ∧
          S₁.Shape tree rank ∧ S₁.dropTenant e.node e.tenant = some S' ∧
          Dropped S₁ S' tree tree' e.node e.tenant ∧ S'.Sound tree' rank ∧
          (∀ s, s ∈ S'.tenantCharCount ↔ s ∈ S.tenantCharCount) ∧
          S'.Evicting tree' (rest ++ (S'.parentEntry e.node e.tenant).toList) ∧
          evictLoop heap maxSize (fuel + 1) S (x :: xs) = evictLoop heap maxSize fuel S'
            (rest ++ (S'.parentEntry e.node e.tenant).toList)) := by
  obtain ⟨e, rest, hpop, hperm, hleast⟩ := heap.pop_cons x xs
  refine ⟨e, rest, hperm, hleast, ?_⟩
  rw [evictLoop, hpop]
  simp only
  cases hover : S.withinSize maxSize e.tenant with
  | true => exact .inl ⟨rfl, rfl⟩
  | false =>
    have hpq' := hpq.of_perm hperm
    obtain ⟨hn, hleaf⟩ := hpq'.leaves e List.mem_cons_self
    obtain ⟨ht, _⟩ := mem_leafOf.mp hleaf
    obtain ⟨S₁, S', tree', hsub, hnodes, hshape, hdrop, hd, hsound, hkeys⟩ :=
      h.evict hn hleaf hover
    have hstep : S'.Evicting tree' (rest ++ (S'.parentEntry e.node e.tenant).toList) := by
      refine @Evicting.step S₁ S' tree tree' rank e rest ⟨?_, hpq'.nodup⟩ hshape hd
      unfold leafOf
      rw [hnodes]
      exact hpq'.leaves
    refine .inr ⟨rfl, S₁, S', tree', hsub, hnodes, hshape, hdrop, hd, hsound, hkeys, hstep, ?_⟩
    simp only [Bool.false_eq_true, if_false, if_pos ht, hsub, hdrop, Option.bind_eq_bind,
      Option.bind_some]

/-- The loop of the eviction ends, never underflows, and keeps the tree sound. -/
theorem evictLoop_sound (heap : EvictionHeap) (maxSize : Nat) {fuel : Nat}
    {pq : List EvictionEntry} (h : S.Sound tree rank) (hpq : S.Evicting tree pq)
    (hfuel : 2 * S.tenancies tree + pq.length < fuel) :
    ∃ S' tree', evictLoop heap maxSize fuel S pq = some S' ∧ S'.Sound tree' rank ∧
      ∀ s, s ∈ S'.tenantCharCount ↔ s ∈ S.tenantCharCount := by
  induction fuel generalizing S tree pq with
  | zero => omega
  | succ fuel ih =>
    cases pq with
    | nil =>
      unfold evictLoop
      rw [heap.pop_nil]
      exact ⟨S, tree, rfl, h, fun _ => Iff.rfl⟩
    | cons x xs =>
      obtain ⟨e, rest, hperm, _, hround⟩ := evictLoop_pop heap maxSize fuel h hpq
      have hlen := hperm.length_eq
      rw [List.length_cons, List.length_cons] at hlen
      rw [List.length_cons] at hfuel
      have hpq' := hpq.of_perm hperm
      rcases hround with ⟨_, hloop⟩ |
        ⟨_, S₁, S', tree', _, hnodes, _, _, hd, hsound, hkeys, hstep, hloop⟩
      · rw [hloop]
        exact ih h hpq'.tail (by omega)
      · obtain ⟨hn, hleaf⟩ := hpq'.leaves e List.mem_cons_self
        have htenancies := hd.tenancies_eq hn (by rw [hnodes]; exact (mem_leafOf.mp hleaf).1)
        have hsame : S₁.tenancies tree = S.tenancies tree := by
          unfold tenancies
          rw [hnodes]
        have hone : (S'.parentEntry e.node e.tenant).toList.length ≤ 1 := by
          cases S'.parentEntry e.node e.tenant <;> simp
        obtain ⟨S'', tree'', hrest, hsound', hkeys'⟩ := ih hsound hstep (by
          rw [List.length_append]
          omega)
        exact ⟨S'', tree'', hloop.trans hrest, hsound', fun s => (hkeys' s).trans (hkeys s)⟩

theorem leafEntries_spec (S : TenantTree) (n : Nat) :
    (S.leafEntries n).length ≤ (S.nodes n).tenantLastAccessTime.keys.length ∧
      (∀ e ∈ S.leafEntries n, e.node = n ∧ e.tenant ∈ S.leafOf n) ∧
      ((S.leafEntries n).map fun e => e.tenant).Nodup := by
  have hentry : ∀ tenant e, ((S.nodes n).tenantLastAccessTime.lookup tenant).map
      (fun time => (⟨time, tenant, n⟩ : EvictionEntry)) = some e → e.node = n ∧ e.tenant = tenant := by
    intro tenant e he
    obtain ⟨time, _, rfl⟩ := Option.map_eq_some_iff.mp he
    exact ⟨rfl, rfl⟩
  refine ⟨?_, ?_, ?_⟩
  · exact (List.length_filterMap_le _ _).trans (List.length_filter_le _ _)
  · intro e he
    obtain ⟨tenant, htenant, he⟩ := List.mem_filterMap.mp he
    obtain ⟨hnode, rfl⟩ := hentry tenant e he
    exact ⟨hnode, htenant⟩
  · have hsub : ∀ tenants : List String, List.Sublist ((tenants.filterMap fun tenant =>
        ((S.nodes n).tenantLastAccessTime.lookup tenant).map
          fun time => (⟨time, tenant, n⟩ : EvictionEntry)).map fun e => e.tenant) tenants := by
      intro tenants
      induction tenants with
      | nil => exact .slnil
      | cons tenant tenants ih =>
        cases hlookup : (S.nodes n).tenantLastAccessTime.lookup tenant with
        | none =>
          rw [List.filterMap_cons_none (by rw [hlookup]; rfl)]
          exact ih.cons tenant
        | some time =>
          rw [List.filterMap_cons_some (by rw [hlookup]; rfl), List.map_cons]
          exact ih.cons_cons tenant
    have hkeys : (S.nodes n).tenantLastAccessTime.keys.Nodup := AList.keys_nodup _
    exact (hkeys.filter _).sublist (hsub _)

/-- What the eviction starts with. -/
theorem evicting_start (S : TenantTree) {nodes : List Nat} (hnodup : nodes.Nodup)
    (hmem : ∀ n, n ∈ nodes ↔ n ∈ tree) :
    S.Evicting tree (nodes.flatMap S.leafEntries) where
  leaves := by
    intro e he
    obtain ⟨n, hn, he⟩ := List.mem_flatMap.mp he
    obtain ⟨rfl, hleaf⟩ := (S.leafEntries_spec n).2.1 e he
    exact ⟨(hmem _).mp hn, hleaf⟩
  nodup := by
    rw [List.map_flatMap, List.nodup_flatMap]
    constructor
    · intro n _
      obtain ⟨_, hnode, hnd⟩ := S.leafEntries_spec n
      have hmap : ((S.leafEntries n).map fun e => (e.node, e.tenant)).map Prod.snd =
          (S.leafEntries n).map fun e => e.tenant := by
        rw [List.map_map]
        rfl
      exact List.Nodup.of_map Prod.snd (hmap ▸ hnd)
    · apply hnodup.pairwise_of_forall_ne
      intro a _ b _ hab
      show List.Disjoint _ _
      intro pair ha hb
      obtain ⟨e₁, he₁, rfl⟩ := List.mem_map.mp ha
      obtain ⟨e₂, he₂, hpair⟩ := List.mem_map.mp hb
      have h1 := ((S.leafEntries_spec a).2.1 e₁ he₁).1
      have h2 := ((S.leafEntries_spec b).2.1 e₂ he₂).1
      rw [← h1, ← h2, (Prod.mk.inj hpair).1] at hab
      exact hab rfl

theorem flatMap_length_le (S : TenantTree) (nodes : List Nat) :
    (nodes.flatMap S.leafEntries).length ≤
      (nodes.map fun n => (S.nodes n).tenantLastAccessTime.keys.length).sum := by
  induction nodes with
  | nil => exact Nat.le_refl 0
  | cons n nodes ih =>
    rw [List.flatMap_cons, List.length_append, List.map_cons, List.sum_cons]
    have hle := (S.leafEntries_spec n).1
    omega

/-- The fuel is enough. -/
theorem Shape.tenancies_le (h : S.Shape tree rank) :
    S.tenancies tree ≤
      ((List.range S.nextNode).map fun n => (S.nodes n).tenantLastAccessTime.keys.length).sum := by
  have hrange : ((List.range S.nextNode).map
      fun n => (S.nodes n).tenantLastAccessTime.keys.length).sum =
      ∑ n ∈ Finset.range S.nextNode, (S.nodes n).tenantLastAccessTime.keys.length := rfl
  rw [hrange]
  apply Finset.sum_le_sum_of_subset
  intro n hn
  exact Finset.mem_range.mpr (h.lt_next n hn)

/-- `evict_tenant_by_size` returns and keeps the tree sound. -/
theorem evictTenantBySize_sound (heap : EvictionHeap) (h : S.Sound tree rank) (maxSize : Nat) :
    ∃ S' tree', S.evictTenantBySize heap maxSize = some S' ∧ S'.Sound tree' rank ∧
      ∀ s, s ∈ S'.tenantCharCount ↔ s ∈ S.tenantCharCount := by
  obtain ⟨nodes, hnodes, hnodup, hmem⟩ := h.shape.allNodes_spec
  have hsum : (nodes.map fun n => (S.nodes n).tenantLastAccessTime.keys.length).sum =
      S.tenancies tree := by
    have htree : tree = nodes.toFinset := by
      ext n
      rw [List.mem_toFinset, hmem]
    rw [htree]
    exact (List.sum_toFinset _ hnodup).symm
  have hlen := S.flatMap_length_le nodes
  have hle := h.shape.tenancies_le
  obtain ⟨S', tree', hloop, hsound, hkeys⟩ := @evictLoop_sound _ _ _ heap maxSize
    S.evictFuel _ h (S.evicting_start hnodup hmem) (by
      unfold evictFuel
      omega)
  refine ⟨S', tree', ?_, hsound, hkeys⟩
  unfold evictTenantBySize
  rw [hnodes]
  exact hloop

end TenantTree

end FastPP
