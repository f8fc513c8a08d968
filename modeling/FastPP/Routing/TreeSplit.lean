import FastPP.Routing.TreeGrowth

namespace FastPP

namespace TenantTree

variable {S S' : TenantTree} {tree : Finset Nat} {rank : Nat → Nat} {n p curr matched k : Nat}
  {c : Char} {t s : String}

/-- What the split of `matched` below `curr` leaves behind: node `S.nextNode` has the first
`k` characters and the tenants of the matched node. -/
structure SplitAt (S S' : TenantTree) (curr : Nat) (c : Char) (matched k : Nat) : Prop where
  next : S'.nextNode = S.nextNode + 1
  upper : ∃ d, ((S.nodes matched).text.drop k).head? = some d ∧ S'.nodes S.nextNode =
    ⟨AList.singleton d matched, (S.nodes matched).text.take k,
      (S.nodes matched).tenantLastAccessTime, some curr⟩
  above : S'.nodes curr =
    { S.nodes curr with children := (S.nodes curr).children.insert c S.nextNode }
  lower : S'.nodes matched = { S.nodes matched with
    text := (S.nodes matched).text.drop k
    parent := some S.nextNode }
  others : ∀ m, m ≠ S.nextNode → m ≠ curr → m ≠ matched → S'.nodes m = S.nodes m
  counts : S'.tenantCharCount = S.tenantCharCount

theorem splitNode_spec (hk : k < (S.nodes matched).text.length) (hne : curr ≠ S.nextNode)
    (hmatched : matched ≠ S.nextNode) (hcm : curr ≠ matched) (c : Char) :
    ∃ S', S.splitNode curr c matched k = some (S', S.nextNode) ∧ SplitAt S S' curr c matched k := by
  obtain ⟨d, hd⟩ : ∃ d, ((S.nodes matched).text.drop k).head? = some d := by
    refine ⟨(S.nodes matched).text[k], ?_⟩
    rw [List.head?_drop, List.getElem?_eq_getElem hk]
  refine ⟨_, Option.bind_eq_some_iff.mpr ⟨d, hd, rfl⟩, rfl, ⟨d, hd, ?_⟩, ?_, ?_, ?_, rfl⟩
  · simp [setNode, Function.update_of_ne hne.symm, Function.update_of_ne hmatched.symm]
  · simp [setNode, Function.update_of_ne hne, Function.update_of_ne hcm]
  · simp [setNode, Function.update_of_ne hmatched, Function.update_of_ne hcm.symm]
  · intro m h1 h2 h3
    simp [setNode, Function.update_of_ne h1, Function.update_of_ne h2, Function.update_of_ne h3]

section Split

variable (hg : SplitAt S S' curr c matched k) (h : S.Sound tree rank)

include hg h

/-- Every other node keeps its edge. -/
theorem SplitAt.edge_same (hn : n ∈ tree) (hne : n ≠ matched) :
    (S'.nodes n).text = (S.nodes n).text ∧ (S'.nodes n).parent = (S.nodes n).parent := by
  by_cases hnc : n = curr
  · rw [hnc, hg.above]
    exact ⟨rfl, rfl⟩
  · rw [hg.others n (h.shape.ne_next hn) hnc hne]
    exact ⟨rfl, rfl⟩

theorem SplitAt.tenants_same (hn : n ∈ tree) :
    (S'.nodes n).tenantLastAccessTime = (S.nodes n).tenantLastAccessTime := by
  by_cases hnc : n = curr
  · rw [hnc, hg.above]
  by_cases hnm : n = matched
  · rw [hnm, hg.lower]
  rw [hg.others n (h.shape.ne_next hn) hnc hnm]

theorem SplitAt.children_same (hn : n ∈ tree) (hne : n ≠ curr) :
    (S'.nodes n).children = (S.nodes n).children := by
  by_cases hnm : n = matched
  · rw [hnm, hg.lower]
  rw [hg.others n (h.shape.ne_next hn) hne hnm]

variable (hcurr : curr ∈ tree) (hchild : (S.nodes curr).children.lookup c = some matched)

include hcurr hchild

omit hg in
theorem Sound.matched_hangs : matched ∈ tree ∧ matched ≠ 0 ∧ matched ≠ curr ∧
    S.Hangs tree rank matched curr ∧ (S.nodes matched).text.head? = some c := by
  obtain ⟨hm, hm0, hparent, hhead⟩ := h.shape.children curr hcurr c matched hchild
  have hm' := h.shape.hangs_of_parent hm hparent
  refine ⟨hm, hm0, ?_, hm', hhead⟩
  rintro rfl
  exact Nat.lt_irrefl _ hm'.rank_lt

theorem SplitAt.hangs (hk0 : 0 < k) (hk : k < (S.nodes matched).text.length)
    (hn : n ∈ Insert.insert S.nextNode tree) (h0 : n ≠ 0) :
    ∃ p, S'.Hangs (Insert.insert S.nextNode tree)
      (Function.update rank S.nextNode (rank curr + k)) n p := by
  obtain ⟨hmt, hm0, hmc, hm, hhead⟩ := h.matched_hangs hcurr hchild
  obtain ⟨d, hd, hupper⟩ := hg.upper
  have hrank : ∀ m ∈ tree, Function.update rank S.nextNode (rank curr + k) m = rank m :=
    fun m hm => Function.update_of_ne (h.shape.ne_next hm) _ _
  rcases Finset.mem_insert.mp hn with rfl | hn
  · refine ⟨curr, ?_, Finset.mem_insert_of_mem hcurr, ?_, ?_, c, ?_, ?_⟩
    · rw [hupper]
    · rw [hupper]
      intro hnil
      have hlen := congrArg List.length hnil
      simp only [List.length_take, List.length_nil] at hlen
      omega
    · rw [Function.update_self, hrank curr hcurr, hupper]
      simp only [List.length_take]
      omega
    · rw [hupper]
      simp only [List.head?_take, Nat.pos_iff_ne_zero.mp hk0, if_false]
      exact hhead
    · rw [hg.above, AList.lookup_insert]
  by_cases hnm : n = matched
  · subst hnm
    refine ⟨S.nextNode, ?_, Finset.mem_insert_self _ _, ?_, ?_, d, ?_, ?_⟩
    · rw [hg.lower]
    · rw [hg.lower]
      intro hnil
      simp only [List.drop_eq_nil_iff] at hnil
      omega
    · rw [Function.update_self, hrank n hn, hm.rank, hg.lower]
      simp only [List.length_drop]
      omega
    · rw [hg.lower]
      exact hd
    · rw [hupper]
      exact AList.lookup_insert ∅
  · obtain ⟨p, hp⟩ := h.shape.hangs n hn h0
    obtain ⟨htext, hparent⟩ := hg.edge_same h hn hnm
    obtain ⟨e, he, hedge⟩ := hp.child
    refine ⟨p, ?_, Finset.mem_insert_of_mem hp.mem, ?_, ?_, e, ?_, ?_⟩
    · rw [hparent, hp.parent]
    · rw [htext]
      exact hp.text_ne
    · rw [htext, hrank n hn, hrank p hp.mem, hp.rank]
    · rw [htext, he]
    · by_cases hpc : p = curr
      · subst hpc
        have hec : e ≠ c := by
          rintro rfl
          rw [hchild] at hedge
          exact hnm (Option.some.inj hedge).symm
        rw [hg.above, AList.lookup_insert_ne hec, hedge]
      · rw [hg.children_same h hp.mem hpc, hedge]

theorem SplitAt.children (hp : p ∈ Insert.insert S.nextNode tree) (hk0 : 0 < k) {e : Char}
    (hn : (S'.nodes p).children.lookup e = some n) :
    n ∈ Insert.insert S.nextNode tree ∧ n ≠ 0 ∧ (S'.nodes n).parent = some p ∧
      (S'.nodes n).text.head? = some e := by
  obtain ⟨hmt, hm0, hmc, hm, hhead⟩ := h.matched_hangs hcurr hchild
  obtain ⟨d, hd, hupper⟩ := hg.upper
  have hkept : p ∈ tree → (S.nodes p).children.lookup e = some n → n ≠ matched →
      n ∈ Insert.insert S.nextNode tree ∧ n ≠ 0 ∧ (S'.nodes n).parent = some p ∧
        (S'.nodes n).text.head? = some e := by
    intro hpt hold hnm
    obtain ⟨hnt, hn0, hparent, he⟩ := h.shape.children p hpt e n hold
    obtain ⟨htext', hparent'⟩ := hg.edge_same h hnt hnm
    rw [htext', hparent']
    exact ⟨Finset.mem_insert_of_mem hnt, hn0, hparent, he⟩
  rcases Finset.mem_insert.mp hp with rfl | hpt
  · rw [hupper] at hn
    by_cases hed : e = d
    · subst hed
      have hsame : some matched = some n := (AList.lookup_insert ∅).symm.trans hn
      obtain rfl := Option.some.inj hsame
      rw [hg.lower]
      exact ⟨Finset.mem_insert_of_mem hmt, hm0, rfl, hd⟩
    · have hnone : (AList.singleton d matched : DashMap Char Nat).lookup e = none :=
        (AList.lookup_insert_ne hed).trans (AList.lookup_empty e)
      rw [hnone] at hn
      cases hn
  by_cases hpc : p = curr
  · subst hpc
    rw [hg.above] at hn
    by_cases hec : e = c
    · subst hec
      rw [AList.lookup_insert] at hn
      obtain rfl := Option.some.inj hn
      refine ⟨Finset.mem_insert_self _ _, (h.shape.ne_next h.shape.root_mem).symm, ?_, ?_⟩
      · rw [hupper]
      · rw [hupper]
        simp only [List.head?_take, Nat.pos_iff_ne_zero.mp hk0, if_false]
        exact hhead
    · rw [AList.lookup_insert_ne hec] at hn
      refine hkept hpt hn ?_
      rintro rfl
      have he := (h.shape.children p hpt e n hn).2.2.2
      exact hec (Option.some.inj (he.symm.trans hhead))
  · rw [hg.children_same h hpt hpc] at hn
    refine hkept hpt hn ?_
    rintro rfl
    have hparent := (h.shape.children p hpt e n hn).2.2.1
    exact hpc (Option.some.inj (hparent.symm.trans hm.parent))

theorem SplitAt.share_sum (hk : k < (S.nodes matched).text.length) (s : String) :
    S'.usedSize (Insert.insert S.nextNode tree) s = S.usedSize tree s := by
  obtain ⟨hmt, _⟩ := h.matched_hangs hcurr hchild
  obtain ⟨d, _, hupper⟩ := hg.upper
  unfold usedSize
  rw [Finset.sum_insert h.shape.notMem_next, ← Finset.add_sum_erase tree _ hmt,
    ← Finset.add_sum_erase tree _ hmt, ← Nat.add_assoc]
  congr 1
  · unfold share
    rw [hupper, hg.lower]
    simp only
    split
    · simp only [List.length_take, List.length_drop]
      omega
    · rfl
  · apply Finset.sum_congr rfl
    intro m hm
    obtain ⟨hmm, hmt'⟩ := Finset.mem_erase.mp hm
    unfold share
    rw [hg.tenants_same h hmt', (hg.edge_same h hmt' hmm).1]

/-- The split leaves every tenant what it had. -/
theorem SplitAt.sound (hk0 : 0 < k) (hk : k < (S.nodes matched).text.length) :
    S'.Sound (Insert.insert S.nextNode tree)
      (Function.update rank S.nextNode (rank curr + k)) where
  shape :=
    { root_mem := Finset.mem_insert_of_mem h.shape.root_mem
      root_text := by
        have hm0 := (h.matched_hangs hcurr hchild).2.1
        rw [(hg.edge_same h h.shape.root_mem hm0.symm).1, h.shape.root_text]
      root_parent := by
        have hm0 := (h.matched_hangs hcurr hchild).2.1
        rw [(hg.edge_same h h.shape.root_mem hm0.symm).2, h.shape.root_parent]
      lt_next := by
        intro n hn
        rw [hg.next]
        rcases Finset.mem_insert.mp hn with rfl | hn
        · omega
        · have hlt := h.shape.lt_next n hn
          omega
      hangs := fun n hn h0 => hg.hangs h hcurr hchild hk0 hk hn h0
      children := fun p hp e n hn => hg.children h hcurr hchild hp hk0 hn }
  tenanted := by
    obtain ⟨hmt, hm0, _, hm, _⟩ := h.matched_hangs hcurr hchild
    obtain ⟨d, _, hupper⟩ := hg.upper
    constructor
    · intro n hn h0
      rcases Finset.mem_insert.mp hn with rfl | hn
      · rw [hupper]
        exact h.tenanted.owned matched hmt hm0
      · rw [hg.tenants_same h hn]
        exact h.tenanted.owned n hn h0
    · intro n hn p hp s hs
      rcases Finset.mem_insert.mp hn with rfl | hn
      · rw [hupper] at hp hs
        obtain rfl := Option.some.inj hp
        rw [hg.tenants_same h hcurr]
        exact h.tenanted.inherit matched hmt curr hm.parent s hs
      rw [hg.tenants_same h hn] at hs
      by_cases hnm : n = matched
      · subst hnm
        rw [hg.lower] at hp
        obtain rfl := Option.some.inj hp
        rw [hupper]
        exact hs
      · rw [(hg.edge_same h hn hnm).2] at hp
        rw [hg.tenants_same h (h.shape.hangs_of_parent hn hp).mem]
        exact h.tenanted.inherit n hn p hp s hs
  count s := by
    rw [hg.share_sum h hcurr hchild hk, ← h.count]
    unfold charCount
    rw [hg.counts]
  entry s := by
    rw [hg.counts, hg.tenants_same h h.shape.root_mem]
    exact h.entry s

end Split

/-- The loop of `insert` ends, and keeps the tree sound. -/
theorem insertLoop_sound {fuel : Nat} {text : List Char} (now : Nat) (h : S.Sound tree rank)
    (hcurr : curr ∈ tree) (ht : t ∈ (S.nodes curr).tenantLastAccessTime)
    (hfuel : text.length ≤ fuel) :
    ∃ S' tree' rank', insertLoop t now fuel S curr text = some S' ∧ S'.Sound tree' rank' ∧
      ∀ s, s ∈ S'.tenantCharCount ↔ s ∈ S.tenantCharCount := by
  induction fuel generalizing S tree rank curr text with
  | zero =>
    obtain rfl := List.length_eq_zero_iff.mp (Nat.le_zero.mp hfuel)
    exact ⟨S, tree, rank, by rw [insertLoop], h, fun _ => Iff.rfl⟩
  | succ fuel ih =>
    cases text with
    | nil => exact ⟨S, tree, rank, by rw [insertLoop], h, fun _ => Iff.rfl⟩
    | cons c rest =>
      have hroot : ∀ {n : Nat} {S : TenantTree} {tree : Finset Nat} {rank : Nat → Nat},
          S.Sound tree rank → n ∈ tree → t ∈ (S.nodes n).tenantLastAccessTime →
          t ∈ S.tenantCharCount := fun h hn ht => (h.entry t).mpr (h.tenant_root hn ht)
      unfold insertLoop
      cases hchild : (S.nodes curr).children.lookup c with
      | none =>
        have hg := addNode_spec (h.shape.ne_next hcurr) c (c :: rest) t now
        refine ⟨_, _, _, rfl, hg.sound h hcurr hchild rfl ht, ?_⟩
        intro s
        rw [hg.entry]
        constructor
        · rintro (rfl | hs)
          · exact hroot h hcurr ht
          · exact hs
        · exact .inr
      | some matched =>
        obtain ⟨hmt, hm0, hmc, hm, hhead⟩ := h.matched_hangs hcurr hchild
        have hpos : 0 < sharedPrefixCount (S.nodes matched).text (c :: rest) :=
          sharedPrefixCount_pos hhead rfl
        have hrest : ((c :: rest).drop
            (sharedPrefixCount (S.nodes matched).text (c :: rest))).length ≤ fuel := by
          rw [List.length_drop]
          omega
        -- both branches give a node below `curr` to the tenant and go on from it
        have hgo : ∀ {S₁ : TenantTree} {tree₁ : Finset Nat} {rank₁ : Nat → Nat} {next : Nat},
            S₁.Sound tree₁ rank₁ → next ∈ tree₁ → (S₁.nodes next).parent = some curr →
            t ∈ (S₁.nodes curr).tenantLastAccessTime → curr ∈ tree₁ →
            ∃ S' tree' rank', insertLoop t now fuel (S₁.claim next t now) next ((c :: rest).drop
                (sharedPrefixCount (S.nodes matched).text (c :: rest))) = some S' ∧
              S'.Sound tree' rank' ∧ ∀ s, s ∈ S'.tenantCharCount ↔ s ∈ S₁.tenantCharCount := by
          intro S₁ tree₁ rank₁ next h₁ hnext hparent ht₁ hcurr₁
          have hg := granted_claim now (hroot h₁ hnext)
          have h₂ := hg.sound h₁ hnext (by
            intro p hp
            rw [hparent] at hp
            obtain rfl := Option.some.inj hp
            exact ht₁)
          obtain ⟨S', tree', rank', hloop, hsound, hentry⟩ :=
            ih h₂ hnext ((hg.tenants next t).mpr (.inl ⟨rfl, rfl⟩)) hrest
          refine ⟨S', tree', rank', hloop, hsound, ?_⟩
          intro s
          rw [hentry, hg.entry]
          constructor
          · rintro (rfl | hs)
            · exact hroot h₁ hcurr₁ ht₁
            · exact hs
          · exact .inr
        simp only
        split
        next hk =>
          obtain ⟨S₁, hsplit, hg⟩ := splitNode_spec hk (h.shape.ne_next hcurr)
            (h.shape.ne_next hmt) hmc.symm c
          rw [hsplit]
          have h₁ := hg.sound h hcurr hchild hpos hk
          obtain ⟨d, _, hupper⟩ := hg.upper
          have hloop := hgo h₁ (Finset.mem_insert_self _ _) (by rw [hupper])
            (by rwa [hg.tenants_same h hcurr]) (Finset.mem_insert_of_mem hcurr)
          rw [hg.counts] at hloop
          exact hloop
        next => exact hgo h hmt hm.parent ht hcurr

/-- `insert` returns, keeps the tree sound, and adds the tenant. -/
theorem insert_sound (h : S.Sound tree rank) (text : List Char) (t : String) (now : Nat) :
    ∃ S' tree' rank', S.insert text t now = some S' ∧ S'.Sound tree' rank' ∧
      ∀ s, s ∈ S'.tenantCharCount ↔ s = t ∨ s ∈ S.tenantCharCount := by
  have hg := granted_enter (t := t) now h.shape.root_text
  have h₁ := hg.sound h h.shape.root_mem (by
    intro p hp
    rw [h.shape.root_parent] at hp
    cases hp)
  obtain ⟨S', tree', rank', hloop, hsound, hentry⟩ := insertLoop_sound now h₁ h.shape.root_mem
    ((hg.tenants 0 t).mpr (.inl ⟨rfl, rfl⟩)) (Nat.le_refl text.length)
  refine ⟨S', tree', rank', hloop, hsound, ?_⟩
  intro s
  rw [hentry, hg.entry]

end TenantTree

end FastPP
