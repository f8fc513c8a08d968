import FastPP.Routing.TreeRuns

namespace FastPP

theorem sharedPrefixCount_take (as bs : List Char) :
    as.take (sharedPrefixCount as bs) = bs.take (sharedPrefixCount as bs) := by
  induction as generalizing bs with
  | nil => simp [sharedPrefixCount]
  | cons a as ih =>
    cases bs with
    | nil => simp [sharedPrefixCount]
    | cons b bs =>
      unfold sharedPrefixCount
      split
      next hab => rw [hab, List.take_succ_cons, List.take_succ_cons, ih]
      next => rfl

/-- No common prefix is longer. -/
theorem sharedPrefixCount_longest {as bs pre : List Char} (ha : pre <+: as) (hb : pre <+: bs) :
    pre.length ≤ sharedPrefixCount as bs := by
  induction pre generalizing as bs with
  | nil => exact Nat.zero_le _
  | cons c pre ih =>
    obtain ⟨as, rfl⟩ := ha
    obtain ⟨bs, rfl⟩ := hb
    rw [List.cons_append, List.cons_append]
    unfold sharedPrefixCount
    rw [if_pos rfl]
    have := ih (List.prefix_append pre as) (List.prefix_append pre bs)
    rw [List.length_cons]
    omega

namespace TenantTree

/-- From node `p` the text `s` leads down to node `n` through nodes that `accepts` lets pass. -/
inductive Down (S : TenantTree) (accepts : Nat → Bool) : Nat → Nat → List Char → Prop
  | here (n : Nat) : Down S accepts n n []
  | child {p m n : Nat} {c : Char} {s : List Char}
      (edge : (S.nodes p).children.lookup c = some m) (passes : accepts m = true)
      (below : Down S accepts m n s) : Down S accepts p n ((S.nodes m).text ++ s)

/-- The text from the root down to node `n`. -/
def Spells (S : TenantTree) (n : Nat) (s : List Char) : Prop := S.Down (fun _ => true) 0 n s

/-- The tenant has the node down to which the text leads. -/
def Stored (S : TenantTree) (t : String) (s : List Char) : Prop :=
  ∃ n, S.Spells n s ∧ t ∈ (S.nodes n).tenantLastAccessTime

/-- The longest prefix of a text that is a prefix of a text with `P`. -/
structure LongestMatch (P : List Char → Prop) (text matched : List Char) : Prop where
  isPre : matched <+: text
  found : matched = [] ∨ ∃ s, P s ∧ matched <+: s
  longest : ∀ s, P s → ∀ pre, pre <+: text → pre <+: s → pre.length ≤ matched.length

/-- The match ends within the text of node `n`, or at its end. -/
def EndsAt (S : TenantTree) (n : Nat) (matched : List Char) : Prop :=
  ∃ s, S.Spells n s ∧ matched <+: s ∧ (n = 0 ∨ s.length < matched.length + (S.nodes n).text.length)

variable {S S' : TenantTree} {tree : Finset Nat} {rank : Nat → Nat} {accepts : Nat → Bool}
  {n m p prev : Nat} {s text : List Char} {t : String}

theorem Down.mem (h : S.Down accepts p n s) (hS : S.Shape tree rank) (hp : p ∈ tree) : n ∈ tree := by
  induction h with
  | here => exact hp
  | child edge _ _ ih => exact ih (hS.children _ hp _ _ edge).1

theorem Down.rank_eq (h : S.Down accepts p n s) (hS : S.Shape tree rank) (hp : p ∈ tree) :
    rank n = rank p + s.length := by
  induction h with
  | here => rfl
  | @child p m n c s edge _ _ ih =>
    obtain ⟨hm, _, hparent, _⟩ := hS.children p hp c m edge
    rw [ih hm, (hS.hangs_of_parent hm hparent).rank, List.length_append, Nat.add_assoc]

theorem Down.mono {accepts' : Nat → Bool} (h : S.Down accepts p n s)
    (hle : ∀ m, accepts m = true → accepts' m = true) : S.Down accepts' p n s := by
  induction h with
  | here n => exact .here n
  | child edge passes _ ih => exact .child edge (hle _ passes) ih

/-- Nodes with the same texts and children spell the same. -/
theorem Down.congr (h : S.Down accepts p n s)
    (hsame : ∀ m, SameNode (S.nodes m) (S'.nodes m)) : S'.Down accepts p n s := by
  induction h with
  | here n => exact .here n
  | @child p m n c s edge passes _ ih =>
    rw [← (hsame m).text]
    exact .child (by rw [(hsame p).children]; exact edge) passes ih

theorem Down.passes_last (h : S.Down accepts p n s) : n = p ∧ s = [] ∨ accepts n = true := by
  induction h with
  | here => exact .inl ⟨rfl, rfl⟩
  | child _ passes _ ih =>
    rcases ih with ⟨rfl, _⟩ | hlast
    · exact .inr passes
    · exact .inr hlast

/-- The way down to a node that a tenant has goes through nodes that it has. -/
theorem Down.tenant (hS : S.Shape tree rank) (hT : S.Tenanted tree)
    (h : S.Down (fun _ => true) p n s) (hp : p ∈ tree) (ht : t ∈ (S.nodes n).tenantLastAccessTime) :
    S.Down (fun m => decide (t ∈ (S.nodes m).tenantLastAccessTime)) p n s ∧
      t ∈ (S.nodes p).tenantLastAccessTime := by
  induction h with
  | here n => exact ⟨.here n, ht⟩
  | @child p m n c s edge _ _ ih =>
    obtain ⟨hm, _, hparent, _⟩ := hS.children p hp c m edge
    obtain ⟨hdown, hown⟩ := ih hm ht
    exact ⟨.child edge (decide_eq_true hown) hdown, hT.inherit m hm p hparent t hown⟩

/-- The first character of a text that leads down picks the child. -/
theorem Down.first (hS : S.Shape tree rank) (hp : p ∈ tree) (h : S.Down accepts p n s)
    {c : Char} {pre : List Char} (hpre : c :: pre <+: s) :
    ∃ m u, (S.nodes p).children.lookup c = some m ∧ accepts m = true ∧ S.Down accepts m n u ∧
      s = (S.nodes m).text ++ u := by
  cases h with
  | here => exact absurd (List.prefix_nil.mp hpre) (List.cons_ne_nil c pre)
  | @child _ m _ d u edge passes below =>
    have hhead := (hS.children p hp d m edge).2.2.2
    obtain ⟨rest, hrest⟩ := List.head?_eq_some_iff.mp hhead
    have hcd : c = d := by
      rw [hrest, List.cons_append, List.cons_prefix_cons] at hpre
      exact hpre.1
    subst hcd
    exact ⟨m, u, edge, passes, below, rfl⟩

/-- What the loop of the two matches finds from `prev` on: `k` characters of the text lead to
`curr`, in it or at its end, and no text that leads down has a longer prefix in common. -/
structure MatchedDown (S : TenantTree) (accepts : Nat → Bool) (prev : Nat) (text : List Char)
    (curr k : Nat) : Prop where
  le : k ≤ text.length
  leads : ∃ u, S.Down accepts prev curr u ∧ text.take k <+: u ∧
    (curr = prev ∧ k = 0 ∧ u = [] ∨ u.length < k + (S.nodes curr).text.length)
  longest : ∀ n s pre, S.Down accepts prev n s → pre <+: text → pre <+: s → pre.length ≤ k

namespace MatchedDown

/-- The loop stops at `prev` where no accepted child has the next character. -/
theorem stay (h : ∀ n s pre, S.Down accepts prev n s → pre <+: text → pre <+: s → pre = []) :
    S.MatchedDown accepts prev text prev 0 where
  le := Nat.zero_le _
  leads := ⟨[], .here prev, List.nil_prefix, .inl ⟨rfl, rfl, rfl⟩⟩
  longest n s pre hdown htext hs := by
    rw [h n s pre hdown htext hs]
    exact le_rfl

variable {c : Char} {rest : List Char} {matched curr k : Nat}

/-- What leads down with a common character goes through the child of that character. -/
theorem through (hS : S.Shape tree rank) (hprev : prev ∈ tree)
    (hchild : (S.nodes prev).children.lookup c = some matched) {pre : List Char}
    (hdown : S.Down accepts prev n s) (htext : pre <+: c :: rest) (hs : pre <+: s) :
    pre = [] ∨ ∃ u, accepts matched = true ∧ S.Down accepts matched n u ∧
      s = (S.nodes matched).text ++ u := by
  cases pre with
  | nil => exact .inl rfl
  | cons d pre =>
    obtain ⟨rfl, _⟩ := List.cons_prefix_cons.mp htext
    obtain ⟨m, u, hm, hpasses, hbelow, hsplit⟩ := hdown.first hS hprev hs
    obtain rfl := Option.some.inj (hm.symm.trans hchild)
    exact .inr ⟨u, hpasses, hbelow, hsplit⟩

/-- The text of the child matches, and the loop goes on from it. -/
theorem full (hS : S.Shape tree rank) (hprev : prev ∈ tree)
    (hchild : (S.nodes prev).children.lookup c = some matched) (hpasses : accepts matched = true)
    (htext : (S.nodes matched).text <+: c :: rest)
    (h : S.MatchedDown accepts matched ((c :: rest).drop (S.nodes matched).text.length) curr k) :
    S.MatchedDown accepts prev (c :: rest) curr ((S.nodes matched).text.length + k) where
  le := by
    have hle := h.le
    have := htext.length_le
    rw [List.length_drop] at hle
    omega
  leads := by
    obtain ⟨u, hdown, hpre, hends⟩ := h.leads
    refine ⟨_, .child hchild hpasses hdown, ?_, .inr ?_⟩
    · rw [List.take_add, ← List.prefix_iff_eq_take.mp htext]
      exact (List.prefix_append_right_inj _).mpr hpre
    · rw [List.length_append]
      rcases hends with ⟨rfl, rfl, rfl⟩ | hends
      · have hne : (S.nodes curr).text ≠ [] := by
          obtain ⟨hm, h0, _⟩ := hS.children prev hprev c curr hchild
          obtain ⟨_, hhangs⟩ := hS.hangs curr hm h0
          exact hhangs.text_ne
        have := List.length_pos_iff.mpr hne
        rw [List.length_nil]
        omega
      · omega
  longest n s pre hdown htext' hs := by
    rcases through hS hprev hchild hdown htext' hs with rfl | ⟨u, _, hbelow, rfl⟩
    · exact Nat.zero_le _
    · have hs' := hs.drop (S.nodes matched).text.length
      rw [List.drop_left] at hs'
      have hle := h.longest n u _ hbelow (htext'.drop _) hs'
      rw [List.length_drop] at hle
      omega

/-- The text parts within the text of the child, and the loop stops there. -/
theorem part (hS : S.Shape tree rank) (hprev : prev ∈ tree)
    (hchild : (S.nodes prev).children.lookup c = some matched) (hpasses : accepts matched = true)
    (hlt : sharedPrefixCount (S.nodes matched).text (c :: rest) < (S.nodes matched).text.length) :
    S.MatchedDown accepts prev (c :: rest) matched
      (sharedPrefixCount (S.nodes matched).text (c :: rest)) where
  le := by
    have hlen := congrArg List.length (sharedPrefixCount_take (S.nodes matched).text (c :: rest))
    rw [List.length_take, List.length_take] at hlen
    omega
  leads := by
    have hhead := (hS.children prev hprev c matched hchild).2.2.2
    have hpos : 0 < sharedPrefixCount (S.nodes matched).text (c :: rest) :=
      sharedPrefixCount_pos hhead rfl
    refine ⟨_, .child hchild hpasses (.here matched), ?_, .inr ?_⟩
    · rw [← sharedPrefixCount_take, List.append_nil]
      exact List.take_prefix _ _
    · rw [List.append_nil]
      omega
  longest n s pre hdown htext hs := by
    rcases through hS hprev hchild hdown htext hs with rfl | ⟨u, _, _, rfl⟩
    · exact Nat.zero_le _
    · by_contra hlong
      -- one more character would be shared by the text of the child
      have hcut := List.take_prefix (sharedPrefixCount (S.nodes matched).text (c :: rest) + 1) pre
      have hlen : (pre.take (sharedPrefixCount (S.nodes matched).text (c :: rest) + 1)).length =
          sharedPrefixCount (S.nodes matched).text (c :: rest) + 1 := by
        rw [List.length_take]
        omega
      have hinside := List.prefix_of_prefix_length_le (hcut.trans hs)
        (List.prefix_append (S.nodes matched).text u) (by omega)
      have := sharedPrefixCount_longest hinside (hcut.trans htext)
      omega

end MatchedDown

/-- The loop of the two matches, by induction on its fuel. -/
theorem Shape.matchLoop_exact (h : S.Shape tree rank) (accepts : Nat → Bool) {fuel : Nat}
    (hprev : prev ∈ tree) (hfuel : text.length ≤ fuel) (currIdx : Nat) :
    ∃ curr k, S.matchLoop accepts fuel prev text currIdx = some (curr, currIdx + k) ∧
      S.MatchedDown accepts prev text curr k := by
  induction fuel generalizing prev text currIdx with
  | zero =>
    obtain rfl := List.length_eq_zero_iff.mp (Nat.le_zero.mp hfuel)
    exact ⟨prev, 0, by rw [matchLoop]; rfl, .stay fun n s pre _ hpre _ => List.prefix_nil.mp hpre⟩
  | succ fuel ih =>
    cases text with
    | nil =>
      exact ⟨prev, 0, by rw [matchLoop]; rfl, .stay fun n s pre _ hpre _ => List.prefix_nil.mp hpre⟩
    | cons c rest =>
      unfold matchLoop
      cases hchild : (S.nodes prev).children.lookup c with
      | none =>
        refine ⟨prev, 0, rfl, .stay fun n s pre hdown htext hs => ?_⟩
        cases pre with
        | nil => rfl
        | cons d pre =>
          obtain ⟨rfl, _⟩ := List.cons_prefix_cons.mp htext
          obtain ⟨m, _, hm, _⟩ := hdown.first h hprev hs
          rw [hchild] at hm
          cases hm
      | some matched =>
        obtain ⟨hmt, _, _, hhead⟩ := h.children prev hprev c matched hchild
        have hpos : 0 < sharedPrefixCount (S.nodes matched).text (c :: rest) :=
          sharedPrefixCount_pos hhead rfl
        have hle := sharedPrefixCount_le (S.nodes matched).text (c :: rest)
        simp only
        split
        next hpasses =>
          split
          next hfull =>
            have hrest : ((c :: rest).drop
                (sharedPrefixCount (S.nodes matched).text (c :: rest))).length ≤ fuel := by
              rw [List.length_drop]
              omega
            obtain ⟨curr, k, hloop, hk⟩ := ih hmt hrest
              (currIdx + sharedPrefixCount (S.nodes matched).text (c :: rest))
            rw [hfull] at hk hloop ⊢
            refine ⟨curr, _, hloop.trans (by rw [Nat.add_assoc]), hk.full h hprev hchild hpasses ?_⟩
            have htake := sharedPrefixCount_take (S.nodes matched).text (c :: rest)
            rw [hfull, List.take_length] at htake
            rw [htake]
            exact List.take_prefix _ _
          next hpart =>
            exact ⟨matched, _, rfl, .part h hprev hchild hpasses (by omega)⟩
        next hrefused =>
          refine ⟨prev, 0, rfl, .stay fun n s pre hdown htext hs => ?_⟩
          rcases MatchedDown.through h hprev hchild hdown htext hs with hnil | ⟨_, hpasses, _⟩
          · exact hnil
          · exact absurd hpasses hrefused

end TenantTree

end FastPP
