import FastPP.Radix.Locks

namespace FastPP

namespace RadixCache

variable {S S' : RadixCache} {tree tree' : Finset Nat} {spell slots spell' slots' : Nat → List Nat}
  {locks : List Nat} {n m child node k p token : Nat} {key value : List Nat}

namespace Shape

variable (h : S.Shape tree spell slots)

include h

theorem leads_of_prefix {q : List Nat} (hn : n ∈ tree) (hq : q ≠ []) (hpre : q <+: spell n) :
    ∃ s, Leads tree spell slots q s := by
  have hlen := h.slots_length hn
  have hle := hpre.length_le
  have hpos := List.length_pos_iff.mpr hq
  exact ⟨_, n, hn, hq, hpre, List.getElem?_eq_getElem (by omega)⟩

/-- A path that goes on below a node with a token goes through the child for the token. -/
theorem next_child {t : Nat} (hn : node ∈ tree) (hm : m ∈ tree)
    (hpre : spell node ++ [t] <+: spell m) : ∃ c, (t, c) ∈ (S.nodes node).children := by
  rcases h.child_toward hn hm ((List.prefix_append _ _).trans hpre) with e | ⟨u, c, hc, hcm⟩
  · have hle := hpre.length_le
    rw [e, List.length_append, List.length_singleton] at hle
    omega
  · have hh := h.hangs_of_child hn hc
    obtain ⟨rest, hrest⟩ := List.head?_eq_some_iff.mp (h.children node hn u c hc).2.2.2
    rw [hh.spell, hrest] at hcm
    have hu : spell node ++ [u] <+: spell m := by
      refine List.IsPrefix.trans ?_ hcm
      rw [List.prefix_append_right_inj]
      exact ⟨rest, rfl⟩
    have heq := (List.prefix_of_prefix_length_le hpre hu (by simp)).eq_of_length (by simp)
    rw [List.append_cancel_left_eq, List.cons.injEq] at heq
    exact ⟨c, heq.1 ▸ hc⟩

theorem not_leads_of_free {t s : Nat} (hn : node ∈ tree)
    (hfree : ∀ c, (t, c) ∉ (S.nodes node).children) :
    ¬ Leads tree spell slots (spell node ++ [t]) s := by
  rintro ⟨m, hm, _, hpre, _⟩
  obtain ⟨c, hc⟩ := h.next_child hn hm hpre
  exact hfree c hc

theorem child_pos (rest : List Nat) (hn : node ∈ tree)
    (hc : (token, child) ∈ (S.nodes node).children) :
    0 < keyMatch (S.nodes child).key (token :: rest) := by
  obtain ⟨ys, hys⟩ := List.head?_eq_some_iff.mp (h.children node hn token child hc).2.2.2
  rw [hys]
  simp [keyMatch]

end Shape

/-- The ghost data goes on and every sequence has the slot it had. -/
structure SameMap (tree : Finset Nat) (spell slots : Nat → List Nat) (tree' : Finset Nat)
    (spell' slots' : Nat → List Nat) : Prop where
  keeps : Keeps tree spell slots tree' spell' slots'
  leads : ∀ q s, Leads tree' spell' slots' q s ↔ Leads tree spell slots q s

/-- The child's edge is cut where it leaves the key; the node there ends the common part. -/
theorem Locked.cut (h : S.Locked tree spell slots locks) (clock : Nat → Rat) (hn : node ∈ tree)
    (hc : (token, child) ∈ (S.nodes node).children)
    (hk0 : 0 < keyMatch (S.nodes child).key key)
    (hk : keyMatch (S.nodes child).key key < (S.nodes child).key.length) :
    ∃ S' spell' slots', S.splitNode clock child (keyMatch (S.nodes child).key key) =
        some (S', S.nextNode) ∧
      S'.Locked (Insert.insert S.nextNode tree) spell' slots' locks ∧
      SameMap tree spell slots (Insert.insert S.nextNode tree) spell' slots' ∧
      spell' S.nextNode = spell node ++ key.take (keyMatch (S.nodes child).key key) ∧
      slots' S.nextNode = slots node ++ (S'.nodes S.nextNode).value ∧
      (S'.nodes S.nextNode).value.length = keyMatch (S.nodes child).key key ∧
      (∀ t c, key[keyMatch (S.nodes child).key key]? = some t →
        (t, c) ∉ (S'.nodes S.nextNode).children) ∧
      S'.tokens (Insert.insert S.nextNode tree) = S.tokens tree := by
  have hh := h.shape.hangs_of_child hn hc
  have hct := (h.shape.children node hn token child hc).1
  have hcp : child ≠ node := fun e => Nat.lt_irrefl _ (e ▸ hh.length_lt)
  obtain ⟨S', hrun, hs⟩ := splitNode_spec clock hk hh.parent hcp (h.shape.ne_next hct)
    (h.shape.ne_next hn)
  obtain ⟨tok, time, htok, hup⟩ := hs.upper
  refine ⟨S', _, _, hrun, h.split hs hh hct hk0 hk, ⟨keeps_insert _ _ _ _ h.shape.notMem_next, ?_⟩,
    ?_, ?_, ?_, ?_, hs.tokens_eq h.shape hh hct hk⟩
  · intro q s
    exact h.shape.split_leads hh hct
  · rw [Function.update_self, keyMatch_take]
  · rw [Function.update_self, hup]
  · rw [hup]
    have hlen := hh.value_length
    show ((S.nodes child).value.take _).length = _
    rw [List.length_take]
    omega
  · intro t c ht hmem
    rw [hup] at hmem
    obtain ⟨rfl, rfl⟩ := Prod.mk.inj (List.mem_singleton.mp hmem)
    exact keyMatch_ne htok ht rfl

/-- What `_match_prefix_helper` finds below a node for a key. -/
structure Found (tree : Finset Nat) (spell slots : Nat → List Nat) (node : Nat) (key : List Nat)
    (spell' slots' : Nat → List Nat) (last : Nat) (found : List Nat) : Prop where
  le : found.length ≤ key.length
  longest : ∀ t s, key[found.length]? = some t →
    ¬ Leads tree spell slots (spell node ++ key.take found.length ++ [t]) s
  spell : spell' last = spell node ++ key.take found.length
  slots : slots' last = slots node ++ found

theorem matchPrefixHelper_spec (clock : Nat → Rat) (fuel : Nat) (key value : List Nat)
    (h : S.Locked tree spell slots locks) (hn : node ∈ tree) (hfuel : key.length < fuel) :
    ∃ S' found last tree' spell' slots',
      matchPrefixHelper clock fuel S node key value node = some (S', value ++ found, last) ∧
      S'.Locked tree' spell' slots' locks ∧ SameMap tree spell slots tree' spell' slots' ∧
      last ∈ tree' ∧ Found tree spell slots node key spell' slots' last found ∧
      S'.tokens tree' = S.tokens tree := by
  induction fuel generalizing S tree spell slots node key value with
  | zero => omega
  | succ fuel ih =>
    have ht := h.touch clock node
    have htokens : (S.touch clock node).tokens tree = S.tokens tree :=
      Finset.sum_congr rfl fun n _ => by rw [(touch_same clock node n).value]
    have hstop : (∀ t c, key.head? = some t → (t, c) ∉ ((S.touch clock node).nodes node).children) →
        ∃ S' found last tree' spell' slots',
          some (S.touch clock node, value, node) = some (S', value ++ found, last) ∧
          S'.Locked tree' spell' slots' locks ∧ SameMap tree spell slots tree' spell' slots' ∧
          last ∈ tree' ∧ Found tree spell slots node key spell' slots' last found ∧
          S'.tokens tree' = S.tokens tree := by
      intro hfree
      refine ⟨_, [], node, tree, spell, slots, by rw [List.append_nil], ht,
        ⟨.rfl, fun _ _ => .rfl⟩, hn, ⟨Nat.zero_le _, ?_, by simp, by simp⟩, htokens⟩
      intro t s htoken
      rw [List.length_nil, ← List.head?_eq_getElem?] at htoken
      rw [List.length_nil, List.take_zero, List.append_nil]
      exact ht.shape.not_leads_of_free hn fun c => hfree t c htoken
    unfold matchPrefixHelper
    rcases key with _ | ⟨token, rest⟩
    · exact hstop (by simp)
    · simp only
      cases hlook : ((S.touch clock node).nodes node).children.lookup token with
      | none =>
        apply hstop
        intro t c htoken
        cases Option.some.inj htoken
        exact lookup_eq_none hlook
      | some child =>
        have hc := (lookup_eq_some (ht.shape.keys node hn)).mp hlook
        have hk0 := ht.shape.child_pos rest hn hc
        have hkl := keyMatch_le_right ((S.touch clock node).nodes child).key (token :: rest)
        simp only
        split
        next hk =>
          -- the match ends within the edge
          obtain ⟨S₁, spell₁, slots₁, hrun, h₁, hmap, hspell, hslots, hvalue, hfree, hsum⟩ :=
            ht.cut clock hn hc hk0 hk
          have hnew := Finset.mem_insert_self (S.touch clock node).nextNode tree
          rw [hrun]
          refine ⟨S₁, (S₁.nodes (S.touch clock node).nextNode).value,
            (S.touch clock node).nextNode, _, spell₁, slots₁, rfl, h₁, hmap, hnew, ⟨?_, ?_,
            ?_, hslots⟩, hsum.trans htokens⟩
          · rw [hvalue]
            exact hkl
          · intro t s htoken
            rw [hvalue] at htoken ⊢
            rw [← hmap.leads, ← hspell]
            exact h₁.shape.not_leads_of_free hnew fun c => hfree t c htoken
          · rw [hvalue, hspell]
        next hk =>
          -- the whole edge matches
          have hkc := keyMatch_le_left ((S.touch clock node).nodes child).key (token :: rest)
          have htake := keyMatch_take ((S.touch clock node).nodes child).key (token :: rest)
          have hct := (ht.shape.children node hn token child hc).1
          have hh := ht.shape.hangs_of_child hn hc
          rw [List.take_of_length_le (by omega)] at htake
          obtain ⟨S', found, last, tree', spell', slots', hrun, h', hmap, hlast, hf, hsum⟩ :=
            ih ((token :: rest).drop
              (keyMatch ((S.touch clock node).nodes child).key (token :: rest)))
              (value ++ ((S.touch clock node).nodes child).value) ht hct (by
                rw [List.length_drop]
                omega)
          have hlen : ((S.touch clock node).nodes child).value.length =
              keyMatch ((S.touch clock node).nodes child).key (token :: rest) := by
            rw [hh.value_length]
            omega
          have hspell : spell node ++ (token :: rest).take
              (((S.touch clock node).nodes child).value ++ found).length =
              spell child ++ ((token :: rest).drop (keyMatch
                ((S.touch clock node).nodes child).key (token :: rest))).take found.length := by
            rw [List.length_append, hlen, List.take_add, hh.spell, ← htake, List.append_assoc]
          refine ⟨S', ((S.touch clock node).nodes child).value ++ found, last, tree', spell', slots',
            ?_, h', hmap, hlast, ⟨?_, ?_, ?_, ?_⟩, hsum.trans htokens⟩
          · rw [hrun, List.append_assoc]
          · have hle := hf.le
            rw [List.length_drop] at hle
            rw [List.length_append]
            omega
          · intro t s htoken
            rw [hspell]
            apply hf.longest
            rwa [List.getElem?_drop, ← hlen, ← List.length_append]
          · rw [hspell, hf.spell]
          · rw [hf.slots, hh.slots, List.append_assoc]

end RadixCache

namespace RadixCache

variable {S S' : RadixCache} {tree tree₁ tree' : Finset Nat}
  {spell slots spell₁ slots₁ spell' slots' : Nat → List Nat}
  {locks : List Nat} {node next k len : Nat} {key value : List Nat}

/-- What `_insert_helper` does below a node for a key and its slots: `len` tokens of the key
were there, the others get theirs. -/
structure Inserted (tree : Finset Nat) (spell slots : Nat → List Nat) (node : Nat)
    (key value : List Nat) (tree' : Finset Nat) (spell' slots' : Nat → List Nat)
    (len : Nat) : Prop where
  le : len ≤ key.length
  present : 0 < len → ∃ s, Leads tree spell slots (spell node ++ key.take len) s
  longest : ∀ t s, key[len]? = some t →
    ¬ Leads tree spell slots (spell node ++ key.take len ++ [t]) s
  keeps : Keeps tree spell slots tree' spell' slots'
  leads : ∀ q s, Leads tree' spell' slots' q s ↔ Leads tree spell slots q s ∨
    (q <+: spell node ++ key ∧ (spell node).length + len < q.length ∧
      value[q.length - (spell node).length - 1]? = some s)

/-- The work goes on at the next node on the way of the key. -/
theorem Inserted.descend (hmap : SameMap tree spell slots tree₁ spell₁ slots₁)
    (hspell : spell₁ next = spell node ++ key.take k) (hk : k ≤ key.length)
    (hpresent : ∃ s, Leads tree spell slots (spell node ++ key.take k) s)
    (h : Inserted tree₁ spell₁ slots₁ next (key.drop k) (value.drop k) tree' spell' slots' len) :
    Inserted tree spell slots node key value tree' spell' slots' (k + len) := by
  have htake : spell node ++ key.take (k + len) = spell₁ next ++ (key.drop k).take len := by
    rw [hspell, List.take_add, List.append_assoc]
  have hlen : (spell₁ next).length = (spell node).length + k := by
    rw [hspell, List.length_append, List.length_take]
    omega
  constructor
  · have hle := h.le
    rw [List.length_drop] at hle
    omega
  · intro _
    rw [htake]
    by_cases hpos : 0 < len
    · obtain ⟨s, hs⟩ := h.present hpos
      exact ⟨s, (hmap.leads _ _).mp hs⟩
    · obtain rfl : len = 0 := by omega
      rwa [List.take_zero, List.append_nil, hspell]
  · intro t s ht hleads
    rw [htake] at hleads
    refine h.longest t s ?_ ((hmap.leads _ _).mpr hleads)
    rwa [List.getElem?_drop]
  · exact hmap.keeps.trans h.keeps
  · intro q s
    rw [h.leads, hmap.leads, hspell, List.append_assoc, List.take_append_drop, ← hspell, hlen]
    apply or_congr .rfl
    apply and_congr_right
    intro _
    rw [← Nat.add_assoc]
    apply and_congr_right
    intro hlt
    rw [List.getElem?_drop]
    have hidx : k + (q.length - ((spell node).length + k) - 1) =
        q.length - (spell node).length - 1 := by omega
    rw [hidx]

theorem Inserted.all (hpresent : ∃ s, Leads tree spell slots (spell node ++ key) s) :
    Inserted tree spell slots node key value tree spell slots key.length where
  le := Nat.le_refl _
  present _ := by rwa [List.take_length]
  longest t s ht := by simp at ht
  keeps := .rfl
  leads q s := by
    refine ⟨.inl, fun e => e.resolve_right ?_⟩
    rintro ⟨hpre, hlt, _⟩
    have hle := hpre.length_le
    rw [List.length_append] at hle
    omega

theorem insertHelper_spec (clock : Nat → Rat) (fuel : Nat) (key value : List Nat)
    (h : S.Locked tree spell slots locks) (hn : node ∈ tree) (hfuel : key.length < fuel)
    (hvalue : value.length = key.length) :
    ∃ S' len tree' spell' slots', insertHelper clock fuel S node key value = some (S', len) ∧
      S'.Locked tree' spell' slots' locks ∧
      Inserted tree spell slots node key value tree' spell' slots' len := by
  induction fuel generalizing S tree spell slots node key value with
  | zero => omega
  | succ fuel ih =>
    have ht := h.touch clock node
    unfold insertHelper
    rcases key with _ | ⟨token, rest⟩
    · obtain rfl := List.length_eq_zero_iff.mp hvalue
      refine ⟨_, 0, tree, spell, slots, rfl, ht, Nat.le_refl _, by simp, by simp, .rfl, ?_⟩
      simp
    · simp only
      cases hlook : ((S.touch clock node).nodes node).children.lookup token with
      | none =>
        -- a new leaf takes the whole key
        have hfree : ∀ c, (token, c) ∉ ((S.touch clock node).nodes node).children :=
          fun c => lookup_eq_none hlook
        have hl := addLeaf_spec (S := S.touch clock node) clock token (token :: rest) value
          (ht.shape.ne_next hn)
        refine ⟨_, 0, _, _, _, rfl, ht.addLeaf hl hn hfree rfl hvalue, Nat.zero_le _, by simp, ?_,
          keeps_insert _ _ _ _ ht.shape.notMem_next, ?_⟩
        · intro t s htoken
          cases Option.some.inj htoken
          rw [List.take_zero, List.append_nil]
          exact ht.shape.not_leads_of_free hn hfree
        · intro q s
          exact ht.shape.addLeaf_leads hn
      | some child =>
        have hc := (lookup_eq_some (ht.shape.keys node hn)).mp hlook
        have hk0 := ht.shape.child_pos rest hn hc
        have hkl := keyMatch_le_right ((S.touch clock node).nodes child).key (token :: rest)
        have hkc := keyMatch_le_left ((S.touch clock node).nodes child).key (token :: rest)
        have htake := keyMatch_take ((S.touch clock node).nodes child).key (token :: rest)
        have hct := (ht.shape.children node hn token child hc).1
        have hh := ht.shape.hangs_of_child hn hc
        have hpresent : ∃ s, Leads tree spell slots (spell node ++ (token :: rest).take
            (keyMatch ((S.touch clock node).nodes child).key (token :: rest))) s := by
          apply ht.shape.leads_of_prefix hct
          · rw [← List.length_pos_iff, List.length_append, List.length_take]
            omega
          · rw [hh.spell, List.prefix_append_right_inj, ← htake]
            exact List.take_prefix _ _
        simp only
        split
        next hk =>
          rw [hk, List.take_length] at htake
          split
          next hkey =>
            -- the key ends with the edge
            rw [hkey, List.take_length] at hpresent
            refine ⟨_, _, tree, spell, slots, rfl, ht, ?_⟩
            rw [hkey]
            exact .all hpresent
          next hkey =>
            obtain ⟨S', len, tree', spell', slots', hrun, h', hi⟩ := ih
              ((token :: rest).drop
                (keyMatch ((S.touch clock node).nodes child).key (token :: rest)))
              (value.drop
                (keyMatch ((S.touch clock node).nodes child).key (token :: rest))) ht hct
              (by rw [List.length_drop]; omega)
              (by rw [List.length_drop, List.length_drop, hvalue])
            refine ⟨S', _, tree', spell', slots', by rw [hrun]; rfl, h', ?_⟩
            refine hi.descend ⟨.rfl, fun _ _ => .rfl⟩ ?_ hkl hpresent
            rw [hh.spell, hk, ← htake]
        next hk =>
          -- the edge is cut and the rest of the key goes on from there
          obtain ⟨S₁, spell₁, slots₁, hrun₁, h₁, hmap, hspell, _⟩ :=
            ht.cut clock hn hc hk0 (by omega)
          obtain ⟨S', len, tree', spell', slots', hrun, h', hi⟩ := ih
            ((token :: rest).drop
              (keyMatch ((S.touch clock node).nodes child).key (token :: rest)))
            (value.drop
              (keyMatch ((S.touch clock node).nodes child).key (token :: rest))) h₁
            (Finset.mem_insert_self _ _)
            (by rw [List.length_drop]; omega)
            (by rw [List.length_drop, List.length_drop, hvalue])
          refine ⟨S', _, tree', spell', slots', ?_, h', hi.descend hmap hspell hkl hpresent⟩
          rw [hrun₁]
          simp only [Option.bind_eq_bind, Option.bind_some]
          rw [hrun]
          rfl

end RadixCache

end FastPP
