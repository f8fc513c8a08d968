import FastPP.Radix.Cache
import Mathlib.Data.Finset.Basic

namespace FastPP

theorem keyMatch_le_left (xs ys : List Nat) : keyMatch xs ys ≤ xs.length := by
  induction xs generalizing ys with
  | nil => cases ys <;> simp [keyMatch]
  | cons x xs ih =>
    rcases ys with _ | ⟨y, ys⟩
    · simp [keyMatch]
    · have h := ih ys
      simp only [keyMatch, List.length_cons]
      split <;> omega

theorem keyMatch_take (xs ys : List Nat) :
    xs.take (keyMatch xs ys) = ys.take (keyMatch xs ys) := by
  induction xs generalizing ys with
  | nil => cases ys <;> simp [keyMatch]
  | cons x xs ih =>
    rcases ys with _ | ⟨y, ys⟩
    · simp [keyMatch]
    · by_cases hxy : x = y
      · simp [keyMatch, hxy, ih ys]
      · simp [keyMatch, hxy]

theorem keyMatch_le_right (xs ys : List Nat) : keyMatch xs ys ≤ ys.length := by
  induction xs generalizing ys with
  | nil => cases ys <;> simp [keyMatch]
  | cons x xs ih =>
    rcases ys with _ | ⟨y, ys⟩
    · simp [keyMatch]
    · have h := ih ys
      simp only [keyMatch, List.length_cons]
      split <;> omega

theorem keyMatch_ne {xs ys : List Nat} {x y : Nat} (hx : xs[keyMatch xs ys]? = some x)
    (hy : ys[keyMatch xs ys]? = some y) : x ≠ y := by
  induction xs generalizing ys with
  | nil => simp at hx
  | cons a xs ih =>
    rcases ys with _ | ⟨b, ys⟩
    · simp at hy
    · by_cases hab : a = b
      · simp only [keyMatch, hab, ne_eq, not_true_eq_false, ↓reduceIte,
          List.getElem?_cons_succ] at hx hy
        exact ih hx hy
      · simp only [keyMatch, ne_eq, hab, not_false_eq_true, ↓reduceIte,
          List.getElem?_cons_zero, Option.some.injEq] at hx hy
        omega

namespace RadixCache

/-- Node `n` hangs under `p` in the tree. -/
structure Hangs (S : RadixCache) (tree : Finset Nat) (spell slots : Nat → List Nat)
    (n p : Nat) : Prop where
  parent : (S.nodes n).parent = some p
  mem : p ∈ tree
  key_ne : (S.nodes n).key ≠ []
  value_length : (S.nodes n).value.length = (S.nodes n).key.length
  spell : spell n = spell p ++ (S.nodes n).key
  slots : slots n = slots p ++ (S.nodes n).value
  child : ∃ t, (S.nodes n).key.head? = some t ∧ (t, n) ∈ (S.nodes p).children

/-- The nodes of `tree` are those of the cache; the path to node `n` spells `spell n`, and
`slots n` are the slots on it. -/
structure Shape (S : RadixCache) (tree : Finset Nat) (spell slots : Nat → List Nat) : Prop where
  root_mem : 0 ∈ tree
  root_spell : spell 0 = []
  root_slots : slots 0 = []
  root_value : (S.nodes 0).value = []
  lt_next : ∀ n ∈ tree, n < S.nextNode
  hangs : ∀ n ∈ tree, n ≠ 0 → ∃ p, S.Hangs tree spell slots n p
  children : ∀ p ∈ tree, ∀ t c, (t, c) ∈ (S.nodes p).children → c ∈ tree ∧ c ≠ 0 ∧
    (S.nodes c).parent = some p ∧ (S.nodes c).key.head? = some t
  keys : ∀ p ∈ tree, ((S.nodes p).children.map Prod.fst).Nodup

variable {S : RadixCache} {tree : Finset Nat} {spell slots : Nat → List Nat} {n m p q : Nat}

theorem Hangs.length_lt (h : S.Hangs tree spell slots n p) :
    (spell p).length < (spell n).length := by
  rw [h.spell, List.length_append]
  have hpos := List.length_pos_iff.mpr h.key_ne
  omega

theorem Hangs.spell_le (h : S.Hangs tree spell slots n p) : spell p <+: spell n := by
  rw [h.spell]
  exact List.prefix_append _ _

namespace Shape

variable (h : S.Shape tree spell slots)

include h

theorem hangs_of_parent (hn : n ∈ tree) (h0 : n ≠ 0) (hp : (S.nodes n).parent = some p) :
    S.Hangs tree spell slots n p := by
  obtain ⟨p', h'⟩ := h.hangs n hn h0
  cases Option.some.inj (h'.parent.symm.trans hp)
  exact h'

theorem hangs_of_child {t c : Nat} (hp : p ∈ tree) (hc : (t, c) ∈ (S.nodes p).children) :
    S.Hangs tree spell slots c p := by
  obtain ⟨hct, hc0, hpar, _⟩ := h.children p hp t c hc
  exact h.hangs_of_parent hct hc0 hpar

theorem slots_length (hn : n ∈ tree) : (slots n).length = (spell n).length := by
  induction hl : (spell n).length using Nat.strong_induction_on generalizing n with
  | _ k ih =>
    subst hl
    by_cases h0 : n = 0
    · rw [h0, h.root_spell, h.root_slots]
    · obtain ⟨p, hp⟩ := h.hangs n hn h0
      rw [hp.slots, hp.spell, List.length_append, List.length_append, hp.value_length,
        ih _ hp.length_lt hp.mem rfl]

/-- Siblings start with different tokens. -/
theorem sibling_eq (hn : S.Hangs tree spell slots n p) (hm : S.Hangs tree spell slots m p)
    (hhead : (S.nodes n).key.head? = (S.nodes m).key.head?) : n = m := by
  obtain ⟨t, hnt, hnc⟩ := hn.child
  obtain ⟨u, hmu, hmc⟩ := hm.child
  have htu : t = u := Option.some.inj (hnt.symm.trans (hhead.trans hmu))
  subst htu
  have hnd := h.keys p hn.mem
  exact (Prod.mk.inj (List.inj_on_of_nodup_map hnd hnc hmc rfl)).2

/-- A node whose sequence is a prefix of another's is that node or is above it. -/
theorem prefix_cases (hn : n ∈ tree) (hm : S.Hangs tree spell slots m p)
    (hmt : m ∈ tree) (hpre : spell n <+: spell m) : n = m ∨ spell n <+: spell p := by
  induction hk : (spell n).length + (spell m).length using Nat.strong_induction_on
    generalizing n m p with
  | _ k ih =>
    subst hk
    have hpm := hm.length_lt
    by_cases hle : (spell n).length ≤ (spell p).length
    · exact .inr (List.prefix_of_prefix_length_le hpre hm.spell_le hle)
    · by_cases h0 : n = 0
      · rw [h0, h.root_spell]
        exact .inr List.nil_prefix
      · obtain ⟨q, hq⟩ := h.hangs n hn h0
        have hqn := hq.length_lt
        have hnm := hpre.length_le
        have hpn : spell p <+: spell n := List.prefix_of_prefix_length_le hm.spell_le hpre (by omega)
        -- the parents spell the same, so they are one node
        have hpq : spell p <+: spell q := by
          rcases ih _ (by omega) hm.mem hq hn hpn rfl with e | e
          · subst e; omega
          · exact e
        have hqp : spell q <+: spell p := by
          rcases ih _ (by omega) hq.mem hm hmt (hq.spell_le.trans hpre) rfl with e | e
          · subst e; omega
          · exact e
        have hlen : (spell p).length = (spell q).length :=
          Nat.le_antisymm hpq.length_le hqp.length_le
        have hsame : p = q := by
          by_cases hq0 : q = 0
          · by_contra hne
            obtain ⟨r, hr⟩ := h.hangs p hm.mem (by omega)
            have hlt := hr.length_lt
            rw [hlen, hq0, h.root_spell] at hlt
            simp at hlt
          · obtain ⟨r, hr⟩ := h.hangs q hq.mem hq0
            have hlt := hr.length_lt
            rcases ih _ (by omega) hm.mem hr hq.mem hpq rfl with e | e
            · exact e
            · have hle' := e.length_le
              omega
        subst hsame
        left
        apply h.sibling_eq hq hm
        rw [hq.spell, hm.spell, List.prefix_append_right_inj] at hpre
        obtain ⟨rest, hrest⟩ := hpre
        obtain ⟨a, as, has⟩ := List.exists_cons_of_ne_nil hq.key_ne
        rw [← hrest, has]
        rfl

theorem prefix_iff (hn : n ∈ tree) (hm : S.Hangs tree spell slots m p) (hmt : m ∈ tree) :
    spell n <+: spell m ↔ n = m ∨ spell n <+: spell p := by
  refine ⟨h.prefix_cases hn hm hmt, ?_⟩
  rintro (e | e)
  · rw [e]
  · exact e.trans hm.spell_le

theorem spell_inj (hn : n ∈ tree) (hm : m ∈ tree) (he : spell n = spell m) : n = m := by
  by_cases h0 : m = 0
  · by_contra hne
    obtain ⟨p, hp⟩ := h.hangs n hn (by omega)
    have hlt := hp.length_lt
    rw [he, h0, h.root_spell] at hlt
    simp at hlt
  · obtain ⟨p, hp⟩ := h.hangs m hm h0
    have hlt := hp.length_lt
    rcases h.prefix_cases hn hp hm (by rw [he]) with e | e
    · exact e
    · have hle := e.length_le
      rw [he] at hle
      omega

/-- The way down: below a node that is not the end of a path there is a child on it. -/
theorem child_toward (hn : n ∈ tree) (hm : m ∈ tree) (hpre : spell n <+: spell m) :
    n = m ∨ ∃ t c, (t, c) ∈ (S.nodes n).children ∧ spell c <+: spell m := by
  induction hk : (spell m).length using Nat.strong_induction_on generalizing m with
  | _ k ih =>
    subst hk
    by_cases h0 : m = 0
    · left
      rw [h0, h.root_spell, List.prefix_nil] at hpre
      exact h.spell_inj hn hm (by rw [h0, hpre, h.root_spell])
    · obtain ⟨p, hp⟩ := h.hangs m hm h0
      rcases h.prefix_cases hn hp hm hpre with e | e
      · exact .inl e
      · rcases ih _ hp.length_lt hp.mem e rfl with e' | ⟨t, c, hc, hpc⟩
        · subst e'
          obtain ⟨t, _, ht⟩ := hp.child
          exact .inr ⟨t, m, ht, List.prefix_rfl⟩
        · exact .inr ⟨t, c, hc, hpc.trans hp.spell_le⟩

/-- Two paths have the same slots as long as they spell the same. -/
theorem slots_take {seq : List Nat} (hn : n ∈ tree) (hm : m ∈ tree) (hsn : seq <+: spell n)
    (hsm : seq <+: spell m) : (slots n).take seq.length = (slots m).take seq.length := by
  induction hk : (spell n).length + (spell m).length using Nat.strong_induction_on
    generalizing n m with
  | _ k ih =>
    subst hk
    by_cases hnil : seq = []
    · simp [hnil]
    have hpos := List.length_pos_iff.mpr hnil
    have hlift : ∀ {n p : Nat}, S.Hangs tree spell slots n p → seq <+: spell p →
        (slots n).take seq.length = (slots p).take seq.length := by
      intro n p hp hle
      rw [hp.slots, List.take_append_of_le_length]
      rw [h.slots_length hp.mem]
      exact hle.length_le
    have hroot : ∀ {n : Nat}, seq <+: spell n → n ≠ 0 := by
      intro n hle h0
      rw [h0, h.root_spell, List.prefix_nil] at hle
      exact hnil hle
    obtain ⟨p, hp⟩ := h.hangs n hn (hroot hsn)
    obtain ⟨q, hq⟩ := h.hangs m hm (hroot hsm)
    have hpn := hp.length_lt
    have hqm := hq.length_lt
    by_cases hsp : seq <+: spell p
    · rw [hlift hp hsp, ih _ (by omega) hp.mem hm hsp hsm rfl]
    by_cases hsq : seq <+: spell q
    · rw [hlift hq hsq, ih _ (by omega) hn hq.mem hsn hsq rfl]
    -- both sequences end in the edges to `n` and `m`
    have hps : spell p <+: seq := by
      rcases List.prefix_or_prefix_of_prefix hp.spell_le hsn with e | e
      · exact e
      · exact absurd e hsp
    have hqs : spell q <+: seq := by
      rcases List.prefix_or_prefix_of_prefix hq.spell_le hsm with e | e
      · exact e
      · exact absurd e hsq
    have hlp : (spell p).length < seq.length :=
      Nat.lt_of_le_of_ne hps.length_le fun e => hsp (hps.eq_of_length e ▸ List.prefix_rfl)
    have hlq : (spell q).length < seq.length :=
      Nat.lt_of_le_of_ne hqs.length_le fun e => hsq (hqs.eq_of_length e ▸ List.prefix_rfl)
    have hpq : spell p <+: spell q := by
      rcases h.prefix_cases hp.mem hq hm (hps.trans hsm) with e | e
      · have hle := hsm.length_le
        rw [← e] at hle
        omega
      · exact e
    have hqp : spell q <+: spell p := by
      rcases h.prefix_cases hq.mem hp hn (hqs.trans hsn) with e | e
      · have hle := hsn.length_le
        rw [← e] at hle
        omega
      · exact e
    have hsame : p = q := h.spell_inj hp.mem hq.mem (hpq.eq_of_length_le hqp.length_le)
    subst hsame
    have hnm : n = m := by
      apply h.sibling_eq hp hq
      obtain ⟨rest, hrest⟩ := hps
      rw [← hrest] at hsn hsm hlp
      rw [hp.spell, List.prefix_append_right_inj] at hsn
      rw [hq.spell, List.prefix_append_right_inj] at hsm
      obtain ⟨xs, hxs⟩ := hsn
      obtain ⟨ys, hys⟩ := hsm
      rcases rest with _ | ⟨a, rest⟩
      · simp at hlp
      · rw [← hxs, ← hys]
        rfl
    rw [hnm]

end Shape

end RadixCache

end FastPP
