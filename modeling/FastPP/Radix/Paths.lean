import FastPP.Lib.PrefixMap
import FastPP.Radix.Eviction

namespace FastPP

namespace RadixCache

/-- Node `n` ends the path from the root with the tokens `ks` and the slots `vs`. -/
inductive Path (S : RadixCache) : Nat → List Nat → List Nat → Prop
  | root : Path S 0 [] []
  | child {p t c : Nat} {ks vs : List Nat} (hp : Path S p ks vs)
      (hc : (t, c) ∈ (S.nodes p).children) :
      Path S c (ks ++ (S.nodes c).key) (vs ++ (S.nodes c).value)

def InTree (S : RadixCache) (n : Nat) : Prop :=
  ∃ ks vs, S.Path n ks vs

/-- Node `m` is node `n` or a descendant of it. -/
inductive Descends (S : RadixCache) (n : Nat) : Nat → Prop
  | refl : Descends S n n
  | child {p t c : Nat} (hp : Descends S n p) (hc : (t, c) ∈ (S.nodes p).children) :
      Descends S n c

/-- The last token of `q` stands at the slot `s` on a path that spells `q`. -/
def Maps (S : RadixCache) (q : List Nat) (s : Nat) : Prop :=
  ∃ n ks vs, S.Path n ks vs ∧ q ≠ [] ∧ q <+: ks ∧ vs[q.length - 1]? = some s

open Classical in
/-- The map from sequences to slots that the tree stands for. -/
noncomputable def tokenMap (S : RadixCache) : PrefixMap Nat Nat where
  get q := if h : ∃ s, S.Maps q s then some h.choose else none
  get_nil := by
    rw [dif_neg]
    rintro ⟨s, _, _, _, _, hnil, _⟩
    exact hnil rfl
  closed := by
    intro q t hq h
    split at h
    next hs =>
      obtain ⟨s, n, ks, vs, hpath, _, hpre, hslot⟩ := hs
      obtain ⟨hlt, _⟩ := List.getElem?_eq_some_iff.mp hslot
      rw [List.length_append] at hlt
      have hex : ∃ s, S.Maps q s := ⟨_, n, ks, vs, hpath, hq, (List.prefix_append _ _).trans hpre,
        List.getElem?_eq_getElem (by omega)⟩
      rw [dif_pos hex]
      rfl
    next => simp at h

variable {S S' : RadixCache} {tree : Finset Nat} {spell slots : Nat → List Nat}
  {locks : List Nat} {n m : Nat} {key q ks vs : List Nat}

namespace Shape

variable (h : S.Shape tree spell slots)

include h

theorem path (hn : n ∈ tree) : S.Path n (spell n) (slots n) := by
  induction hk : (spell n).length using Nat.strong_induction_on generalizing n with
  | _ k ih =>
    subst hk
    by_cases h0 : n = 0
    · rw [h0, h.root_spell, h.root_slots]
      exact .root
    · obtain ⟨p, hp⟩ := h.hangs n hn h0
      obtain ⟨t, _, hc⟩ := hp.child
      rw [hp.spell, hp.slots]
      exact .child (ih _ hp.length_lt hp.mem rfl) hc

theorem of_path (hp : S.Path n ks vs) : n ∈ tree ∧ ks = spell n ∧ vs = slots n := by
  induction hp with
  | root => exact ⟨h.root_mem, h.root_spell.symm, h.root_slots.symm⟩
  | child _ hc ih =>
    obtain ⟨hpt, rfl, rfl⟩ := ih
    have hh := h.hangs_of_child hpt hc
    exact ⟨(h.children _ hpt _ _ hc).1, hh.spell.symm, hh.slots.symm⟩

theorem inTree_iff : S.InTree n ↔ n ∈ tree := by
  constructor
  · rintro ⟨ks, vs, hp⟩
    exact (h.of_path hp).1
  · exact fun hn => ⟨_, _, h.path hn⟩

theorem descends_iff (hn : n ∈ tree) (hm : m ∈ tree) :
    S.Descends n m ↔ spell n <+: spell m := by
  constructor
  · intro hd
    have hmain : m ∈ tree ∧ spell n <+: spell m := by
      clear hm
      induction hd with
      | refl => exact ⟨hn, List.prefix_rfl⟩
      | child _ hc ih =>
        have hh := h.hangs_of_child ih.1 hc
        exact ⟨(h.children _ ih.1 _ _ hc).1, ih.2.trans hh.spell_le⟩
    exact hmain.2
  · intro hpre
    induction hk : (spell m).length using Nat.strong_induction_on generalizing m with
    | _ k ih =>
      subst hk
      by_cases h0 : m = 0
      · rw [h0, h.root_spell, List.prefix_nil] at hpre
        obtain rfl : n = m := by
          rw [h0]
          exact h.spell_inj hn h.root_mem (hpre.trans h.root_spell.symm)
        exact .refl
      · obtain ⟨p, hp⟩ := h.hangs m hm h0
        obtain ⟨t, _, hc⟩ := hp.child
        rcases h.prefix_cases hn hp hm hpre with e | e
        · rw [e]
          exact .refl
        · exact .child (ih _ hp.length_lt hp.mem e rfl) hc

theorem maps_iff {s : Nat} : S.Maps q s ↔ Leads tree spell slots q s := by
  constructor
  · rintro ⟨n, ks, vs, hp, hq⟩
    obtain ⟨hn, rfl, rfl⟩ := h.of_path hp
    exact ⟨n, hn, hq⟩
  · rintro ⟨n, hn, hq⟩
    exact ⟨n, _, _, h.path hn, hq⟩

theorem leads_unique {s s' : Nat} (hs : Leads tree spell slots q s)
    (hs' : Leads tree spell slots q s') : s = s' := by
  obtain ⟨n, hn, hnil, hpre, hslot⟩ := hs
  obtain ⟨m, hm, _, hpre', hslot'⟩ := hs'
  have hpos := List.length_pos_iff.mpr hnil
  have htake := h.slots_take hn hm hpre hpre'
  have hcut : ∀ xs : List Nat, xs[q.length - 1]? = (xs.take q.length)[q.length - 1]? := by
    intro xs
    rw [List.getElem?_take_of_lt (by omega)]
  rw [hcut, htake, ← hcut, hslot'] at hslot
  exact (Option.some.inj hslot).symm

theorem get_iff {s : Nat} : S.tokenMap.get q = some s ↔ Leads tree spell slots q s := by
  rw [← h.maps_iff]
  simp only [tokenMap]
  constructor
  · intro hget
    split at hget
    next hex =>
      have hs := hex.choose_spec
      rwa [Option.some.inj hget] at hs
    next => simp at hget
  · intro hs
    have hex : ∃ s, S.Maps q s := ⟨s, hs⟩
    rw [dif_pos hex]
    exact congrArg some
      (h.leads_unique (h.maps_iff.mp hex.choose_spec) (h.maps_iff.mp hs))

theorem get_none : S.tokenMap.get q = none ↔ ∀ s, ¬ Leads tree spell slots q s := by
  rw [Option.eq_none_iff_forall_not_mem]
  exact forall_congr' fun s => not_congr h.get_iff

end Shape

theorem SameMap.tokenMap_eq {tree' : Finset Nat} {spell' slots' : Nat → List Nat}
    (h : S.Shape tree spell slots) (h' : S'.Shape tree' spell' slots')
    (hmap : SameMap tree spell slots tree' spell' slots') : S'.tokenMap = S.tokenMap := by
  apply PrefixMap.ext_get
  intro q
  apply Option.ext
  intro s
  show S'.tokenMap.get q = some s ↔ S.tokenMap.get q = some s
  rw [h'.get_iff, h.get_iff, hmap.leads]

/-- What is found from the root is the match of the map. -/
theorem Found.matched {spell' slots' : Nat → List Nat} {last : Nat} {found : List Nat}
    {tree' : Finset Nat} (h : S.Shape tree spell slots) (h' : S'.Shape tree' spell' slots')
    (hmap : SameMap tree spell slots tree' spell' slots') (hlast : last ∈ tree')
    (hf : Found tree spell slots 0 key spell' slots' last found) :
    S.tokenMap.matched key = found := by
  have hspell := hf.spell
  have hslots := hf.slots
  rw [h.root_spell, List.nil_append] at hspell
  rw [h.root_slots, List.nil_append] at hslots
  apply PrefixMap.matched_eq hf.le
  · intro i hi
    have hle := hf.le
    rw [← hmap.tokenMap_eq h h', List.getElem?_eq_getElem hi, h'.get_iff]
    refine ⟨last, hlast, ?_, ?_, ?_⟩
    · rw [← List.length_pos_iff, List.length_take]
      omega
    · rw [hspell]
      exact List.take_prefix_take_left (by omega)
    · rw [hslots, List.length_take, List.getElem?_eq_getElem (by omega)]
      congr 1
      congr 1
      omega
  · intro t ht
    rw [h.get_none]
    intro s
    have hlongest := hf.longest t s ht
    rwa [h.root_spell, List.nil_append] at hlongest

/-- What is inserted from the root extends the map. -/
theorem Inserted.extend {value : List Nat} {spell' slots' : Nat → List Nat} {len : Nat}
    {tree' : Finset Nat} (h : S.Shape tree spell slots) (h' : S'.Shape tree' spell' slots')
    (hi : Inserted tree spell slots 0 key value tree' spell' slots' len) :
    (S.tokenMap.matched key).length = len ∧
      S'.tokenMap = S.tokenMap.extend key value := by
  have hlen : (S.tokenMap.matched key).length = len := by
    have hle := S.tokenMap.matchedFrom_length_le [] key
    apply Nat.le_antisymm
    · by_contra hlt
      have hidx : len < key.length := by
        unfold PrefixMap.matched at hlt
        omega
      have hs := (S.tokenMap.matched_longest (Nat.succ_le_of_lt hidx)).mpr
        ⟨by omega, by omega⟩
      obtain ⟨s, hs⟩ := Option.isSome_iff_exists.mp hs
      have hlongest := hi.longest _ s (List.getElem?_eq_getElem hidx)
      rw [h.root_spell, List.nil_append] at hlongest
      rw [h.get_iff, List.take_add_one, List.getElem?_eq_getElem hidx] at hs
      exact hlongest hs
    · by_cases hpos : 0 < len
      · obtain ⟨s, hs⟩ := hi.present hpos
        rw [h.root_spell, List.nil_append, ← h.get_iff] at hs
        exact ((S.tokenMap.matched_longest hi.le).mp (Option.isSome_iff_exists.mpr ⟨s, hs⟩)).2
      · omega
  refine ⟨hlen, ?_⟩
  apply PrefixMap.ext_get
  intro q
  apply Option.ext
  intro s
  show S'.tokenMap.get q = some s ↔ _ = some s
  rw [h'.get_iff, hi.leads, h.root_spell, List.nil_append, List.length_nil]
  simp only [PrefixMap.extend, Option.or_eq_some_iff]
  apply or_congr h.get_iff.symm
  by_cases hq : q <+: key ∧ q ≠ []
  · have hpos := List.length_pos_iff.mpr hq.2
    have hqk := hq.1.length_le
    have htake : q = key.take q.length := (List.prefix_iff_eq_take.mp hq.1)
    have hnone : S.tokenMap.get q = none ↔ 0 + len < q.length := by
      rw [← Option.not_isSome_iff_eq_none]
      have hlongest := S.tokenMap.matched_longest hqk
      rw [← htake, hlen] at hlongest
      rw [hlongest]
      omega
    rw [if_pos hq, hnone]
    simp [hq.1]
  · rw [if_neg hq]
    constructor
    · rintro ⟨hpre, hlt, _⟩
      exact absurd ⟨hpre, by rintro rfl; simp at hlt⟩ hq
    · rintro ⟨_, hs⟩
      simp at hs

end RadixCache

end FastPP
