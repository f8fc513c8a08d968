import Mathlib.Data.List.Basic

namespace FastPP

/-- A map on the nonempty sequences that has every prefix of a sequence it has. -/
structure PrefixMap (α β : Type) where
  get : List α → Option β
  get_nil : get [] = none
  closed : ∀ q t, q ≠ [] → (get (q ++ [t])).isSome → (get q).isSome

namespace PrefixMap

variable {α β : Type} {m m' : PrefixMap α β} {q key : List α} {found : List β}

theorem ext_get (h : ∀ q, m.get q = m'.get q) : m = m' := by
  obtain ⟨get, _, _⟩ := m
  obtain ⟨get', _, _⟩ := m'
  obtain rfl : get = get' := funext h
  rfl

/-- The values of the prefixes of `q ++ key` longer than `q`, as far as there are any. -/
def matchedFrom (m : PrefixMap α β) (q : List α) : List α → List β
  | [] => []
  | t :: rest =>
    match m.get (q ++ [t]) with
    | none => []
    | some s => s :: matchedFrom m (q ++ [t]) rest

/-- The values of the prefixes of a key up to the longest one in the map. -/
def matched (m : PrefixMap α β) (key : List α) : List β :=
  m.matchedFrom [] key

/-- The map that gives the prefixes of a key that were not there their values. -/
def extend [DecidableEq α] (m : PrefixMap α β) (key : List α) (value : List β) :
    PrefixMap α β where
  get q := (m.get q).or (if q <+: key ∧ q ≠ [] then value[q.length - 1]? else none)
  get_nil := by simp [m.get_nil]
  closed := by
    intro q t hq h
    rw [Option.isSome_or, Bool.or_eq_true] at h ⊢
    rcases h with h | h
    · exact .inl (m.closed q t hq h)
    · right
      split at h
      next hpre =>
        rw [if_pos ⟨(List.prefix_append q [t]).trans hpre.1, hq⟩]
        obtain ⟨s, hs⟩ := Option.isSome_iff_exists.mp h
        obtain ⟨hlt, _⟩ := List.getElem?_eq_some_iff.mp hs
        rw [List.length_append] at hlt
        rw [List.getElem?_eq_getElem (by omega)]
        rfl
      next => simp at h

theorem extend_isSome [DecidableEq α] (m : PrefixMap α β) {value : List β}
    (hlen : value.length = key.length) :
    ((m.extend key value).get q).isSome ↔ (m.get q).isSome ∨ q <+: key ∧ q ≠ [] := by
  show ((m.get q).or _).isSome ↔ _
  rw [Option.isSome_or, Bool.or_eq_true]
  apply or_congr_right
  by_cases h : q <+: key ∧ q ≠ []
  · have hle := h.1.length_le
    have hpos := List.length_pos_iff.mpr h.2
    rw [if_pos h, List.getElem?_eq_getElem (by omega)]
    simp [h]
  · rw [if_neg h]
    simp [h]

theorem matchedFrom_length_le (m : PrefixMap α β) (q key : List α) :
    (m.matchedFrom q key).length ≤ key.length := by
  induction key generalizing q with
  | nil => simp [matchedFrom]
  | cons t rest ih =>
    have hle := ih (q ++ [t])
    unfold matchedFrom
    split
    · simp
    · rw [List.length_cons, List.length_cons]
      omega

theorem matchedFrom_getElem? (m : PrefixMap α β) (q key : List α) {i : Nat}
    (hi : i < (m.matchedFrom q key).length) :
    m.get (q ++ key.take (i + 1)) = (m.matchedFrom q key)[i]? := by
  induction key generalizing q i with
  | nil => simp [matchedFrom] at hi
  | cons t rest ih =>
    unfold matchedFrom at hi ⊢
    split at hi
    next => simp at hi
    next s hs =>
      cases i with
      | zero => simp [hs]
      | succ i =>
        have h := ih (q ++ [t]) (i := i) (by simpa using hi)
        rw [List.append_assoc] at h
        exact h

/-- The walk stops at the longest prefix. -/
theorem matchedFrom_stop {t : α} (ht : key[(m.matchedFrom q key).length]? = some t) :
    m.get (q ++ key.take (m.matchedFrom q key).length ++ [t]) = none := by
  induction key generalizing q with
  | nil => simp at ht
  | cons u rest ih =>
    unfold matchedFrom at ht ⊢
    split at ht
    next h =>
      simp only [List.length_nil, List.getElem?_cons_zero, Option.some.injEq] at ht
      simpa [← ht] using h
    next s hs =>
      have h := ih (q := q ++ [u]) (by simpa using ht)
      simpa using h

/-- A prefix of the key is in the map if and only if it is no longer than the match. -/
theorem matched_longest (m : PrefixMap α β) {n : Nat} (hn : n ≤ key.length) :
    (m.get (key.take n)).isSome ↔ 0 < n ∧ n ≤ (m.matched key).length := by
  have hlen := m.matchedFrom_length_le [] key
  constructor
  · intro h
    have hpos : 0 < n := by
      by_contra h0
      obtain rfl : n = 0 := by omega
      rw [List.take_zero, m.get_nil] at h
      simp at h
    refine ⟨hpos, ?_⟩
    by_contra hlt
    -- a longer prefix would put the first missing one into the map
    have hdown : ∀ d, (m.matched key).length + 1 + d ≤ key.length →
        (m.get (key.take ((m.matched key).length + 1 + d))).isSome →
        (m.get (key.take ((m.matched key).length + 1))).isSome := by
      intro d
      induction d with
      | zero => exact fun _ h => h
      | succ d ih =>
        intro hd hs
        apply ih (by omega)
        rw [← Nat.add_assoc, List.take_add_one,
          List.getElem?_eq_getElem (by omega), Option.toList_some] at hs
        refine m.closed _ _ ?_ hs
        rw [← List.length_pos_iff, List.length_take]
        omega
    have hn' : n = (m.matched key).length + 1 + (n - (m.matched key).length - 1) := by omega
    rw [hn'] at h
    have hs := hdown _ (by omega) h
    have hidx : (m.matched key).length < key.length := by omega
    have hnone := matchedFrom_stop (q := []) (List.getElem?_eq_getElem hidx)
    rw [List.nil_append] at hnone
    rw [List.take_add_one, List.getElem?_eq_getElem hidx, Option.toList_some] at hs
    unfold matched at hs hnone
    rw [hnone] at hs
    simp at hs
  · rintro ⟨hpos, hle⟩
    have h := matchedFrom_getElem? m [] key (i := n - 1) (by
      unfold matched at hle
      omega)
    rw [List.nil_append, Nat.sub_add_cancel hpos] at h
    unfold matched at hle
    rw [h, List.getElem?_eq_getElem (by omega)]
    rfl

/-- How to find the match: by its values and the missing prefix after it. -/
theorem matched_eq (hle : found.length ≤ key.length)
    (hval : ∀ i, i < found.length → m.get (key.take (i + 1)) = found[i]?)
    (hstop : ∀ t, key[found.length]? = some t → m.get (key.take found.length ++ [t]) = none) :
    m.matched key = found := by
  have hmain : ∀ (rest : List α) (q : List α) (found : List β), found.length ≤ rest.length →
      (∀ i, i < found.length → m.get (q ++ rest.take (i + 1)) = found[i]?) →
      (∀ t, rest[found.length]? = some t → m.get (q ++ rest.take found.length ++ [t]) = none) →
      m.matchedFrom q rest = found := by
    intro rest
    induction rest with
    | nil =>
      intro q found hle _ _
      rw [List.length_nil, Nat.le_zero, List.length_eq_zero_iff] at hle
      rw [hle, matchedFrom]
    | cons t rest ih =>
      intro q found hle hval hstop
      unfold matchedFrom
      cases found with
      | nil =>
        have h := hstop t rfl
        rw [List.length_nil, List.take_zero, List.append_nil] at h
        rw [h]
      | cons s found =>
        have hs := hval 0 (by simp)
        rw [List.getElem?_cons_zero] at hs
        have hs' : m.get (q ++ [t]) = some s := by simpa using hs
        rw [hs']
        simp only [List.cons.injEq, true_and]
        apply ih
        · simpa using hle
        · intro i hi
          have h := hval (i + 1) (by simpa using hi)
          simpa using h
        · intro u hu
          have h := hstop u (by simpa using hu)
          simpa using h
  exact hmain key [] found hle (by simpa using hval) (by simpa using hstop)

end PrefixMap

end FastPP
