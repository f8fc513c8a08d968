import Mathlib.Data.List.Basic

/-! Decoders that read one item after another and put a mark where the input stops
inside an item. -/

/-- `next` reads the first item of an input, and `none` says that the input stops
before the item is complete. -/
structure LossyDecoder (β α : Type*) where
  next : List β → Option (α × List β)
  mark : α
  shorter : ∀ {bs a rest}, next bs = some (a, rest) → rest.length < bs.length
  stable : ∀ {bs a rest} (more : List β), next bs = some (a, rest) →
    next (bs ++ more) = some (a, rest ++ more)

namespace LossyDecoder

variable {β α : Type*}

/-- The items of an input, at most `n` of them. -/
def decodeUpTo (d : LossyDecoder β α) : Nat → List β → List α
  | 0, _ => []
  | _ + 1, [] => []
  | n + 1, b :: bs =>
    match d.next (b :: bs) with
    | some (a, rest) => a :: decodeUpTo d n rest
    | none => [d.mark]

/-- The items of an input; an incomplete one at its end becomes the mark. -/
def decode (d : LossyDecoder β α) (bs : List β) : List α := d.decodeUpTo bs.length bs

/-- The input ends where an item ends. -/
inductive Whole (d : LossyDecoder β α) : List β → Prop
  | nil : Whole d []
  | cons {bs rest : List β} {a : α} : d.next bs = some (a, rest) → Whole d rest → Whole d bs

@[simp] theorem decode_nil (d : LossyDecoder β α) : d.decode [] = [] := rfl

variable {d : LossyDecoder β α} {bs more rest : List β} {a : α}

theorem decodeUpTo_eq {n : Nat} (h : bs.length ≤ n) : d.decodeUpTo n bs = d.decode bs := by
  induction n using Nat.strongRecOn generalizing bs with
  | ind n ih =>
    cases bs with
    | nil => cases n <;> rfl
    | cons b bs =>
      obtain ⟨m, rfl⟩ : ∃ m, n = m + 1 := ⟨n - 1, by simp only [List.length_cons] at h; omega⟩
      unfold decode
      simp only [List.length_cons, decodeUpTo]
      split
      next a rest hnext =>
        have hlen := d.shorter hnext
        simp only [List.length_cons] at h hlen
        rw [ih m (by omega) (by omega)]
        by_cases hm : bs.length < m + 1
        · rw [ih bs.length hm (by omega)]
        · have he : bs.length = m := by omega
          rw [he, ih m (by omega) (by omega)]
      next => rfl

theorem decode_next (h : d.next bs = some (a, rest)) : d.decode bs = a :: d.decode rest := by
  have hlen := d.shorter h
  cases bs with
  | nil => simp at hlen
  | cons b bs =>
    simp only [List.length_cons] at hlen
    show d.decodeUpTo (bs.length + 1) (b :: bs) = _
    simp only [decodeUpTo, h]
    rw [decodeUpTo_eq (by omega)]

theorem decode_short (hbs : bs ≠ []) (h : d.next bs = none) : d.decode bs = [d.mark] := by
  cases bs with
  | nil => exact absurd rfl hbs
  | cons b bs =>
    show d.decodeUpTo (bs.length + 1) (b :: bs) = _
    simp [decodeUpTo, h]

theorem decode_ne_nil (h : bs ≠ []) : d.decode bs ≠ [] := by
  cases hnext : d.next bs with
  | none => simp [decode_short h hnext]
  | some r =>
    obtain ⟨a, rest⟩ := r
    simp [decode_next hnext]

/-- A complete input is decoded on its own, whatever follows. -/
theorem Whole.decode_append (h : d.Whole bs) (more : List β) :
    d.decode (bs ++ more) = d.decode bs ++ d.decode more := by
  induction h with
  | nil => simp
  | cons hnext _ ih => rw [decode_next (d.stable more hnext), decode_next hnext, ih,
      List.cons_append]

theorem Whole.append (h : d.Whole bs) (hmore : d.Whole more) : d.Whole (bs ++ more) := by
  induction h with
  | nil => exact hmore
  | cons hnext _ ih => exact .cons (d.stable more hnext) ih

/-- What follows a complete part of a complete input is complete. -/
theorem Whole.remainder (h : d.Whole bs) (happ : d.Whole (bs ++ more)) : d.Whole more := by
  induction h with
  | nil => exact happ
  | @cons bs rest a hnext _ ih =>
    apply ih
    have hnext' := d.stable more hnext
    generalize bs ++ more = input at happ hnext'
    cases happ with
    | nil => exact absurd (d.shorter hnext') (by simp)
    | cons hnext'' hrest =>
      rw [hnext'] at hnext''
      cases hnext''
      exact hrest

/-- An input whose last item is not the mark is complete. -/
theorem whole_of_getLast? (h : (d.decode bs).getLast? ≠ some d.mark) : d.Whole bs := by
  induction hn : bs.length using Nat.strongRecOn generalizing bs with
  | ind n ih =>
    by_cases hbs : bs = []
    · subst hbs
      exact .nil
    · cases hnext : d.next bs with
      | none => simp [decode_short hbs hnext] at h
      | some r =>
        obtain ⟨a, rest⟩ := r
        have hlen := d.shorter hnext
        apply Whole.cons hnext
        by_cases hrest : rest = []
        · subst hrest
          exact .nil
        · apply ih rest.length (by omega) _ rfl
          intro hlast
          apply h
          rw [decode_next hnext, List.getLast?_cons_of_ne_nil (decode_ne_nil hrest), hlast]

end LossyDecoder

/-! UTF-8 as a lossy decoder: a maximal part of an ill-formed sequence becomes one
replacement character, and so does an incomplete sequence at the end. -/

namespace Utf8

/-- U+FFFD. -/
def replacement : Char := Char.ofNat 0xFFFD

/-- The `n` further bytes of a character, of which the next lies from `lo` to `hi`;
`acc` holds the bits read so far. -/
def tail : Nat → Nat → UInt8 → UInt8 → List UInt8 → Option (Char × List UInt8)
  | 0, acc, _, _, bs => some (Char.ofNat acc, bs)
  | _ + 1, _, _, _, [] => none
  | n + 1, acc, lo, hi, b :: bs =>
    if lo ≤ b ∧ b ≤ hi then tail n (acc * 64 + b.toNat % 64) 0x80 0xBF bs
    else some (replacement, b :: bs)

/-- A first byte: how many bytes follow it, its own bits, and the range of the next
byte. -/
def lead (b : UInt8) : Option (Nat × Nat × UInt8 × UInt8) :=
  if b ≤ 0x7F then some (0, b.toNat, 0x80, 0xBF)
  else if 0xC2 ≤ b ∧ b ≤ 0xDF then some (1, b.toNat % 32, 0x80, 0xBF)
  else if b = 0xE0 then some (2, 0, 0xA0, 0xBF)
  else if b = 0xED then some (2, 13, 0x80, 0x9F)
  else if 0xE1 ≤ b ∧ b ≤ 0xEF then some (2, b.toNat % 16, 0x80, 0xBF)
  else if b = 0xF0 then some (3, 0, 0x90, 0xBF)
  else if 0xF1 ≤ b ∧ b ≤ 0xF3 then some (3, b.toNat % 8, 0x80, 0xBF)
  else if b = 0xF4 then some (3, 4, 0x80, 0x8F)
  else none

/-- The first character of a byte sequence. -/
def next : List UInt8 → Option (Char × List UInt8)
  | [] => none
  | b :: bs =>
    match lead b with
    | some (n, acc, lo, hi) => tail n acc lo hi bs
    | none => some (replacement, bs)

variable {n acc : Nat} {lo hi : UInt8} {bs rest : List UInt8} {c : Char}

theorem tail_length_le (h : tail n acc lo hi bs = some (c, rest)) :
    rest.length ≤ bs.length := by
  induction n generalizing acc lo hi bs with
  | zero =>
    cases h
    exact Nat.le_refl _
  | succ n ih =>
    cases bs with
    | nil => cases h
    | cons b bs =>
      unfold tail at h
      split at h
      next =>
        have hle := ih h
        simp only [List.length_cons]
        omega
      next =>
        cases h
        exact Nat.le_refl _

theorem tail_stable (more : List UInt8) (h : tail n acc lo hi bs = some (c, rest)) :
    tail n acc lo hi (bs ++ more) = some (c, rest ++ more) := by
  induction n generalizing acc lo hi bs with
  | zero =>
    cases h
    rfl
  | succ n ih =>
    cases bs with
    | nil => cases h
    | cons b bs =>
      unfold tail at h
      rw [List.cons_append]
      unfold tail
      split at h
      next hb =>
        rw [if_pos hb]
        exact ih h
      next hb =>
        cases h
        rw [if_neg hb]
        rfl

theorem next_shorter (h : next bs = some (c, rest)) : rest.length < bs.length := by
  cases bs with
  | nil => cases h
  | cons b bs =>
    simp only [List.length_cons]
    unfold next at h
    cases hlead : lead b with
    | none =>
      simp only [hlead] at h
      cases h
      omega
    | some l =>
      simp only [hlead] at h
      have hle := tail_length_le h
      omega

theorem next_stable (more : List UInt8) (h : next bs = some (c, rest)) :
    next (bs ++ more) = some (c, rest ++ more) := by
  cases bs with
  | nil => cases h
  | cons b bs =>
    unfold next at h
    rw [List.cons_append]
    unfold next
    cases hlead : lead b with
    | none =>
      simp only [hlead] at h ⊢
      cases h
      rfl
    | some l =>
      simp only [hlead] at h ⊢
      exact tail_stable more h

/-- The decoder of byte sequences. -/
def decoder : LossyDecoder UInt8 Char where
  next := next
  mark := replacement
  shorter := next_shorter
  stable := next_stable

example : decoder.decode [0x61, 0xE4, 0xBD, 0xA0, 0xE4, 0xBD] = ['a', '你', replacement] := by
  decide

end Utf8
