import Mathlib.Data.List.Chain
import Mathlib.Data.List.Range
import Mathlib.Algebra.BigOperators.Group.List.Basic
import Mathlib.Algebra.Ring.Nat

/-! Half-open spans of positions that follow each other without a gap. -/

namespace Spans

structure Span where
  start : Nat
  stop : Nat
  deriving DecidableEq

/-- The positions of a span, in order. -/
def Span.cells (s : Span) : List Nat := List.range' s.start (s.stop - s.start)

/-- Each span starts where the one before it stops. -/
def Joined (spans : List Span) : Prop := spans.IsChain fun s t => s.stop = t.start

theorem Joined.start_le {s last : Span} {spans : List Span} (h : Joined (s :: spans))
    (hle : ∀ t ∈ s :: spans, t.start ≤ t.stop) (hlast : (s :: spans).getLast? = some last) :
    s.start ≤ last.stop := by
  induction spans generalizing s with
  | nil =>
    obtain rfl : s = last := by simpa using hlast
    exact hle s (by simp)
  | cons t spans ih =>
    obtain ⟨hst, hrest⟩ := List.isChain_cons_cons.mp h
    rw [List.getLast?_cons_cons] at hlast
    have hnext := ih hrest (fun u hu => hle u (List.mem_cons_of_mem s hu)) hlast
    have hs := hle s (by simp)
    omega

/-- Joined spans cover the positions from the first start to the last stop, each of them once
and in order. -/
theorem Joined.cells {s last : Span} {spans : List Span} (h : Joined (s :: spans))
    (hle : ∀ t ∈ s :: spans, t.start ≤ t.stop) (hlast : (s :: spans).getLast? = some last) :
    (s :: spans).flatMap Span.cells = List.range' s.start (last.stop - s.start) := by
  induction spans generalizing s with
  | nil =>
    obtain rfl : s = last := by simpa using hlast
    simp [Span.cells]
  | cons t spans ih =>
    obtain ⟨hst, hrest⟩ := List.isChain_cons_cons.mp h
    rw [List.getLast?_cons_cons] at hlast
    have hle' : ∀ u ∈ t :: spans, u.start ≤ u.stop := fun u hu =>
      hle u (List.mem_cons_of_mem s hu)
    have hs := hle s (by simp)
    have hnext := Joined.start_le hrest hle' hlast
    have hstart : t.start = s.start + (s.stop - s.start) := by omega
    rw [List.flatMap_cons, ih hrest hle' hlast, Span.cells, hstart, List.range'_append_1]
    congr 1
    omega

end Spans

/-! Segments laid out one after another, each with one more entry at its end. -/

namespace Segments

variable {α β γ : Type*}

/-- Each segment with its last entry. -/
def closed (segments : List (List α)) (lasts : List α) : List (List α) :=
  List.zipWith (fun segment last => segment ++ [last]) segments lasts

/-- Where segment `i` begins. -/
def offset (segments : List (List α)) (i : Nat) : Nat :=
  ((segments.take i).map fun segment => segment.length + 1).sum

theorem offset_zero (segments : List (List α)) : offset segments 0 = 0 := rfl

theorem offset_cons (segment : List α) (segments : List (List α)) (i : Nat) :
    offset (segment :: segments) (i + 1) = segment.length + 1 + offset segments i := by
  unfold offset
  rw [List.take_succ_cons, List.map_cons, List.sum_cons]

/-- A segment is found at its offset. -/
theorem take_drop_offset {segments : List (List α)} {lasts : List α}
    (hlen : lasts.length = segments.length) {i : Nat} (hi : i < segments.length) :
    ((closed segments lasts).flatten.drop (offset segments i)).take segments[i].length =
      segments[i] := by
  induction segments generalizing lasts i with
  | nil => cases hi
  | cons segment segments ih =>
    cases lasts with
    | nil => cases hlen
    | cons last lasts =>
      have hlen' : lasts.length = segments.length := by simpa using hlen
      unfold closed
      rw [List.zipWith_cons_cons, List.flatten_cons]
      cases i with
      | zero =>
        rw [offset_zero, List.drop_zero, List.append_assoc]
        exact List.take_left
      | succ i =>
        have hat : offset (segment :: segments) (i + 1) =
            (segment ++ [last]).length + offset segments i := by
          rw [offset_cons, List.length_append, List.length_singleton]
        rw [hat, List.drop_append, List.drop_of_length_le (by omega), List.nil_append,
          Nat.add_sub_cancel_left]
        exact ih hlen' (by simpa using hi)

theorem closed_length {segments : List (List α)} {lasts : List α}
    (hlen : lasts.length = segments.length) :
    (closed segments lasts).flatten.length =
      (segments.map fun segment => segment.length + 1).sum := by
  induction segments generalizing lasts with
  | nil => rfl
  | cons segment segments ih =>
    cases lasts with
    | nil => cases hlen
    | cons last lasts =>
      have hlen' : lasts.length = segments.length := by simpa using hlen
      unfold closed
      rw [List.zipWith_cons_cons, List.flatten_cons, List.length_append, List.length_append,
        List.map_cons, List.sum_cons, List.length_singleton]
      congr 1
      exact ih hlen'

/-- Two lists of blocks read with the second one shifted by one: the blocks stay apart, but for
the last entry of each. -/
theorem zipWith_shift {f : α → β → γ} {xs xs' : List α} {ys ys' : List β} {z : β}
    (hlen : xs.length = ys.length) (hne : ys ≠ []) (hlen' : xs'.length = ys'.length) :
    ∃ last, List.zipWith f (xs ++ xs') ((ys ++ ys').tail ++ [z]) =
      List.zipWith f xs ys.tail ++ [last] ++ List.zipWith f xs' (ys'.tail ++ [z]) := by
  obtain ⟨y, ys, rfl⟩ := List.exists_cons_of_ne_nil hne
  have hne' : xs ≠ [] := by
    intro h
    rw [h] at hlen
    cases hlen
  obtain ⟨init, x, rfl⟩ := xs.eq_nil_or_concat.resolve_left hne'
  have hinit : init.length = ys.length := by simpa using hlen
  have hcut : List.zipWith f (init ++ [x]) ys = List.zipWith f init ys := by
    rw [← List.append_nil ys, List.zipWith_append hinit, List.zipWith_nil_right, List.append_nil,
      List.append_nil]
  cases ys' with
  | nil =>
    have hnil : xs' = [] := List.eq_nil_of_length_eq_zero hlen'
    subst hnil
    refine ⟨f x z, ?_⟩
    simp only [List.concat_eq_append, List.append_nil, List.tail_cons, List.zipWith_nil_left, hcut]
    rw [List.zipWith_append hinit]
    rfl
  | cons y' ys' =>
    refine ⟨f x y', ?_⟩
    simp only [List.concat_eq_append, List.cons_append, List.tail_cons, List.append_assoc, hcut]
    rw [List.zipWith_append hinit]
    rfl

end Segments
