import Mathlib.Data.Fintype.Card
import Mathlib.Data.Fintype.Lattice
import Mathlib.Tactic.Common

/-! Runs of processes that are polled in any order, where a process that waits is passed over. -/

namespace Polled

variable {σ ι : Type*}

/-- The states of a run in which `poll n` is the process polled at time `n`. -/
def run (move : ι → σ → Option σ) (start : σ) (poll : ℕ → ι) : ℕ → σ
  | 0 => start
  | n + 1 => (move (poll n) (run move start poll n)).getD (run move start poll n)

/-- Every process is polled again and again. -/
def Fair (poll : ℕ → ι) : Prop :=
  ∀ i n, ∃ m, n ≤ m ∧ poll m = i

variable {move : ι → σ → Option σ} {start : σ} {poll : ℕ → ι}

/-- What holds at the start and is kept by every move holds along every run. -/
theorem run_keeps {P : σ → Prop} (init : P start)
    (step : ∀ i s s', P s → move i s = some s' → P s') (n : ℕ) : P (run move start poll n) := by
  induction n with
  | zero => exact init
  | succ n ih =>
    rw [run]
    cases h : move (poll n) (run move start poll n) with
    | none => exact ih
    | some s' => exact step _ _ _ ih h

/-- Every process has a clock that its own moves advance and the moves of the others leave
alone, and a process that no other is behind of can move. -/
structure Clocked (move : ι → σ → Option σ) (P : σ → Prop) (clock : ι → σ → ℕ) : Prop where
  keeps : ∀ i s s', P s → move i s = some s' → P s'
  advance : ∀ i s s', P s → move i s = some s' → clock i s < clock i s'
  frame : ∀ i j s s', P s → move i s = some s' → j ≠ i → clock j s' = clock j s
  enabled : ∀ i s, P s → (∀ j, clock i s ≤ clock j s) → (move i s).isSome

variable {P : σ → Prop} {clock : ι → σ → ℕ}

/-- Somebody can move in every state. -/
theorem Clocked.someone_moves [Finite ι] [Nonempty ι] (h : Clocked move P clock) {s : σ}
    (hs : P s) : ∃ i, (move i s).isSome := by
  obtain ⟨i, hi⟩ := Finite.exists_min fun i => clock i s
  exact ⟨i, h.enabled i s hs hi⟩

theorem Clocked.clock_step (h : Clocked move P clock) (hs : P start) (i : ι) (n : ℕ) :
    clock i (run move start poll n) ≤ clock i (run move start poll (n + 1)) := by
  have hP : P (run move start poll n) := run_keeps hs h.keeps n
  rw [run]
  cases hm : move (poll n) (run move start poll n) with
  | none => exact le_rfl
  | some s' =>
    by_cases hi : i = poll n
    · subst hi
      exact (h.advance _ _ _ hP hm).le
    · exact (h.frame _ _ _ _ hP hm hi).ge

theorem Clocked.clock_mono (h : Clocked move P clock) (hs : P start) (i : ι) {m n : ℕ}
    (hmn : m ≤ n) : clock i (run move start poll m) ≤ clock i (run move start poll n) :=
  monotone_nat_of_le_succ (h.clock_step hs i) hmn

/-- A process that no other is behind of gets past its clock when it is polled. -/
theorem Clocked.passes (h : Clocked move P clock) (hs : P start) {i : ι} {n : ℕ}
    (hmin : ∀ j, clock i (run move start poll n) ≤ clock j (run move start poll n))
    (hpoll : poll n = i) :
    clock i (run move start poll n) < clock i (run move start poll (n + 1)) := by
  have hP : P (run move start poll n) := run_keeps hs h.keeps n
  obtain ⟨s', hm⟩ := Option.isSome_iff_exists.mp (h.enabled i _ hP hmin)
  rw [run, hpoll, hm]
  exact h.advance _ _ _ hP hm

/-- Each process at the lowest clock leaves it, one after another. -/
theorem Clocked.all_pass [Fintype ι] [DecidableEq ι] (h : Clocked move P clock) (hs : P start)
    (hfair : Fair poll) (c k : ℕ) :
    ∀ n, (∀ i, c ≤ clock i (run move start poll n)) →
      (Finset.univ.filter fun i => clock i (run move start poll n) = c).card ≤ k →
      ∃ m, n ≤ m ∧ ∀ i, c + 1 ≤ clock i (run move start poll m) := by
  induction k with
  | zero =>
    intro n hlow hcard
    refine ⟨n, le_rfl, fun i => ?_⟩
    have hempty := Finset.card_eq_zero.mp (Nat.le_zero.mp hcard)
    have hne : clock i (run move start poll n) ≠ c := fun he =>
      Finset.notMem_empty i (hempty ▸ Finset.mem_filter.mpr ⟨Finset.mem_univ i, he⟩)
    have := hlow i
    omega
  | succ k ih =>
    intro n hlow hcard
    by_cases hany : ∃ i, clock i (run move start poll n) = c
    · obtain ⟨i, hi⟩ := hany
      obtain ⟨m, hnm, hm⟩ := hfair i n
      have hlowm : ∀ j, c ≤ clock j (run move start poll m) := fun j =>
        (hlow j).trans (h.clock_mono hs j hnm)
      have hlowm' : ∀ j, c ≤ clock j (run move start poll (m + 1)) := fun j =>
        (hlowm j).trans (h.clock_step hs j m)
      -- process `i` is past `c` after time `m`, whether it was so before or moves now
      have hpast : c < clock i (run move start poll (m + 1)) := by
        by_cases him : clock i (run move start poll m) = c
        · have hmin : ∀ j, clock i (run move start poll m) ≤ clock j (run move start poll m) :=
            fun j => him ▸ hlowm j
          exact him ▸ h.passes hs hmin hm
        · have h1 := hlowm i
          have h2 : clock i (run move start poll m) ≤ clock i (run move start poll (m + 1)) :=
            h.clock_step hs i m
          omega
      have hsub : (Finset.univ.filter fun j => clock j (run move start poll (m + 1)) = c) ⊂
          (Finset.univ.filter fun j => clock j (run move start poll n) = c) := by
        refine Finset.ssubset_iff_of_subset (fun j hj => ?_) |>.mpr ⟨i, ?_, ?_⟩
        · have hjc := (Finset.mem_filter.mp hj).2
          have h1 := hlow j
          have h2 : clock j (run move start poll n) ≤ clock j (run move start poll (m + 1)) :=
            h.clock_mono hs j (by omega)
          exact Finset.mem_filter.mpr ⟨Finset.mem_univ j, by omega⟩
        · exact Finset.mem_filter.mpr ⟨Finset.mem_univ i, hi⟩
        · intro hmem
          have := (Finset.mem_filter.mp hmem).2
          omega
      have hlt := Finset.card_lt_card hsub
      obtain ⟨m', hm', hall⟩ := ih (m + 1) hlowm' (by omega)
      exact ⟨m', by omega, hall⟩
    · refine ⟨n, le_rfl, fun i => ?_⟩
      have h1 := hlow i
      have h2 : clock i (run move start poll n) ≠ c := fun he => hany ⟨i, he⟩
      omega

/-- In a fair run every clock passes every bound. -/
theorem Clocked.clock_unbounded [Finite ι] (h : Clocked move P clock) (hs : P start)
    (hfair : Fair poll) (c : ℕ) : ∃ n, ∀ i, c ≤ clock i (run move start poll n) := by
  classical
  cases nonempty_fintype ι
  induction c with
  | zero => exact ⟨0, fun _ => Nat.zero_le _⟩
  | succ c ih =>
    obtain ⟨n, hn⟩ := ih
    obtain ⟨m, -, hm⟩ := h.all_pass hs hfair c _ n hn le_rfl
    exact ⟨m, hm⟩

end Polled
