import FastPP.Controller.Alp
import Mathlib.Data.List.Sort

namespace FastPP

namespace AlpQuery

variable {Q : AlpQuery} {candidateChunks done rest : List Nat} {lastSafeChunk : Option Nat}
  {chunk c : Nat}

/-- What the loop has found out when it has passed the candidates in `done`. -/
structure Passed (Q : AlpQuery) (candidateChunks done rest : List Nat)
    (lastSafeChunk : Option Nat) : Prop where
  mem : ∀ c, c ∈ candidateChunks ↔ c ∈ done ∨ c ∈ rest
  below : ∀ d ∈ done, ∀ c ∈ rest, d ≤ c
  sorted : rest.Pairwise (· ≤ ·)
  quiet : ∀ d ∈ done, Q.Within d ∧ ¬ Q.Enough d
  last : (lastSafeChunk = none ∧ done = []) ∨
    ∃ c, lastSafeChunk = some c ∧ IsGreatest { d | d ∈ done } c

/-- What each outcome of the search says. -/
def Outcome (Q : AlpQuery) (candidateChunks : List Nat) : AlpSelection → Prop
  | .missing => Q.Missing candidateChunks
  | .chosen chunk reason =>
    ¬ Q.Missing candidateChunks ∧ Q.EagerChoice candidateChunks chunk reason
  | .valueError => False

theorem Within.predicted (h : Q.Within chunk) : Q.predict chunk ≠ none := by
  obtain ⟨rawPred, hpred, _⟩ := h
  intro hnone
  exact absurd (hpred.symm.trans hnone) (Option.some_ne_none rawPred)

namespace Passed

theorem start (Q : AlpQuery) (candidateChunks : List Nat) :
    Q.Passed candidateChunks [] (candidateChunks.mergeSort (· ≤ ·)) none where
  mem c := by simp
  below d hd := (nomatch hd)
  sorted := by
    have htrans : ∀ a b c : Nat, decide (a ≤ b) → decide (b ≤ c) → decide (a ≤ c) := by
      intro a b c hab hbc
      simp only [decide_eq_true_eq] at hab hbc ⊢
      omega
    have htotal : ∀ a b : Nat, decide (a ≤ b) || decide (b ≤ a) := by
      intro a b
      simp only [Bool.or_eq_true, decide_eq_true_eq]
      omega
    exact (List.pairwise_mergeSort htrans htotal candidateChunks).imp fun h => by simpa using h
  quiet d hd := (nomatch hd)
  last := .inl ⟨rfl, rfl⟩

/-- The smaller candidates were passed. -/
theorem passed_of_lt (h : Q.Passed candidateChunks done (chunk :: rest) lastSafeChunk)
    (hc : c ∈ candidateChunks) (hlt : c < chunk) : c ∈ done := by
  rcases (h.mem c).mp hc with hdone | hrest
  · exact hdone
  · rcases List.mem_cons.mp hrest with rfl | hrest
    · omega
    · have hle := (List.pairwise_cons.mp h.sorted).1 c hrest
      omega

theorem next (h : Q.Passed candidateChunks done (chunk :: rest) lastSafeChunk)
    (hwithin : Q.Within chunk) (hfew : ¬ Q.Enough chunk) :
    Q.Passed candidateChunks (done ++ [chunk]) rest (some chunk) where
  mem c := by
    rw [h.mem c, List.mem_cons, List.mem_append, List.mem_singleton, or_assoc]
  below d hd c hc := by
    rcases List.mem_append.mp hd with hd | hd
    · exact h.below d hd c (List.mem_cons_of_mem _ hc)
    · rw [List.mem_singleton.mp hd]
      exact (List.pairwise_cons.mp h.sorted).1 c hc
  sorted := (List.pairwise_cons.mp h.sorted).2
  quiet d hd := by
    rcases List.mem_append.mp hd with hd | hd
    · exact h.quiet d hd
    · rw [List.mem_singleton.mp hd]
      exact ⟨hwithin, hfew⟩
  last := by
    refine .inr ⟨chunk, rfl, List.mem_append_right _ List.mem_cons_self, ?_⟩
    intro d hd
    rcases List.mem_append.mp hd with hd | hd
    · exact h.below d hd chunk List.mem_cons_self
    · exact (List.mem_singleton.mp hd).le

/-- Nothing is missing up to a predicted candidate that ends the search. -/
theorem not_missing (h : Q.Passed candidateChunks done (chunk :: rest) lastSafeChunk)
    (hpred : Q.predict chunk ≠ none) (hstop : ¬ (Q.Within chunk ∧ ¬ Q.Enough chunk)) :
    ¬ Q.Missing candidateChunks := by
  intro ⟨c, hc, hnone, hbefore⟩
  have hchunk : chunk ∈ candidateChunks := (h.mem chunk).mpr (.inr List.mem_cons_self)
  rcases lt_trichotomy c chunk with hlt | rfl | hlt
  · exact (h.quiet c (h.passed_of_lt hc hlt)).1.predicted hnone
  · exact hpred hnone
  · exact hstop (hbefore chunk hchunk hlt)

/-- The loop ended where nothing answers, with `done` the safe candidates. -/
theorem finish (h : Q.Passed candidateChunks done rest lastSafeChunk) (hne : candidateChunks ≠ [])
    (hmissing : ¬ Q.Missing candidateChunks) (hsafe : ∀ c ∈ Q.safe candidateChunks, c ∈ done) :
    Q.Outcome candidateChunks (AlpQuery.finish candidateChunks lastSafeChunk) := by
  rcases h.last with ⟨rfl, rfl⟩ | ⟨last, rfl, hlast⟩
  · obtain ⟨least, hleast⟩ := Option.isSome_iff_exists.mp (List.isSome_min?_of_ne_nil hne)
    have hmin := List.min?_eq_some_iff.mp hleast
    unfold AlpQuery.finish
    rw [hleast]
    refine ⟨hmissing, Set.eq_empty_of_forall_notMem fun c hc => ?_, hmin.1, fun c hc => hmin.2 c hc⟩
    exact absurd (hsafe c hc) List.not_mem_nil
  · refine ⟨hmissing, Set.eq_empty_of_forall_notMem fun c hc => ?_, ⟨?_, ?_⟩, fun c hc => ?_⟩
    · exact (h.quiet c (hsafe c hc.1)).2 hc.2
    · exact (h.mem last).mpr (.inl hlast.1)
    · intro d hd hle
      rcases (h.mem d).mp hd with hdone | hrest
      · exact (h.quiet d hdone).1
      · have hge := h.below last hlast.1 d hrest
        obtain rfl : d = last := by omega
        exact (h.quiet d hlast.1).1
    · exact hlast.2 (hsafe c hc)

/-- By induction over the candidates that are left. -/
theorem outcome (h : Q.Passed candidateChunks done rest lastSafeChunk)
    (hne : candidateChunks ≠ []) :
    Q.Outcome candidateChunks (Q.selectFrom candidateChunks lastSafeChunk rest) := by
  induction rest generalizing done lastSafeChunk with
  | nil =>
    have hdone : ∀ c ∈ candidateChunks, c ∈ done := fun c hc =>
      ((h.mem c).mp hc).resolve_right List.not_mem_nil
    refine h.finish hne ?_ fun c hc => hdone c hc.1
    intro ⟨c, hc, hnone, _⟩
    exact (h.quiet c (hdone c hc)).1.predicted hnone
  | cons chunk rest ih =>
    have hchunk : chunk ∈ candidateChunks := (h.mem chunk).mpr (.inr List.mem_cons_self)
    unfold selectFrom
    split
    next hnone =>
      exact ⟨chunk, hchunk, hnone, fun d hd hlt => h.quiet d (h.passed_of_lt hd hlt)⟩
    next rawPred hpred =>
      have hpredicted : Q.predict chunk ≠ none := by simp [hpred]
      have hunique : ∀ p ∈ Q.predict chunk, p = rawPred := fun p hp =>
        Option.some.inj (hp.symm.trans hpred)
      split
      next hslow =>
        have hout : ¬ Q.Within chunk := by
          intro ⟨p, hp, hle⟩
          rw [hunique p hp] at hle
          exact absurd hle (not_le.mpr hslow)
        refine h.finish hne (h.not_missing hpredicted fun hw => hout hw.1) fun c hc => ?_
        by_contra hnew
        have hge : chunk ≤ c := by
          by_contra hlt
          exact hnew (h.passed_of_lt hc.1 (by omega))
        exact hout (hc.2 chunk hchunk hge)
      next hfast =>
        have hwithin : Q.Within chunk := ⟨rawPred, hpred, not_lt.mp hfast⟩
        split
        next hmeets =>
          have henough : Q.Enough chunk := ⟨rawPred, hpred, hmeets⟩
          refine ⟨h.not_missing hpredicted fun hw => hw.2 henough,
            ⟨⟨hchunk, fun d hd hle => ?_⟩, henough⟩, fun c hc => ?_⟩
          · rcases Nat.lt_or_eq_of_le hle with hlt | rfl
            · exact (h.quiet d (h.passed_of_lt hd hlt)).1
            · exact hwithin
          · by_contra hlt
            exact (h.quiet c (h.passed_of_lt hc.1.1 (by omega))).2 hc.2
        next hfew =>
          refine ih (h.next hwithin fun henough => hfew ?_)
          obtain ⟨p, hp, hle⟩ := henough
          rwa [hunique p hp] at hle

end Passed

/-- The lazy search is the eager choice: it misses a prediction exactly if one is missing that
the choice needs, and otherwise returns the chunk that all candidates determine. -/
theorem select_eager (hne : candidateChunks ≠ []) :
    (Q.select candidateChunks = .missing ↔ Q.Missing candidateChunks) ∧
      (¬ Q.Missing candidateChunks → ∃ chunk reason,
        Q.select candidateChunks = .chosen chunk reason ∧
          Q.EagerChoice candidateChunks chunk reason) := by
  have houtcome := (Passed.start Q candidateChunks).outcome hne
  change Q.Outcome candidateChunks (Q.select candidateChunks) at houtcome
  cases hselect : Q.select candidateChunks with
  | missing =>
    rw [hselect] at houtcome
    exact ⟨⟨fun _ => houtcome, fun _ => rfl⟩, fun h => absurd houtcome h⟩
  | chosen chunk reason =>
    rw [hselect] at houtcome
    refine ⟨⟨fun h => (nomatch h), fun h => absurd h houtcome.1⟩, fun _ => ?_⟩
    exact ⟨chunk, reason, rfl, houtcome.2⟩
  | valueError =>
    rw [hselect] at houtcome
    exact houtcome.elim

end AlpQuery

/-- Every chunk is predicted to take `rawPred`. -/
def flatQuery (rawPred : Rat) : AlpQuery where
  predict := fun _ => some rawPred
  ppSize := 1
  sloTpot := 1
  requiredThroughput := (5000000000 : Rat)
  avgRunningReq := 0
  eps := 1 / 1000000000

theorem select_eager_flat : ((flatQuery 2).select [256, 128, 128] = .missing ↔
    (flatQuery 2).Missing [256, 128, 128]) ∧
      (¬ (flatQuery 2).Missing [256, 128, 128] → ∃ chunk reason,
        (flatQuery 2).select [256, 128, 128] = .chosen chunk reason ∧
          (flatQuery 2).EagerChoice [256, 128, 128] chunk reason) :=
  AlpQuery.select_eager (by decide)

/-- Chunks of one and two tokens that both take a tenth of a nanosecond: the first one has the
required throughput, but the prediction is clamped, and the second is returned for want of a
chunk that is fast enough. -/
theorem tiny_prediction_clamped :
    let Q := flatQuery (1 / 10000000000)
    (∃ rawPred ∈ Q.predict 1, rawPred * Q.ppSize ≤ Q.sloTpot ∧
      Q.requiredThroughput ≤ (max (1 - Q.avgRunningReq) 0 / rawPred : Rat)) ∧
    Q.select [1, 2] = .chosen 2 .bestEffort := by
  intro Q
  have hloop : Q.selectFrom [1, 2] none [1, 2] = .chosen 2 .bestEffort := by
    decide +kernel
  refine ⟨⟨_, rfl, by decide +kernel, by decide +kernel⟩, ?_⟩
  rw [← hloop, AlpQuery.select, List.mergeSort_of_pairwise (by decide)]

end FastPP
