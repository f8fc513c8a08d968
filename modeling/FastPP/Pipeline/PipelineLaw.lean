import FastPP.Pipeline.NetworkRuns
import Mathlib.Data.Fintype.EquivFin

namespace FastPP.Pipeline

variable {E : Engine} {C : Settings E} {bound : Nat → Nat}

/-- The ranks after `n` polls, where a polled rank acts unless it waits. -/
def Net.run (C : Settings E) (poll : Nat → Fin C.ppSize) : Nat → Net E :=
  Polled.run (Net.move C) (Net.init C) poll

theorem run_agrees (hC : Sound C bound) (poll : Nat → Fin C.ppSize) (n : Nat) :
    ∀ r < C.ppSize, Agrees C bound r (Net.run C poll n r) :=
  Polled.run_keeps (fun r _ => agrees_init C bound r) (fun _ _ _ hS h => move_agrees hC hS h) n

/-- The stages order the actions of all ranks, so that no two of them wait for each other. -/
theorem clocked (hC : Sound C bound) :
    Polled.Clocked (Net.move C) (fun S => ∀ r < C.ppSize, Agrees C bound r (S r))
      (fun r S => (S r).clock C.ppSize r) where
  keeps _ _ _ hS h := move_agrees hC hS h
  advance r S S' _ h := by
    obtain ⟨R, hR, rfl⟩ := Option.map_eq_some_iff.mp h
    rw [Function.update_self]
    exact act_advance hR r.isLt
  frame r q S S' _ h hne := by
    obtain ⟨R, -, rfl⟩ := Option.map_eq_some_iff.mp h
    rw [Function.update_of_ne fun heq => hne (Fin.ext heq)]
  enabled r S hS hmin := by
    have hact := act_of_min hC hS r.isLt fun q hq => hmin ⟨q, hq⟩
    rw [Net.move, Option.isSome_map]
    exact hact

/-- The steps that the clock of a rank has passed. -/
theorem steps_of_clock {m p r : Nat} {R : Rank E} (hr : r < p)
    (h : (m + 2 * p) * (2 * p + 3) ≤ R.clock p r) : m ≤ R.steps - (p - 1 - r) := by
  have hlt := R.phase.weight_lt p r
  unfold Rank.clock at h
  by_contra hsmall
  have hmul := Nat.mul_le_mul_right (2 * p + 3) (show R.steps + r + 1 ≤ m + 2 * p by omega)
  have hsucc := Nat.succ_mul (R.steps + r) (2 * p + 3)
  rw [Nat.succ_eq_add_one] at hsucc
  omega

theorem results_prefix (dispatch : Dispatch E) {m n : Nat} (h : m ≤ n) :
    (reference dispatch m).results <+: (reference dispatch n).results := by
  rw [reference_results, reference_results]
  exact StepLog.made_le _ h

/-- In every interleaving of the ranks each of them processes the results of one worker that
runs all layers on one batch after the other, and holds its keys and values. -/
theorem pipeline_refines (hC : Sound C bound) (poll : Nat → Fin C.ppSize) (n r : Nat)
    (hr : r < C.ppSize) :
    (Net.run C poll n r).processed =
        (reference C.dispatch ((Net.run C poll n r).steps - (C.ppSize - 1 - r))).results ∧
      ∀ i, bound r ≤ i → i < bound (r + 1) →
        (Net.run C poll n r).kv (bufferOf (layerNum E.numHiddenLayers C.ppSize) i) =
          (reference C.dispatch (Net.run C poll n r).forwarded).kv i := by
  have h := run_agrees hC poll n r hr
  refine ⟨by rw [h.processed, reference_results], fun i hi hi' => h.kv i ?_⟩
  exact List.mem_range'_1.mpr ⟨hi, by omega⟩

/-- The ranks never all wait, and where each is polled again and again, all of them come to
process every result, whatever number of tensors a link holds. -/
theorem pipeline_completes (hC : Sound C bound) (poll : Nat → Fin C.ppSize) :
    (∀ n, ∃ r, (Net.move C r (Net.run C poll n)).isSome) ∧
      (Polled.Fair poll → ∀ m, ∃ n, ∀ r < C.ppSize,
        (reference C.dispatch m).results <+: (Net.run C poll n r).processed) := by
  have hstart : ∀ r < C.ppSize, Agrees C bound r (Net.init C r) := fun r _ => agrees_init C bound r
  constructor
  · intro n
    have : Nonempty (Fin C.ppSize) := ⟨⟨0, hC.pos⟩⟩
    exact (clocked hC).someone_moves (run_agrees hC poll n)
  · intro hfair m
    obtain ⟨n, hn⟩ := (clocked hC).clock_unbounded hstart hfair
      ((m + 2 * C.ppSize) * (2 * C.ppSize + 3))
    refine ⟨n, fun r hr => ?_⟩
    have hsteps := steps_of_clock hr (hn ⟨r, hr⟩)
    have h := run_agrees hC poll n r hr
    rw [h.processed, ← reference_results]
    exact results_prefix C.dispatch hsteps

/-- A model of two layers that count what they have seen. -/
def countEngine : Engine where
  Batch := Nat
  Row := Nat
  Kv := Nat
  Rng := Nat
  Ids := Nat
  forwards _ := true
  numTokens _ := 1
  embedTokens batch := ⟨[batch], rfl⟩
  numHiddenLayers := 2
  layer i _ kv act := (kv + i + 1, act.hiddenStates.map (· + kv), act.hiddenStates)
  sample _ act rng := (rng + 1, act.hiddenStates.toList.sum + rng)
  fill _ := 0
  emptyKv := 0
  seed := 0

/-- A batch for two of three steps, made of the results that are two steps old. -/
def sumDispatch (t : Nat) (results : List (Nat × Nat)) : Option Nat :=
  if t % 3 = 2 then none
  else some (((results.filter fun x => decide (x.1 + 2 ≤ t)).map Prod.snd).sum + t)

/-- Two ranks without room on their link. -/
def twoRanks : Settings countEngine where
  ppSize := 2
  ppIndices := getPpIndices none
  depth := 0
  dispatch := sumDispatch

/-- The two ranks polled in turn. -/
def inTurn (n : Nat) : Fin twoRanks.ppSize := ⟨n % 2, Nat.mod_lt n Nat.two_pos⟩

theorem inTurn_fair : Polled.Fair inTurn := by
  intro i n
  have hi : i.val < 2 := i.isLt
  refine ⟨2 * n + i.val, by omega, Fin.ext ?_⟩
  show (2 * n + i.val) % 2 = i.val
  omega

theorem sumDispatch_timely (t : Nat) (results : List (Nat × Nat)) :
    sumDispatch t results =
      sumDispatch t (results.filter fun x => decide (x.1 + 2 ≤ t)) := by
  unfold sumDispatch
  rw [List.filter_filter]
  simp only [Bool.and_self]

theorem twoRanks_sound :
    Sound twoRanks fun r => if r = 2 then 2 else r * (2 / 2) where
  pos := Nat.two_pos
  splits := splits_default Nat.two_pos
  distinct r hr := (distinctBuffers_iff_length _ _ _ _).mpr (by
    have hr' : r < 2 := hr
    rcases (show r = 0 ∨ r = 1 by omega) with rfl | rfl <;> decide)
  firstLayer _ := by decide
  forwards _ _ _ _ := rfl
  timely := sumDispatch_timely

theorem pipeline_refines_twoRanks :
    (Net.run twoRanks inTurn 60 0).processed =
      (reference twoRanks.dispatch
        ((Net.run twoRanks inTurn 60 0).steps - (twoRanks.ppSize - 1 - 0))).results :=
  (pipeline_refines twoRanks_sound inTurn 60 0 Nat.two_pos).1

theorem pipeline_completes_twoRanks :
    ∃ n, ∀ r < twoRanks.ppSize, (reference twoRanks.dispatch 9).results <+:
      (Net.run twoRanks inTurn n r).processed :=
  (pipeline_completes twoRanks_sound inTurn).2 inTurn_fair 9

end FastPP.Pipeline
