import FastPP.Lib.FairRuns
import FastPP.Pipeline.NetworkSteps

namespace FastPP.Pipeline

open StepLog

variable {E : Engine} {C : Settings E} {bound : Nat → Nat} {r : Nat}

/-- The place of an action inside the stage `steps + r`, which the ranks of one wavefront
share: the later ranks receive first, then the last one broadcasts. -/
def Phase.weight (ppSize r : Nat) : Phase E → Nat
  | .top => 2 * (ppSize - 1 - r)
  | .running .. => 2 * (ppSize - 1 - r) + 1
  | .exchanging .. => if r + 1 = ppSize then 2 * ppSize else 2 * ppSize + 1
  | .sending .. => 2 * ppSize + 2

def Rank.clock (ppSize r : Nat) (R : Rank E) : Nat :=
  (R.steps + r) * (2 * ppSize + 3) + R.phase.weight ppSize r

theorem Phase.weight_lt (ppSize r : Nat) (phase : Phase E) :
    phase.weight ppSize r < 2 * ppSize + 3 := by
  cases phase with
  | top => simp only [weight]; omega
  | running => simp only [weight]; omega
  | exchanging => simp only [weight]; split <;> omega
  | sending => simp only [weight]; omega

/-- A rank that is not ahead is at an earlier stage, or at an earlier place in its stage. -/
theorem Rank.stage_le {p q : Nat} {R Q : Rank E} (h : R.clock p r ≤ Q.clock p q) :
    R.steps + r ≤ Q.steps + q ∧
      (R.steps + r = Q.steps + q → R.phase.weight p r ≤ Q.phase.weight p q) := by
  unfold Rank.clock at h
  have hR := R.phase.weight_lt p r
  have hQ := Q.phase.weight_lt p q
  constructor
  · by_contra hlt
    have hmul := Nat.mul_le_mul_right (2 * p + 3) (show Q.steps + q + 1 ≤ R.steps + r by omega)
    rw [Nat.succ_mul] at hmul
    omega
  · intro heq
    rw [heq] at h
    omega

theorem batches_mono {m n : Nat} (h : m ≤ n) : batches C.dispatch m ≤ batches C.dispatch n :=
  (made_le _ h).length_le

/-- Every action of a rank advances its clock. -/
theorem act_advance {S : Net E} {R' : Rank E} (h : S.act C r = some R') (hr : r < C.ppSize) :
    (S r).clock C.ppSize r < R'.clock C.ppSize r := by
  have hsame : ∀ R : Rank E, R.steps = (S r).steps →
      (S r).phase.weight C.ppSize r < R.phase.weight C.ppSize r →
      (S r).clock C.ppSize r < R.clock C.ppSize r := by
    intro R hsteps hweight
    unfold Rank.clock
    rw [hsteps]
    omega
  have hexch : ∀ batch pipe out, (S r).phase = .exchanging batch pipe out →
      ∀ R : Rank E, R.steps = (S r).steps → R.phase.weight C.ppSize r = 2 * C.ppSize + 2 →
      (S r).clock C.ppSize r < R.clock C.ppSize r := by
    intro batch pipe out hphase R hsteps hweight
    refine hsame R hsteps ?_
    rw [hweight, hphase, Phase.weight]
    split <;> omega
  have hreceive : ∀ batch pipe out tensor, (S r).phase = .exchanging batch pipe out →
      S.receive C r batch pipe tensor = some R' →
      (S r).clock C.ppSize r < R'.clock C.ppSize r := by
    intro batch pipe out tensor hphase hrec
    obtain ⟨-, -, hrec⟩ := Option.bind_eq_some_iff.mp hrec
    obtain ⟨ids, -, hrec⟩ := Option.bind_eq_some_iff.mp hrec
    cases Option.some.inj hrec
    exact hexch _ _ _ hphase _ rfl rfl
  have hwrap : ∀ R : Rank E, R.steps = (S r).steps + 1 →
      (S r).clock C.ppSize r < R.clock C.ppSize r := by
    intro R hsteps
    have hlt := (S r).phase.weight_lt C.ppSize r
    have hmul := Nat.succ_mul ((S r).steps + r) (2 * C.ppSize + 3)
    unfold Rank.clock
    rw [hsteps, show (S r).steps + 1 + r = ((S r).steps + r).succ by omega, hmul]
    omega
  unfold Net.act at h
  split at h
  next htop =>
    split at h
    · cases Option.some.inj h
      exact hsame _ rfl (by rw [htop]; simp [Rank.start, Phase.weight])
    · cases h
  next pipe hphase =>
    cases Option.some.inj h
    refine hsame _ rfl ?_
    rw [hphase]
    simp only [Phase.weight]
    split <;> omega
  next batch pipe hphase =>
    have hrun : (S r).phase.weight C.ppSize r < 2 * C.ppSize := by
      rw [hphase]
      simp only [Phase.weight]
      omega
    have hnext : ∀ R : Rank E, R.steps = (S r).steps → (∃ b p o, R.phase = .exchanging b p o) →
        (S r).clock C.ppSize r < R.clock C.ppSize r := by
      rintro R hsteps ⟨b, p, o, hR⟩
      refine hsame R hsteps (Nat.lt_of_lt_of_le hrun ?_)
      rw [hR]
      simp only [Phase.weight]
      split <;> omega
    split at h
    · obtain ⟨-, -, h⟩ := Option.bind_eq_some_iff.mp h
      obtain ⟨act, -, h⟩ := Option.bind_eq_some_iff.mp h
      obtain ⟨layers, -, h⟩ := Option.bind_eq_some_iff.mp h
      dsimp only at h
      split at h
      · cases Option.some.inj h
        exact hnext _ rfl ⟨_, _, _, rfl⟩
      · obtain ⟨rows, -, h⟩ := Option.bind_eq_some_iff.mp h
        cases Option.some.inj h
        exact hnext _ rfl ⟨_, _, _, rfl⟩
    · cases Option.some.inj h
      exact hnext _ rfl ⟨_, _, _, rfl⟩
  next batch pipe out hphase =>
    unfold Net.exchange at h
    split at h
    · split at h
      · cases Option.some.inj h
        exact hexch _ _ _ hphase _ rfl rfl
      · cases h
    · cases Option.some.inj h
      exact hexch _ _ _ hphase _ rfl rfl
    · split at h
      · exact hreceive _ _ _ _ hphase h
      · cases Option.some.inj h
        exact hexch _ _ _ hphase _ rfl rfl
    · split at h
      · exact hreceive _ _ _ _ hphase h
      · cases Option.some.inj h
        exact hexch _ _ _ hphase _ rfl rfl
  next batch pipe ids hphase =>
    cases Option.some.inj h
    exact hwrap _ rfl
  next batch pipe rows ids hphase =>
    split at h
    · cases Option.some.inj h
      exact hwrap _ rfl
    · cases h

section Waiting

variable {S : Net E} (hC : Sound C bound) (hS : ∀ q < C.ppSize, Agrees C bound q (S q))
  (hr : r < C.ppSize)
  (hmin : ∀ q < C.ppSize, (S r).clock C.ppSize r ≤ (S q).clock C.ppSize q)

include hC hS hr hmin

/-- What a rank that no other is behind of has sent has been taken. -/
theorem quiet_of_min (hbegun : (S r).phase ≠ .top)
    (hlast : r + 1 = C.ppSize → (S r).exchanged = (S r).steps) : S.quiet C r = true := by
  unfold Net.quiet
  split
  next hl =>
    refine List.all_eq_true.mpr fun q hq => decide_eq_true ?_
    have hqr := List.mem_range.mp hq
    have hstage := (Rank.stage_le (hmin q (by omega))).1
    have hsteps : (S q).steps ≤ (S q).exchanged := by
      unfold Rank.exchanged
      split <;> omega
    have hcount : (S r).broadcasts.length = batches C.dispatch (S r).steps := by
      rw [(hS r hr).broadcasts hl, hlast hl, made_idsAt_length]
    rw [hcount, (hS q (by omega)).received (by omega)]
    have := batches_mono (C := C)
      (show (S r).steps ≤ (S q).exchanged - (C.ppSize - 1 - q) by omega)
    omega
  next hl =>
    refine decide_eq_true ?_
    have hsent : (S r).sent.length = batches C.dispatch (S r).steps := by
      rw [(hS r hr).sent (by omega), made_tensorAt_length (hC.bound_pos (by omega) (by omega))]
    rw [hsent, (hS (r + 1) (by omega)).taken (by omega)]
    obtain ⟨hstage, hplace⟩ := Rank.stage_le (hmin (r + 1) (by omega))
    -- in the same stage the next rank receives first
    have hforwarded : (S r).steps ≤ (S (r + 1)).forwarded := by
      by_cases hbehind : (S r).steps ≤ (S (r + 1)).steps
      · unfold Rank.forwarded
        split <;> omega
      · have hweight := hplace (by omega)
        cases hphase : (S (r + 1)).phase with
        | exchanging => simp only [Rank.forwarded, hphase]; omega
        | sending => simp only [Rank.forwarded, hphase]; omega
        | top =>
          rw [hphase] at hweight
          cases hown : (S r).phase <;> rw [hown] at hweight hbegun <;>
            simp only [Phase.weight] at hweight
          · exact absurd rfl hbegun
          · omega
          · split at hweight <;> omega
          · omega
        | running =>
          rw [hphase] at hweight
          cases hown : (S r).phase <;> rw [hown] at hweight hbegun <;>
            simp only [Phase.weight] at hweight
          · exact absurd rfl hbegun
          · omega
          · split at hweight <;> omega
          · omega
    have := batches_mono (C := C) hforwarded
    omega

/-- The tensor for its batch has reached a rank that no other is behind of. -/
theorem input_of_min {batch : E.Batch} {pipe : Option (Nat × E.Batch)}
    (hphase : (S r).phase = .running (some batch) pipe) : (S.input r batch).isSome := by
  have hok := (hS r hr).phase
  rw [hphase] at hok
  unfold Net.input
  split
  next => rfl
  next h0 =>
    have hbound : 0 < bound r := hC.bound_pos (by omega) hr
    have hstage := (Rank.stage_le (hmin (r - 1) (by omega))).1
    have hsent := (hS (r - 1) (by omega)).sent (by omega)
    rw [show r - 1 + 1 = r by omega] at hsent
    have htaken := (hS r hr).taken (by omega)
    rw [show (S r).forwarded = (S r).steps by simp [Rank.forwarded, hphase],
      ← made_tensorAt_length hbound] at htaken
    obtain ⟨rows, hrows⟩ := Option.isSome_iff_exists.mp
      ((tensorAt_isSome C.dispatch hbound (S r).steps).trans (by rw [← hok.1]; rfl))
    have hget := made_get hrows (show (S r).steps < (S (r - 1)).steps by omega)
    rw [hsent, htaken, hget]
    rw [tensorAt, ← hok.1, Option.bind_some] at hrows
    simp [Activations.cat_length hrows]

theorem forward_of_min {batch : E.Batch} {pipe : Option (Nat × E.Batch)}
    (hphase : (S r).phase = .running (some batch) pipe) : (S.forward C r batch pipe).isSome := by
  have hr' := hS r hr
  have hok := hr'.phase
  rw [hphase] at hok
  have hf : (S r).forwarded = (S r).steps := by simp [Rank.forwarded, hphase]
  have hquiet : S.quiet C r = true := quiet_of_min hC hS hr hmin (by simp [hphase])
    (fun _ => by simp [Rank.exchanged, hphase])
  obtain ⟨act, hact⟩ := Option.isSome_iff_exists.mp (input_of_min hC hS hr hmin hphase)
  unfold Net.forward
  rw [hquiet, hact, hC.ownLayers hr]
  simp only [guard_true, Option.pure_def, Option.bind_eq_bind, Option.bind_some]
  split
  next => rfl
  next hlast =>
    have hle := hC.splits.ordered r hr
    have htop : bound (r + 1) ≤ E.numHiddenLayers :=
      hC.splits.last ▸ hC.splits.mono (show r + 1 ≤ C.ppSize by omega) le_rfl
    have hend : bound r + (bound (r + 1) - bound r) = bound (r + 1) := by omega
    cases input_agrees hC hr hS hphase hact
    have hout := (runLayers_reference hok.1.symm (by omega) (hC.distinct_range hr)
      (fun i hi => (hr'.kv i hi).trans (by rw [hf]))).1
    rw [hend] at hout
    rw [hout]
    have hcat := tensorAt_isSome C.dispatch
      (hC.bound_pos (show 0 < r + 1 by omega) (by omega)) (S r).steps
    rw [tensorAt, ← hok.1, Option.bind_some] at hcat
    obtain ⟨rows, hrows⟩ := Option.isSome_iff_exists.mp hcat
    rw [hrows]
    rfl

/-- The broadcast for its batch has reached a rank that no other is behind of. -/
theorem receive_of_min {batch : Option E.Batch} {pipe : Nat × E.Batch} {out : Outcome E}
    {tensor : Option (List E.Row)} (hlt : r + 1 < C.ppSize)
    (hphase : (S r).phase = .exchanging batch (some pipe) out) :
    (S.receive C r batch (some pipe) tensor).isSome := by
  have hr' := hS r hr
  have hok := hr'.phase
  rw [hphase] at hok
  have he : (S r).exchanged = (S r).steps := by simp [Rank.exchanged, hphase]
  have hquiet : S.quiet C r = true := quiet_of_min hC hS hr hmin (by simp [hphase])
    (fun _ => he)
  have hpipe := hok.2.1 hlt
  unfold pipeAt at hpipe
  split at hpipe
  next hlag =>
    obtain ⟨b, hb, -⟩ := Option.map_eq_some_iff.mp hpipe.symm
    obtain ⟨ids, hids⟩ := Option.isSome_iff_exists.mp
      ((idsAt_isSome C.dispatch _).trans (by rw [hb]; rfl))
    have hlast := (hS (C.ppSize - 1) (by omega)).broadcasts (by omega)
    have hreceived := hr'.received hlt
    rw [he, ← made_idsAt_length] at hreceived
    obtain ⟨hstage, hplace⟩ := Rank.stage_le (hmin (C.ppSize - 1) (by omega))
    -- in the same stage the last rank broadcasts first
    have hsent : (S r).steps - (C.ppSize - 1 - r) < (S (C.ppSize - 1)).exchanged := by
      by_cases hahead : (S r).steps - (C.ppSize - 1 - r) < (S (C.ppSize - 1)).steps
      · unfold Rank.exchanged
        split <;> omega
      · have hweight := hplace (by omega)
        rw [hphase] at hweight
        cases hl : (S (C.ppSize - 1)).phase with
        | sending => simp only [Rank.exchanged, hl]; omega
        | top => rw [hl] at hweight; simp only [Phase.weight] at hweight; split at hweight <;> omega
        | running =>
          rw [hl] at hweight
          simp only [Phase.weight] at hweight
          split at hweight <;> omega
        | exchanging =>
          rw [hl] at hweight
          simp only [Phase.weight] at hweight
          rw [if_neg (by omega), if_pos (by omega)] at hweight
          omega
    have hget := made_get hids hsent
    unfold Net.receive
    rw [hquiet, hlast, hreceived, hget]
    rfl
  next => cases hpipe

/-- A rank that no other is behind of does not wait. -/
theorem act_of_min : (S.act C r).isSome := by
  have hr' := hS r hr
  have hok := hr'.phase
  unfold Net.act
  split
  next htop =>
    have hstart : (decide (r = 0) || decide ((S r).begun < (S 0).begun)) = true := by
      by_cases h0 : r = 0
      · simp [h0]
      · have hstage := (Rank.stage_le (hmin 0 (by omega))).1
        have hown : (S r).begun = (S r).steps := by rw [hr'.begun, htop]
        have hfirst := (hS 0 (by omega)).begun
        have : (S 0).steps ≤ (S 0).begun := by
          rw [hfirst]
          split <;> omega
        have hlt : (S r).begun < (S 0).begun := by
          rw [hown]
          omega
        simp [hlt]
    rw [if_pos hstart]
    rfl
  next => rfl
  next batch pipe hphase =>
    rw [hphase] at hok
    rw [if_pos (hC.batch_forwards hok.1.symm)]
    exact forward_of_min hC hS hr hmin hphase
  next batch pipe out hphase =>
    rw [hphase] at hok
    by_cases hlast : r + 1 = C.ppSize
    · have hquiet : S.quiet C r = true := quiet_of_min hC hS hr hmin (by simp [hphase])
        (fun _ => by simp [Rank.exchanged, hphase])
      cases batch with
      | none =>
        cases (show out = .idle from hok.2.2)
        simp [Net.exchange, hlast]
      | some b =>
        cases (if_pos hlast).mp hok.2.2
        simp [Net.exchange, hquiet]
    · cases pipe with
      | none =>
        cases batch with
        | none =>
          cases (show out = .idle from hok.2.2)
          rfl
        | some b =>
          obtain ⟨rows, -, rfl⟩ := (if_neg hlast).mp hok.2.2
          rfl
      | some pipe =>
        have hlt : r + 1 < C.ppSize := by omega
        cases batch with
        | none =>
          cases (show out = .idle from hok.2.2)
          have hne : (r + 1 != C.ppSize) = true := by simp [hlast]
          simp only [Net.exchange, Option.isSome_some, hne, Bool.and_self, if_true]
          exact receive_of_min hC hS hr hmin hlt hphase
        | some b =>
          obtain ⟨rows, -, rfl⟩ := (if_neg hlast).mp hok.2.2
          exact receive_of_min hC hS hr hmin hlt hphase
  next => rfl
  next batch pipe rows ids hphase =>
    rw [hphase] at hok
    have hlast : r + 1 ≠ C.ppSize := by
      intro hlast
      have := ((if_pos hlast).mp hok.2.2).1
      cases this
    rw [if_pos (quiet_of_min hC hS hr hmin (by simp [hphase]) fun hl => absurd hl hlast)]
    rfl

end Waiting

end FastPP.Pipeline
