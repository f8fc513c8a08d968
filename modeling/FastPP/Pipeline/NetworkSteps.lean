import FastPP.Pipeline.NetworkLaw

namespace FastPP.Pipeline

open StepLog

variable {E : Engine} {C : Settings E} {bound : Nat → Nat} {r : Nat} {R : Rank E}

theorem batches_succ_none {t : Nat} (h : batchAt C.dispatch t = none) :
    batches C.dispatch (t + 1) = batches C.dispatch t := by
  simp [batches, made_succ, h]

theorem batches_succ_some {t : Nat} {batch : E.Batch} (h : batchAt C.dispatch t = some batch) :
    batches C.dispatch (t + 1) = batches C.dispatch t + 1 := by
  simp [batches, made_succ, h]

theorem made_tensorAt_length {i : Nat} (hi : 0 < i) (n : Nat) :
    (made (tensorAt C.dispatch i) n).length = batches C.dispatch n :=
  made_length (tensorAt_isSome C.dispatch hi) n

theorem made_idsAt_length (n : Nat) :
    (made (idsAt C.dispatch) n).length = batches C.dispatch n :=
  made_length (idsAt_isSome C.dispatch) n

/-- The batch awaiting its result is the one dispatched `ppSize - 1 - r` steps ago, if any. -/
theorem Agrees.pipeBatch (h : Agrees C bound r R) (htop : R.phase = .top)
    (hr : r + 1 < C.ppSize) :
    R.lastBatch R.curPP.next.getPp = pipeAt C.dispatch (C.ppSize - 1 - r) R.steps := by
  have hcur : R.curPP.next = .after C.ppSize r (R.steps + 1) := by
    rw [h.counter, h.begun, htop]
    rfl
  rw [hcur, PPCounter.after_getPp, pipeAt]
  split
  next hle =>
    have hidx : (r + R.steps + 1) % C.ppSize = (R.steps - (C.ppSize - 1 - r)) % C.ppSize := by
      rw [show r + R.steps + 1 = R.steps - (C.ppSize - 1 - r) + C.ppSize by omega,
        Nat.add_mod_right]
    rw [hidx]
    exact h.recent _ (by omega) (by omega)
  next hlt =>
    rw [Nat.mod_eq_of_lt (by omega)]
    exact h.unused _ (by omega) (by omega)

theorem Agrees.start (hC : Sound C bound) (hr : r < C.ppSize) (h : Agrees C bound r R)
    (htop : R.phase = .top) : Agrees C bound r (R.start C.dispatch) := by
  have hf : R.forwarded = R.steps := by simp [Rank.forwarded, htop]
  have he : R.exchanged = R.steps := by simp [Rank.exchanged, htop]
  have hb : R.begun = R.steps := by rw [h.begun, htop]
  have hf' : (R.start C.dispatch).forwarded = R.forwarded := hf.symm
  have he' : (R.start C.dispatch).exchanged = R.exchanged := he.symm
  refine
    { begun := congrArg (· + 1) hb
      counter := ?_
      recent := h.recent
      unused := h.unused
      kv := hf' ▸ h.kv
      rng := hf' ▸ h.rng
      sent := h.sent
      taken := hf' ▸ h.taken
      broadcasts := he' ▸ h.broadcasts
      received := he' ▸ h.received
      processed := h.processed
      phase := ⟨?_, h.pipeBatch htop⟩ }
  · show R.curPP.next = .after C.ppSize r (R.begun + 1)
    rw [h.counter]
    rfl
  · show C.dispatch R.steps R.processed = _
    have hpos := hC.pos
    rw [h.processed]
    exact hC.dispatch_eq (by omega)

/-- A step without a batch leaves the layers alone. -/
theorem Agrees.skip (h : Agrees C bound r R) {pipe : Option (Nat × E.Batch)}
    (hphase : R.phase = .running none pipe) :
    Agrees C bound r { R with phase := .exchanging none pipe .idle } := by
  have hf : R.forwarded = R.steps := by simp [Rank.forwarded, hphase]
  have he : R.exchanged = R.steps := by simp [Rank.exchanged, hphase]
  have hok := h.phase
  rw [hphase] at hok
  have href : reference C.dispatch R.forwarded = reference C.dispatch (R.steps + 1) :=
    hf ▸ (reference_succ_none hok.1.symm).symm
  have hnum : batches C.dispatch R.forwarded = batches C.dispatch (R.steps + 1) :=
    hf ▸ (batches_succ_none (C := C) hok.1.symm).symm
  exact
    { begun := by rw [h.begun, hphase]
      counter := h.counter
      recent := h.recent
      unused := h.unused
      kv := fun i hi => (h.kv i hi).trans (congrArg (fun ref => ref.kv i) href)
      rng := fun hl => (h.rng hl).trans (congrArg Reference.rng href)
      sent := h.sent
      taken := fun h0 => (h.taken h0).trans hnum
      broadcasts := he ▸ h.broadcasts
      received := he ▸ h.received
      processed := h.processed
      phase := ⟨hok.1, hok.2, rfl⟩ }

/-- A rank feeds into its first layer what the reference has there. -/
theorem input_agrees (hC : Sound C bound) {S : Net E} (hr : r < C.ppSize)
    (hS : ∀ q < C.ppSize, Agrees C bound q (S q)) {batch : E.Batch}
    {pipe : Option (Nat × E.Batch)} (hphase : (S r).phase = .running (some batch) pipe)
    {act : Activations E.Row (E.numTokens batch)} (h : S.input r batch = some act) :
    act = activationsAt C.dispatch (S r).steps (bound r) batch := by
  have hok := (hS r hr).phase
  rw [hphase] at hok
  unfold Net.input at h
  split at h
  next h0 =>
    subst h0
    rw [hC.splits.first]
    exact (Option.some.inj h).symm
  next h0 =>
    obtain ⟨rows, hrows, hact⟩ := Option.bind_eq_some_iff.mp h
    have hbound : 0 < bound r := hC.bound_pos (by omega) hr
    have hprev : r - 1 + 1 = r := by omega
    have hsent := (hS (r - 1) (by omega)).sent (by omega)
    have htaken := (hS r hr).taken (by omega)
    rw [show (S r).forwarded = (S r).steps by simp [Rank.forwarded, hphase],
      ← made_tensorAt_length hbound] at htaken
    rw [hprev] at hsent
    rw [hsent, htaken] at hrows
    -- the tensor at this place is the one for the batch of this step
    obtain ⟨rows', hrows'⟩ := Option.isSome_iff_exists.mp
      ((tensorAt_isSome C.dispatch hbound (S r).steps).trans (by rw [← hok.1]; rfl))
    have hsame := made_get hrows' (lt_of_made_get hrows)
    rw [hrows] at hsame
    cases hsame
    rw [tensorAt, ← hok.1, Option.bind_some] at hrows'
    split at hact
    next hlen =>
      rw [← Option.some.inj hact]
      exact Activations.split_cat hrows' hlen
    next => cases hact

theorem Agrees.forward (hC : Sound C bound) {S : Net E} (hr : r < C.ppSize)
    (hS : ∀ q < C.ppSize, Agrees C bound q (S q)) {batch : E.Batch}
    {pipe : Option (Nat × E.Batch)} (hphase : (S r).phase = .running (some batch) pipe)
    {R' : Rank E} (h : S.forward C r batch pipe = some R') : Agrees C bound r R' := by
  have hr' := hS r hr
  have hok := hr'.phase
  rw [hphase] at hok
  have hf : (S r).forwarded = (S r).steps := by simp [Rank.forwarded, hphase]
  have he : (S r).exchanged = (S r).steps := by simp [Rank.exchanged, hphase]
  have hbegun : (S r).begun = (S r).steps + 1 := by rw [hr'.begun, hphase]
  have hle := hC.splits.ordered r hr
  have htop : bound (r + 1) ≤ E.numHiddenLayers :=
    hC.splits.last ▸ hC.splits.mono (show r + 1 ≤ C.ppSize by omega) le_rfl
  have hend : bound r + (bound (r + 1) - bound r) = bound (r + 1) := by omega
  unfold Net.forward at h
  obtain ⟨-, -, h⟩ := Option.bind_eq_some_iff.mp h
  obtain ⟨act, hact, h⟩ := Option.bind_eq_some_iff.mp h
  obtain ⟨layers, hlayers, h⟩ := Option.bind_eq_some_iff.mp h
  rw [hC.ownLayers hr] at hlayers
  cases Option.some.inj hlayers
  cases input_agrees hC hr hS hphase hact
  obtain ⟨hout, hkv⟩ := runLayers_reference hok.1.symm (by omega) (hC.distinct_range hr)
    (fun i hi => (hr'.kv i hi).trans (by rw [hf]))
  rw [hend] at hout
  have htaken : 0 < r → (S r).taken + 1 = batches C.dispatch ((S r).steps + 1) := by
    intro h0
    rw [hr'.taken h0, hf, batches_succ_some (C := C) hok.1.symm]
  dsimp only at h
  split at h
  next hlast =>
    cases Option.some.inj h
    refine
      { begun := hbegun
        counter := hr'.counter
        recent := hr'.recent
        unused := hr'.unused
        kv := hkv
        rng := fun _ => ?_
        sent := hr'.sent
        taken := fun h0 => ?_
        broadcasts := he ▸ hr'.broadcasts
        received := he ▸ hr'.received
        processed := hr'.processed
        phase := ⟨hok.1, hok.2, ?_⟩ }
    · show (E.sample batch _ (S r).rng).1 = (reference C.dispatch ((S r).steps + 1)).rng
      rw [hout, reference_succ_some hok.1.symm, hr'.rng hlast, hf, hlast, hC.splits.last]
      rfl
    · rw [show (if r = 0 then (S r).taken else (S r).taken + 1) = (S r).taken + 1 from
        if_neg (by omega)]
      exact htaken h0
    · refine (if_pos hlast).mpr (congrArg Outcome.sampled ?_)
      rw [hout, hr'.rng hlast, hf, hlast, hC.splits.last]
      rfl
  next hlast =>
    obtain ⟨rows, hrows, h⟩ := Option.bind_eq_some_iff.mp h
    cases Option.some.inj h
    refine
      { begun := hbegun
        counter := hr'.counter
        recent := hr'.recent
        unused := hr'.unused
        kv := hkv
        rng := fun hl => absurd hl hlast
        sent := hr'.sent
        taken := fun h0 => ?_
        broadcasts := he ▸ hr'.broadcasts
        received := he ▸ hr'.received
        processed := hr'.processed
        phase := ⟨hok.1, hok.2, ?_⟩ }
    · rw [show (if r = 0 then (S r).taken else (S r).taken + 1) = (S r).taken + 1 from
        if_neg (by omega)]
      exact htaken h0
    · exact (if_neg hlast).mpr ⟨rows, hout ▸ hrows, rfl⟩

/-- The broadcast of an iteration changes only the rank's part in the broadcasts. -/
theorem Agrees.communicate (h : Agrees C bound r R) {batch : Option E.Batch}
    {pipe : Option (Nat × E.Batch)} {out : Outcome E} {tensor : Option (List E.Row)}
    {ids : Option E.Ids} {broadcasts : List E.Ids} {received : Nat}
    (hphase : R.phase = .exchanging batch pipe out)
    (hbroadcasts : r + 1 = C.ppSize → broadcasts = made (idsAt C.dispatch) (R.steps + 1))
    (hreceived : r + 1 < C.ppSize →
      received = batches C.dispatch (R.steps + 1 - (C.ppSize - 1 - r)))
    (hsending : PhaseAgrees C bound r R.steps (.sending batch pipe tensor ids)) :
    Agrees C bound r { R with
      broadcasts := broadcasts, received := received
      phase := .sending batch pipe tensor ids } := by
  have hf : Rank.forwarded { R with
      broadcasts := broadcasts, received := received
      phase := .sending batch pipe tensor ids } = R.forwarded := by
    simp [Rank.forwarded, hphase]
  exact
    { begun := by rw [h.begun, hphase]
      counter := h.counter
      recent := h.recent
      unused := h.unused
      kv := hf ▸ h.kv
      rng := hf ▸ h.rng
      sent := h.sent
      taken := hf ▸ h.taken
      broadcasts := hbroadcasts
      received := hreceived
      processed := h.processed
      phase := hsending }

/-- A received broadcast is for the batch awaiting its result. -/
theorem Agrees.receive {S : Net E} (hr : r + 1 < C.ppSize)
    (hS : ∀ q < C.ppSize, Agrees C bound q (S q)) {batch : Option E.Batch}
    {pipe : Nat × E.Batch} {out : Outcome E} {tensor : Option (List E.Row)}
    (hphase : (S r).phase = .exchanging batch (some pipe) out)
    (htensor : tensor = tensorAt C.dispatch (bound (r + 1)) (S r).steps)
    {R' : Rank E} (h : S.receive C r batch (some pipe) tensor = some R') :
    Agrees C bound r R' := by
  have hr' := hS r (by omega)
  have hok := hr'.phase
  rw [hphase] at hok
  have he : (S r).exchanged = (S r).steps := by simp [Rank.exchanged, hphase]
  have hne : ¬ r + 1 = C.ppSize := by omega
  obtain ⟨-, -, h⟩ := Option.bind_eq_some_iff.mp h
  obtain ⟨ids, hids, h⟩ := Option.bind_eq_some_iff.mp h
  cases Option.some.inj h
  -- `pipe` is the batch dispatched `ppSize - 1 - r` steps ago
  have hpipe := hok.2.1 hr
  unfold pipeAt at hpipe
  split at hpipe
  next hlag =>
    obtain ⟨b, hb, rfl⟩ := Option.map_eq_some_iff.mp hpipe.symm
    have hlast := (hS (C.ppSize - 1) (by omega)).broadcasts (by omega)
    have hreceived := hr'.received hr
    rw [he, ← made_idsAt_length] at hreceived
    rw [hlast, hreceived] at hids
    have hown : idsAt C.dispatch ((S r).steps - (C.ppSize - 1 - r)) = some ids := by
      obtain ⟨ids', hids'⟩ := Option.isSome_iff_exists.mp
        ((idsAt_isSome C.dispatch _).trans (by rw [hb]; rfl))
      have hsame := made_get hids' (lt_of_made_get hids)
      rw [hids] at hsame
      cases hsame
      exact hids'
    refine hr'.communicate hphase (fun hl => absurd hl hne) (fun _ => ?_)
      ⟨hok.1, hok.2.1, (if_neg hne).mpr ⟨htensor, ?_⟩⟩
    · rw [show (S r).steps + 1 - (C.ppSize - 1 - r) = (S r).steps - (C.ppSize - 1 - r) + 1 by omega,
        batches_succ_some hb, hreceived, made_idsAt_length]
    · rw [pipeAt, if_pos hlag, hb]
      exact hown.symm
  next => cases hpipe

/-- Without a batch awaiting its result a rank takes no part in a broadcast. -/
theorem Agrees.pass (h : Agrees C bound r R) (hr : r + 1 < C.ppSize) {batch : Option E.Batch}
    {out : Outcome E} {tensor : Option (List E.Row)} (hphase : R.phase = .exchanging batch none out)
    (htensor : tensor = tensorAt C.dispatch (bound (r + 1)) R.steps) :
    Agrees C bound r { R with phase := .sending batch none tensor none } := by
  have hok := h.phase
  rw [hphase] at hok
  have he : R.exchanged = R.steps := by simp [Rank.exchanged, hphase]
  have hne : ¬ r + 1 = C.ppSize := by omega
  have hpipe := hok.2.1 hr
  refine h.communicate hphase (fun hl => absurd hl hne) (fun _ => ?_)
    ⟨hok.1, hok.2.1, (if_neg hne).mpr ⟨htensor, ?_⟩⟩
  · rw [h.received hr, he]
    unfold pipeAt at hpipe
    split at hpipe
    next hlag =>
      have hnone := Option.map_eq_none_iff.mp hpipe.symm
      rw [show R.steps + 1 - (C.ppSize - 1 - r) = R.steps - (C.ppSize - 1 - r) + 1 by omega,
        batches_succ_none hnone]
    next hlag =>
      congr 1
      omega
  · rw [← hpipe]
    rfl

/-- The last rank broadcasts what it has sampled. -/
theorem Agrees.announce (h : Agrees C bound r R) (hr : r + 1 = C.ppSize) {batch : E.Batch}
    {pipe : Option (Nat × E.Batch)} {ids : E.Ids}
    (hphase : R.phase = .exchanging (some batch) pipe (.sampled ids)) :
    Agrees C bound r { R with
      broadcasts := R.broadcasts ++ [ids]
      phase := .sending (some batch) pipe none (some ids) } := by
  have hok := h.phase
  rw [hphase] at hok
  have he : R.exchanged = R.steps := by simp [Rank.exchanged, hphase]
  have hids : ids = (sampleAt C.dispatch R.steps batch).2 :=
    Outcome.sampled.inj ((if_pos hr).mp hok.2.2)
  have hat : idsAt C.dispatch R.steps = some ids := by
    rw [idsAt, ← hok.1, hids]
    rfl
  refine h.communicate hphase (fun hl => ?_) (fun hl => absurd hl (by omega))
    ⟨hok.1, hok.2.1, (if_pos hr).mpr ⟨rfl, hat.symm⟩⟩
  rw [h.broadcasts hl, he, made_succ, hat]
  rfl

/-- Without a batch the last rank has nothing to broadcast. -/
theorem Agrees.silent (h : Agrees C bound r R) (hr : r + 1 = C.ppSize)
    {pipe : Option (Nat × E.Batch)} {out : Outcome E}
    (hphase : R.phase = .exchanging none pipe out) :
    Agrees C bound r { R with phase := .sending none pipe none none } := by
  have hok := h.phase
  rw [hphase] at hok
  have he : R.exchanged = R.steps := by simp [Rank.exchanged, hphase]
  have hat : idsAt C.dispatch R.steps = none := by
    rw [idsAt, ← hok.1]
    rfl
  refine h.communicate hphase (fun hl => ?_) (fun hl => absurd hl (by omega))
    ⟨hok.1, hok.2.1, (if_pos hr).mpr ⟨rfl, hat.symm⟩⟩
  rw [h.broadcasts hl, he, made_succ, hat]
  simp

theorem Agrees.exchange {S : Net E} (hr : r < C.ppSize)
    (hS : ∀ q < C.ppSize, Agrees C bound q (S q)) {batch : Option E.Batch}
    {pipe : Option (Nat × E.Batch)} {out : Outcome E}
    (hphase : (S r).phase = .exchanging batch pipe out) {R' : Rank E}
    (h : S.exchange C r batch pipe out = some R') : Agrees C bound r R' := by
  have hr' := hS r hr
  have hok := hr'.phase
  rw [hphase] at hok
  by_cases hlast : r + 1 = C.ppSize
  · cases batch with
    | none =>
      cases (show out = .idle from hok.2.2)
      have hsend : S.exchange C r none pipe .idle =
          some { S r with phase := .sending none pipe none none } := by
        simp [Net.exchange, hlast]
      rw [hsend] at h
      cases Option.some.inj h
      exact hr'.silent hlast hphase
    | some b =>
      cases (if_pos hlast).mp hok.2.2
      simp only [Net.exchange] at h
      split at h
      · cases Option.some.inj h
        exact hr'.announce hlast hphase
      · cases h
  · have hlt : r + 1 < C.ppSize := by omega
    -- what the rank will send for the batch of this step
    obtain ⟨tensor, htensor, hout⟩ : ∃ tensor,
        tensor = tensorAt C.dispatch (bound (r + 1)) (S r).steps ∧
          S.exchange C r batch pipe out =
            if pipe.isSome then S.receive C r batch pipe tensor
            else some { S r with phase := .sending batch pipe tensor none } := by
      cases batch with
      | none =>
        cases (show out = .idle from hok.2.2)
        refine ⟨none, by rw [tensorAt, ← hok.1]; rfl, ?_⟩
        simp [Net.exchange, hlast]
      | some b =>
        obtain ⟨rows, hrows, rfl⟩ := (if_neg hlast).mp hok.2.2
        exact ⟨some rows, by rw [tensorAt, ← hok.1, Option.bind_some, hrows], rfl⟩
    rw [hout] at h
    cases pipe with
    | none =>
      cases Option.some.inj h
      exact hr'.pass hlt hphase htensor
    | some pipe => exact Agrees.receive hlt hS hphase htensor h

/-- The recorded batches after the batch of this step took its entry. -/
theorem Agrees.record (h : Agrees C bound r R) (hbegun : R.begun = R.steps + 1)
    (s : Nat) (hs : s < R.steps + 1) (hrecent : R.steps + 1 ≤ s + C.ppSize) :
    Function.update R.lastBatch R.curPP.get
        ((batchAt C.dispatch R.steps).map fun b => (R.steps, b)) (s % C.ppSize) =
      (batchAt C.dispatch s).map fun b => (s, b) := by
  rw [h.counter, hbegun, PPCounter.after_get]
  rcases eq_or_ne s R.steps with rfl | hne
  · rw [Function.update_self]
  · have hmod : s % C.ppSize ≠ R.steps % C.ppSize := by
      intro heq
      have hzero := Nat.sub_mod_eq_zero_of_mod_eq heq.symm
      rw [Nat.mod_eq_of_lt (by omega)] at hzero
      omega
    rw [Function.update_of_ne hmod]
    exact h.recent s (by omega) (by omega)

/-- The end of an iteration: the result that arrived in it is processed. -/
theorem Agrees.finish (h : Agrees C bound r R) (hr : r < C.ppSize) {batch : Option E.Batch}
    {pipe : Option (Nat × E.Batch)} {tensor : Option (List E.Row)} {ids : Option E.Ids}
    (hphase : R.phase = .sending batch pipe tensor ids) :
    Agrees C bound r
      ({ R with sent := R.sent ++ tensor.toList }.finish (r + 1 == C.ppSize) batch pipe ids) := by
  have hok := h.phase
  rw [hphase] at hok
  have hf : R.forwarded = R.steps + 1 := by simp [Rank.forwarded, hphase]
  have he : R.exchanged = R.steps + 1 := by simp [Rank.exchanged, hphase]
  have hbegun : R.begun = R.steps + 1 := by rw [h.begun, hphase]
  have hbatch := hok.1
  refine
    { begun := hbegun
      counter := h.counter
      recent := fun s hs hrecent => ?_
      unused := fun j hj hunused => ?_
      kv := fun i hi => (h.kv i hi).trans (by rw [hf]; rfl)
      rng := fun hl => (h.rng hl).trans (by rw [hf]; rfl)
      sent := fun hl => ?_
      taken := fun h0 => (h.taken h0).trans (by rw [hf]; rfl)
      broadcasts := fun hl => (h.broadcasts hl).trans (by rw [he]; rfl)
      received := fun hl => (h.received hl).trans (by rw [he]; rfl)
      processed := ?_
      phase := trivial }
  · rw [← h.record hbegun s hs hrecent, ← hbatch]
    rfl
  · have hmod : j ≠ R.curPP.get := by
      have : R.steps + 1 ≤ j := hunused
      rw [h.counter, hbegun, PPCounter.after_get, Nat.mod_eq_of_lt (by omega)]
      omega
    have : R.steps + 1 ≤ j := hunused
    exact (Function.update_of_ne hmod _ _).trans (h.unused j hj (by omega))
  · show R.sent ++ tensor.toList = made _ (R.steps + 1)
    have hne : ¬ r + 1 = C.ppSize := by omega
    rw [made_succ, h.sent hl, ((if_neg hne).mp hok.2.2).1]
  · show R.processed ++ _ = made _ (R.steps + 1 - (C.ppSize - 1 - r))
    rw [h.processed]
    by_cases hlast : r + 1 = C.ppSize
    · have hids := ((if_pos hlast).mp hok.2.2).2
      have hlag : C.ppSize - 1 - r = 0 := by omega
      simp only [hlag, Nat.sub_zero, hlast, beq_self_eq_true, if_true, made_succ]
      rw [resultAt, hids, hbatch]
      cases hb : batchAt C.dispatch R.steps with
      | none => simp [idsAt, hb]
      | some b => rfl
    · have hids := ((if_neg hlast).mp hok.2.2).2
      have hpipe := hok.2.1 (by omega)
      have hbeq : (r + 1 == C.ppSize) = false := beq_false_of_ne hlast
      simp only [hbeq, Bool.false_eq_true, if_false]
      rw [hids, hpipe, pipeAt]
      by_cases hlag : C.ppSize - 1 - r ≤ R.steps
      · rw [if_pos hlag, show R.steps + 1 - (C.ppSize - 1 - r) =
          R.steps - (C.ppSize - 1 - r) + 1 by omega, made_succ, resultAt]
        cases hb : batchAt C.dispatch (R.steps - (C.ppSize - 1 - r)) with
        | none => simp [idsAt, hb]
        | some b => rfl
      · rw [if_neg hlag, show R.steps + 1 - (C.ppSize - 1 - r) =
          R.steps - (C.ppSize - 1 - r) by omega]
        simp

/-- Whatever a rank does next, it stays where the reference is. -/
theorem act_agrees (hC : Sound C bound) {S : Net E} (hr : r < C.ppSize)
    (hS : ∀ q < C.ppSize, Agrees C bound q (S q)) {R' : Rank E} (h : S.act C r = some R') :
    Agrees C bound r R' := by
  have hr' := hS r hr
  unfold Net.act at h
  split at h
  next htop =>
    split at h
    · cases Option.some.inj h
      exact hr'.start hC hr htop
    · cases h
  next pipe hphase =>
    cases Option.some.inj h
    exact hr'.skip hphase
  next batch pipe hphase =>
    have hok := hr'.phase
    rw [hphase] at hok
    rw [if_pos (hC.batch_forwards hok.1.symm)] at h
    exact Agrees.forward hC hr hS hphase h
  next batch pipe out hphase => exact Agrees.exchange hr hS hphase h
  next batch pipe ids hphase =>
    cases Option.some.inj h
    have hfin := hr'.finish hr hphase
    rwa [Option.toList_none, List.append_nil] at hfin
  next batch pipe rows ids hphase =>
    split at h
    · cases Option.some.inj h
      exact hr'.finish hr hphase
    · cases h

theorem move_agrees (hC : Sound C bound) {S S' : Net E}
    (hS : ∀ q < C.ppSize, Agrees C bound q (S q)) {r : Fin C.ppSize}
    (h : S.move C r = some S') : ∀ q < C.ppSize, Agrees C bound q (S' q) := by
  obtain ⟨R, hR, rfl⟩ := Option.map_eq_some_iff.mp h
  intro q hq
  by_cases hqr : q = r
  · subst hqr
    rw [Function.update_self]
    exact act_agrees hC hq hS hR
  · rw [Function.update_of_ne hqr]
    exact hS q hq

end FastPP.Pipeline
