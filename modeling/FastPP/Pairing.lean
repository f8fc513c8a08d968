import FastPP.PipeLoop

namespace FastPP

/-- The tensor that the last rank has for a batch. -/
def PipeBatch.produced (ppSize : Nat) (batch : PipeBatch) : TokenIds :=
  if batch.forwards then .sampled batch.step else .filled (ppSize - 1) batch.step

/-- The calls of `process_batch_result` that a rank `lag` steps behind the last one
owes to the first `steps` dispatches. -/
def paired (ppSize lag : Nat) (dispatch : Nat → Option BatchShape) (steps : Nat) :
    List (Nat × PipeBatch × Option TokenIds) :=
  (List.range steps).filterMap fun s =>
    (dispatched dispatch s).map fun batch => (s + lag, batch, some (batch.produced ppSize))

/-- The broadcasts that the first `steps` dispatches call for. -/
def owed (dispatch : Nat → Option BatchShape) (steps : Nat) : List TokenIds :=
  (List.range steps).filterMap fun s =>
    (dispatched dispatch s).bind fun batch =>
      if batch.forwards then some (.sampled batch.step) else none

theorem filterMap_range_succ {α : Type} (f : Nat → Option α) (n : Nat) :
    (List.range (n + 1)).filterMap f = (List.range n).filterMap f ++ (f n).toList := by
  rw [List.range_succ, List.filterMap_append]
  cases hf : f n <;> simp [hf]

theorem paired_succ (ppSize lag : Nat) (dispatch : Nat → Option BatchShape) (steps : Nat) :
    paired ppSize lag dispatch (steps + 1) = paired ppSize lag dispatch steps ++
      ((dispatched dispatch steps).map fun batch =>
        (steps + lag, batch, some (batch.produced ppSize))).toList :=
  filterMap_range_succ _ steps

theorem owed_succ (dispatch : Nat → Option BatchShape) (steps : Nat) :
    owed dispatch (steps + 1) = owed dispatch steps ++
      ((dispatched dispatch steps).bind fun batch =>
        if batch.forwards then some (TokenIds.sampled batch.step) else none).toList :=
  filterMap_range_succ _ steps

namespace PipeRank

/-- The counters and the recorded batches of a rank after `steps` iterations. -/
structure Recorded (ppSize ppRank : Nat) (dispatch : Nat → Option BatchShape) (steps : Nat)
    (R : PipeRank) : Prop where
  rank : R.ppRank = ppRank
  count : R.steps = steps
  counter : R.curPP = .after ppSize ppRank steps
  recent : ∀ s < steps, steps ≤ s + ppSize → R.lastBatch (s % ppSize) = dispatched dispatch s
  unused : ∀ j < ppSize, steps ≤ j → R.lastBatch j = none

theorem recorded_init (ppSize ppRank : Nat) (dispatch : Nat → Option BatchShape) :
    Recorded ppSize ppRank dispatch 0 (.init ppSize ppRank) :=
  ⟨rfl, rfl, rfl, fun _ h => absurd h (by omega), fun _ _ _ => rfl⟩

variable {ppSize ppRank steps : Nat} {dispatch : Nat → Option BatchShape} {R : PipeRank}

theorem Recorded.isLastRank (h : Recorded ppSize ppRank dispatch steps R) :
    R.isLastRank = decide (ppRank + 1 = ppSize) := by
  rw [PipeRank.isLastRank, h.rank, h.counter, PPCounter.after_ppSize]
  by_cases hlast : ppRank + 1 = ppSize <;> simp [hlast]

/-- The recorded batches after the batch of this step took its entry. -/
theorem Recorded.store {R' : PipeRank}
    (h : Recorded ppSize ppRank dispatch steps R)
    (hrank : R'.ppRank = R.ppRank) (hsteps : R'.steps = R.steps + 1)
    (hcur : R'.curPP = R.curPP.next)
    (hlast : R'.lastBatch = Function.update R.lastBatch R'.curPP.get (dispatched dispatch steps)) :
    Recorded ppSize ppRank dispatch (steps + 1) R' := by
  have hcur' : R'.curPP = .after ppSize ppRank (steps + 1) := by rw [hcur, h.counter]; rfl
  rw [hcur', PPCounter.after_get] at hlast
  refine ⟨hrank.trans h.rank, by rw [hsteps, h.count], hcur', fun s hs hrecent => ?_,
    fun j hj hunused => ?_⟩
  · rcases eq_or_ne s steps with rfl | hne
    · rw [hlast, Function.update_self]
    · have hmod : s % ppSize ≠ steps % ppSize := by
        intro heq
        have hzero := Nat.sub_mod_eq_zero_of_mod_eq heq.symm
        rw [Nat.mod_eq_of_lt (by omega)] at hzero
        omega
      rw [hlast, Function.update_of_ne hmod]
      exact h.recent s (by omega) (by omega)
  · have hmod : j ≠ steps % ppSize := by rw [Nat.mod_eq_of_lt (by omega)]; omega
    rw [hlast, Function.update_of_ne hmod]
    exact h.unused j hj (by omega)

/-- The batch awaiting its result is the one dispatched `lag` steps ago, if any. -/
theorem Recorded.pipeBatch (h : Recorded ppSize ppRank dispatch steps R)
    (hrank : ppRank + 1 < ppSize) :
    R.lastBatch (PPCounter.after ppSize ppRank (steps + 1)).getPp =
      if ppSize - 1 - ppRank ≤ steps then dispatched dispatch (steps - (ppSize - 1 - ppRank))
      else none := by
  rw [PPCounter.after_getPp]
  split
  next hle =>
    have hidx : (ppRank + steps + 1) % ppSize = (steps - (ppSize - 1 - ppRank)) % ppSize := by
      rw [show ppRank + steps + 1 = steps - (ppSize - 1 - ppRank) + ppSize by omega,
        Nat.add_mod_right]
    rw [hidx]
    exact h.recent _ (by omega) (by omega)
  next hlt =>
    rw [Nat.mod_eq_of_lt (by omega)]
    exact h.unused _ (by omega) (by omega)

/-- The last rank sends what it samples and processes the result of its own batch. -/
theorem runAndProcess_last {channel : List TokenIds} {batch pipeBatch : Option PipeBatch}
    (hlast : R.isLastRank = true) (hrank : R.ppRank = ppSize - 1) :
    R.runAndProcess channel batch pipeBatch = some { R with
      sent := R.sent ++ (batch.bind fun b =>
        if b.forwards then some (TokenIds.sampled b.step) else none).toList
      processed := R.processed ++
        (batch.map fun b => (R.steps, b, some (b.produced ppSize))).toList } := by
  cases batch with
  | none => cases pipeBatch <;> simp [runAndProcess, hlast]
  | some b =>
    cases hb : b.forwards with
    | true =>
      simp [runAndProcess, runBatch, forwardBatchGeneration, hb, hlast, processBatchResult,
        PipeBatch.produced]
    | false =>
      simp [runAndProcess, runBatch, hb, hlast, hrank, processBatchResult, PipeBatch.produced]

/-- A rank without a batch awaiting its result takes no part in a broadcast. -/
theorem runAndProcess_idle {channel : List TokenIds} {batch : Option PipeBatch}
    (hlast : R.isLastRank = false) (hforwards : ∀ b, batch = some b → b.forwards = true) :
    R.runAndProcess channel batch none = some R := by
  cases batch with
  | none => rfl
  | some b =>
    simp [runAndProcess, runBatch, forwardBatchGeneration, hforwards b rfl, hlast]

/-- A rank with a batch awaiting its result applies the next broadcast to it. -/
theorem runAndProcess_pipe {channel : List TokenIds} {batch : Option PipeBatch}
    {pipeBatch : PipeBatch} {ids : TokenIds} (hlast : R.isLastRank = false)
    (hforwards : ∀ b, batch = some b → b.forwards = true)
    (hids : channel[R.received]? = some ids) :
    R.runAndProcess channel batch (some pipeBatch) = some { R with
      received := R.received + 1
      processed := R.processed ++ [(R.steps, pipeBatch, some ids)] } := by
  cases batch with
  | none => simp [runAndProcess, runBatch, receive, hids, hlast, processBatchResult]
  | some b =>
    simp [runAndProcess, runBatch, forwardBatchGeneration, receive, hforwards b rfl, hids, hlast,
      processBatchResult]

end PipeRank

/-- Every dispatched batch runs a forward pass. -/
def AllForward (dispatch : Nat → Option BatchShape) : Prop :=
  ∀ s b, dispatched dispatch s = some b → b.forwards = true

open PipeRank

/-- The last rank never blocks: it sends what the dispatches call for and pairs each
batch with its own tensor. -/
theorem lastRank_run {ppSize : Nat} (hpp : 0 < ppSize) (dispatch : Nat → Option BatchShape)
    (channel : List TokenIds) (steps : Nat) :
    ∃ R, pipeRun ppSize (ppSize - 1) dispatch channel steps = some R ∧
      Recorded ppSize (ppSize - 1) dispatch steps R ∧ R.sent = owed dispatch steps ∧
      R.processed = paired ppSize 0 dispatch steps := by
  induction steps with
  | zero => exact ⟨_, rfl, recorded_init _ _ _, rfl, rfl⟩
  | succ steps ih =>
    obtain ⟨R, hrun, hrec, hsent, hprocessed⟩ := ih
    have hlast : ({ R with curPP := R.curPP.next } : PipeRank).isLastRank = true := by
      have := hrec.isLastRank
      simp only [PipeRank.isLastRank] at this ⊢
      rw [show R.curPP.next.ppSize = R.curPP.ppSize from rfl, this]
      simp; omega
    have hbatch : (dispatch steps).map (PipeBatch.mk R.steps) = dispatched dispatch steps := by
      rw [hrec.count]; rfl
    refine ⟨{ R with
      curPP := R.curPP.next
      lastBatch := Function.update R.lastBatch R.curPP.next.get (dispatched dispatch steps)
      sent := R.sent ++ ((dispatched dispatch steps).bind fun b =>
        if b.forwards then some (TokenIds.sampled b.step) else none).toList
      processed := R.processed ++ ((dispatched dispatch steps).map fun b =>
        (steps, b, some (b.produced ppSize))).toList
      steps := R.steps + 1 }, ?_, hrec.store rfl rfl rfl rfl, ?_, ?_⟩
    · simp only [pipeRun, hrun, Option.bind_eq_bind, Option.bind_some, iterate, hbatch]
      rw [runAndProcess_last hlast hrec.rank]
      simp [hrec.count]
    · rw [owed_succ, ← hsent]
    · rw [paired_succ, ← hprocessed]; rfl

theorem broadcasts_eq {ppSize : Nat} (hpp : 0 < ppSize) (dispatch : Nat → Option BatchShape)
    (steps : Nat) : broadcasts ppSize dispatch steps = owed dispatch steps := by
  obtain ⟨R, hrun, _, hsent, _⟩ := lastRank_run hpp dispatch [] steps
  simp [broadcasts, hrun, hsent]

theorem owed_prefix (dispatch : Nat → Option BatchShape) {m n : Nat} (h : m ≤ n) :
    owed dispatch m <+: owed dispatch n := by
  obtain ⟨k, rfl⟩ := Nat.exists_eq_add_of_le h
  induction k with
  | zero => exact List.prefix_rfl
  | succ k ih =>
    refine (ih (by omega)).trans ?_
    rw [show m + (k + 1) = m + k + 1 by omega, owed_succ]
    exact List.prefix_append _ _

/-- While every batch forwards, the broadcast at the position of a dispatched batch is
its own. -/
theorem owed_get {dispatch : Nat → Option BatchShape} (hforward : AllForward dispatch)
    (steps : Nat) {s : Nat} {batch : PipeBatch} (hs : s < steps)
    (hbatch : dispatched dispatch s = some batch) :
    (owed dispatch steps)[(owed dispatch s).length]? = some (.sampled batch.step) := by
  obtain ⟨rest, hrest⟩ := owed_prefix dispatch (Nat.succ_le_of_lt hs)
  have hsucc := owed_succ dispatch s
  rw [hbatch, Option.bind_some, if_pos (hforward s batch hbatch), Option.toList_some] at hsucc
  rw [← hrest, hsucc, List.append_assoc, List.getElem?_append_right le_rfl]
  simp

/-- A rank `lag` steps behind the last one, given the broadcasts of the first `total`
dispatches, pairs each of them while every batch forwards. -/
theorem otherRank_run {ppSize ppRank : Nat} (hrank : ppRank + 1 < ppSize)
    {dispatch : Nat → Option BatchShape} (hforward : AllForward dispatch) (total steps : Nat)
    (hsteps : steps ≤ total + (ppSize - 1 - ppRank)) :
    ∃ R, pipeRun ppSize ppRank dispatch (owed dispatch total) steps = some R ∧
      Recorded ppSize ppRank dispatch steps R ∧
      R.received = (owed dispatch (steps - (ppSize - 1 - ppRank))).length ∧
      R.processed = paired ppSize (ppSize - 1 - ppRank) dispatch
        (steps - (ppSize - 1 - ppRank)) := by
  induction steps with
  | zero => exact ⟨_, rfl, recorded_init _ _ _, by simp [owed, init], by simp [paired, init]⟩
  | succ steps ih =>
    obtain ⟨R, hrun, hrec, hreceived, hprocessed⟩ := ih (by omega)
    have hlast : ({ R with curPP := R.curPP.next } : PipeRank).isLastRank = false := by
      have := hrec.isLastRank
      simp only [PipeRank.isLastRank] at this ⊢
      rw [show R.curPP.next.ppSize = R.curPP.ppSize from rfl, this]
      simp; omega
    have hbatch : (dispatch steps).map (PipeBatch.mk R.steps) = dispatched dispatch steps := by
      rw [hrec.count]; rfl
    have hpipe := hrec.pipeBatch hrank
    rw [show PPCounter.after ppSize ppRank (steps + 1) = R.curPP.next by rw [hrec.counter]; rfl]
      at hpipe
    have hnone : ∀ b, dispatched dispatch steps = some b → b.forwards = true :=
      hforward steps
    have hstore : ∀ R' : PipeRank,
        ({ R with curPP := R.curPP.next } : PipeRank).runAndProcess (owed dispatch total)
          (dispatched dispatch steps) (R.lastBatch R.curPP.next.getPp) = some R' →
        pipeRun ppSize ppRank dispatch (owed dispatch total) (steps + 1) = some { R' with
          lastBatch := Function.update R'.lastBatch R'.curPP.get (dispatched dispatch steps)
          steps := R'.steps + 1 } := by
      intro R' h
      simp only [pipeRun, hrun, Option.bind_eq_bind, Option.bind_some, iterate, hbatch]
      rw [h]
      rfl
    have hmono : ∀ R' : PipeRank, R'.ppRank = R.ppRank → R'.steps = R.steps →
        R'.curPP = R.curPP.next → R'.lastBatch = R.lastBatch →
        Recorded ppSize ppRank dispatch (steps + 1) { R' with
          lastBatch := Function.update R'.lastBatch R'.curPP.get (dispatched dispatch steps)
          steps := R'.steps + 1 } := fun R' h₁ h₂ h₃ h₄ =>
      hrec.store h₁ (congrArg (· + 1) h₂) h₃ (congrArg (Function.update · _ _) h₄)
    cases hdue : R.lastBatch R.curPP.next.getPp with
    | none =>
      rw [hdue] at hpipe hstore
      have hsame : ∀ {α : Type} (f : Nat → List α),
          (ppSize - 1 - ppRank ≤ steps → f (steps - (ppSize - 1 - ppRank) + 1) =
            f (steps - (ppSize - 1 - ppRank))) →
          f (steps + 1 - (ppSize - 1 - ppRank)) = f (steps - (ppSize - 1 - ppRank)) := by
        intro α f hf
        by_cases hle : ppSize - 1 - ppRank ≤ steps
        · rw [show steps + 1 - (ppSize - 1 - ppRank) = steps - (ppSize - 1 - ppRank) + 1 by omega]
          exact hf hle
        · rw [show steps + 1 - (ppSize - 1 - ppRank) = steps - (ppSize - 1 - ppRank) by omega]
      have hidle : ppSize - 1 - ppRank ≤ steps →
          dispatched dispatch (steps - (ppSize - 1 - ppRank)) = none := fun hle => by
        rw [if_pos hle] at hpipe
        exact hpipe.symm
      refine ⟨_, hstore _ (runAndProcess_idle hlast hnone), hmono _ rfl rfl rfl rfl, ?_, ?_⟩
      · rw [hsame (owed dispatch) fun hle => by rw [owed_succ, hidle hle]; simp]
        exact hreceived
      · rw [hsame (paired ppSize _ dispatch) fun hle => by rw [paired_succ, hidle hle]; simp]
        exact hprocessed
    | some pipeBatch =>
      rw [hdue] at hpipe hstore
      have hle : ppSize - 1 - ppRank ≤ steps := by
        by_contra hlt
        rw [if_neg hlt] at hpipe
        cases hpipe
      rw [if_pos hle] at hpipe
      have hids := owed_get hforward total (by omega) hpipe.symm
      rw [← hreceived] at hids
      have hsucc : steps + 1 - (ppSize - 1 - ppRank) = steps - (ppSize - 1 - ppRank) + 1 := by
        omega
      refine ⟨_, hstore _ (runAndProcess_pipe hlast hnone hids), hmono _ rfl rfl rfl rfl, ?_, ?_⟩
      · rw [hsucc, owed_succ, ← hpipe, Option.bind_some,
          if_pos (hforward _ _ hpipe.symm)]
        simp [hreceived]
      · rw [hsucc, paired_succ, ← hpipe, ← hprocessed, show
          steps - (ppSize - 1 - ppRank) + (ppSize - 1 - ppRank) = steps by omega]
        simp [PipeBatch.produced, hforward _ _ hpipe.symm, hrec.count]

namespace PipeRank

/-- Every filled tensor that a rank processed is its own. -/
def OwnFilled (R : PipeRank) : Prop :=
  ∀ entry ∈ R.processed, ∀ rank s, entry.2.2 = some (.filled rank s) → rank = R.ppRank

theorem receive_sampled {channel : List TokenIds} {R R' : PipeRank} {out : Option TokenIds}
    (hsampled : ∀ ids ∈ channel, ∀ rank s, ids ≠ .filled rank s)
    (h : R.receive channel = some (R', out)) :
    R'.processed = R.processed ∧ R'.ppRank = R.ppRank ∧
      ∀ rank s, out = some (.filled rank s) → rank = R.ppRank := by
  obtain ⟨ids, hids, h⟩ := Option.bind_eq_some_iff.mp h
  obtain ⟨rfl, rfl⟩ := Prod.mk.inj (Option.some.inj h)
  exact ⟨rfl, rfl, fun rank s heq =>
    absurd (Option.some.inj heq) (hsampled ids (List.mem_of_getElem? hids) rank s)⟩

theorem runBatch_filled {channel : List TokenIds} {R R' : PipeRank}
    {batch pipeBatch : Option PipeBatch} {out : Option TokenIds}
    (hsampled : ∀ ids ∈ channel, ∀ rank s, ids ≠ .filled rank s)
    (h : R.runBatch channel batch pipeBatch = some (R', out)) :
    R'.processed = R.processed ∧ R'.ppRank = R.ppRank ∧
      ∀ rank s, out = some (.filled rank s) → rank = R.ppRank := by
  unfold runBatch at h
  split at h
  next => exact receive_sampled hsampled h
  next =>
    split at h
    next =>
      unfold forwardBatchGeneration at h
      split at h
      next =>
        obtain ⟨rfl, rfl⟩ := Prod.mk.inj (Option.some.inj h)
        exact ⟨rfl, rfl, by simp⟩
      next =>
        split at h
        next => exact receive_sampled hsampled h
        next =>
          obtain ⟨rfl, rfl⟩ := Prod.mk.inj (Option.some.inj h)
          exact ⟨rfl, rfl, by simp⟩
    next =>
      obtain ⟨rfl, rfl⟩ := Prod.mk.inj (Option.some.inj h)
      refine ⟨rfl, rfl, fun rank s heq => ?_⟩
      cases heq
      rfl

theorem OwnFilled.processBatchResult {R R' : PipeRank} {batch : PipeBatch}
    {out : Option TokenIds} (h : R.OwnFilled) (hprocessed : R'.processed = R.processed)
    (hrank : R'.ppRank = R.ppRank)
    (hout : ∀ rank s, out = some (.filled rank s) → rank = R.ppRank) :
    (R'.processBatchResult batch out).OwnFilled := by
  intro entry hentry rank s heq
  have hmem : entry ∈ R.processed ∨ entry = (R'.steps, batch, out) := by
    simpa [PipeRank.processBatchResult, hprocessed] using hentry
  rcases hmem with hold | rfl
  · exact (h entry hold rank s heq).trans hrank.symm
  · exact (hout rank s heq).trans hrank.symm

theorem OwnFilled.runAndProcess {channel : List TokenIds} {R R' : PipeRank}
    {batch pipeBatch : Option PipeBatch} (own : R.OwnFilled)
    (hsampled : ∀ ids ∈ channel, ∀ rank s, ids ≠ .filled rank s)
    (h : R.runAndProcess channel batch pipeBatch = some R') :
    R'.OwnFilled ∧ R'.ppRank = R.ppRank := by
  unfold PipeRank.runAndProcess at h
  split at h
  next =>
    obtain ⟨⟨R₁, out⟩, hrun, h⟩ := Option.bind_eq_some_iff.mp h
    obtain ⟨hprocessed, hrank, hout⟩ := runBatch_filled hsampled hrun
    cases Option.some.inj h
    split
    next => exact ⟨own.processBatchResult hprocessed hrank hout, hrank⟩
    next =>
      split
      next => exact ⟨own.processBatchResult hprocessed hrank hout, hrank⟩
      next => exact ⟨fun entry hentry => hrank ▸ own entry (hprocessed ▸ hentry), hrank⟩
  next =>
    split at h
    next => cases Option.some.inj h; exact ⟨own, rfl⟩
    next =>
      obtain ⟨⟨R₁, out⟩, hrun, h⟩ := Option.bind_eq_some_iff.mp h
      obtain ⟨hprocessed, hrank, hout⟩ := runBatch_filled hsampled hrun
      cases Option.some.inj h
      exact ⟨own.processBatchResult hprocessed hrank hout, hrank⟩
  next => cases Option.some.inj h; exact ⟨own, rfl⟩

theorem ownFilled_run {ppSize ppRank : Nat} {dispatch : Nat → Option BatchShape}
    {channel : List TokenIds} (hsampled : ∀ ids ∈ channel, ∀ rank s, ids ≠ .filled rank s)
    {steps : Nat} {R : PipeRank} (h : pipeRun ppSize ppRank dispatch channel steps = some R) :
    R.OwnFilled ∧ R.ppRank = ppRank := by
  induction steps generalizing R with
  | zero =>
    cases Option.some.inj h
    exact ⟨fun _ hentry => absurd hentry (by simp [init]), rfl⟩
  | succ steps ih =>
    obtain ⟨R₁, hrun, h⟩ := Option.bind_eq_some_iff.mp h
    obtain ⟨own, hrank⟩ := ih hrun
    obtain ⟨R₂, hprocess, h⟩ := Option.bind_eq_some_iff.mp h
    cases Option.some.inj h
    obtain ⟨own', hrank'⟩ := OwnFilled.runAndProcess (R := { R₁ with curPP := R₁.curPP.next })
      own hsampled hprocess
    exact ⟨own', hrank'.trans hrank⟩

end PipeRank

/-- Once the first `steps` dispatches ran on the last rank, rank `ppRank` gets
`ppSize - 1 - ppRank` steps further: each of their batches was processed there once, in
dispatch order, at its step plus the lag, with the tensor of the last rank, and before
its micro-batch had its next turn. -/
structure ResultsPaired (ppSize ppRank : Nat) (dispatch : Nat → Option BatchShape) (steps : Nat)
    (R : PipeRank) : Prop where
  processed : R.processed = paired ppSize (ppSize - 1 - ppRank) dispatch steps
  beforeNextTurn : ∀ entry ∈ R.processed, ∀ t, entry.2.1.step < t →
    (PPCounter.after ppSize ppRank (t + 1)).get =
      (PPCounter.after ppSize ppRank (entry.2.1.step + 1)).get → entry.1 < t

/-- A turn of the same micro-batch is at least `ppSize` steps later. -/
theorem ResultsPaired.of_processed {ppSize ppRank steps : Nat} {R : PipeRank}
    {dispatch : Nat → Option BatchShape} (hrank : ppRank < ppSize)
    (h : R.processed = paired ppSize (ppSize - 1 - ppRank) dispatch steps) :
    ResultsPaired ppSize ppRank dispatch steps R := by
  refine ⟨h, fun entry hentry t ht hturn => ?_⟩
  rw [h] at hentry
  obtain ⟨s, _, hs⟩ := List.mem_filterMap.mp hentry
  obtain ⟨batch, hbatch, rfl⟩ := Option.map_eq_some_iff.mp hs
  obtain ⟨_, _, rfl⟩ := Option.map_eq_some_iff.mp hbatch
  rw [PPCounter.after_get, PPCounter.after_get] at hturn
  simp only at ht hturn ⊢
  have hzero := Nat.sub_mod_eq_zero_of_mod_eq hturn
  have hdvd : ppSize ≤ t - s := Nat.le_of_dvd (by omega) (Nat.dvd_of_mod_eq_zero hzero)
  omega

/-- Results and batches are paired on every rank exactly when there is a single rank or
every dispatched batch runs a forward pass. -/
theorem resultsPaired_iff (ppSize : Nat) (dispatch : Nat → Option BatchShape) :
    (∀ ppRank < ppSize, ∀ steps, ∃ R,
      pipeRun ppSize ppRank dispatch (broadcasts ppSize dispatch steps)
        (steps + (ppSize - 1 - ppRank)) = some R ∧
      ResultsPaired ppSize ppRank dispatch steps R) ↔
    ppSize ≤ 1 ∨ ∀ s batch, dispatched dispatch s = some batch → batch.forwards = true := by
  constructor
  · intro hpaired
    by_contra hcon
    simp only [not_or, not_le, not_forall] at hcon
    obtain ⟨hpp, s, batch, hbatch, hforwards⟩ := hcon
    obtain ⟨R, hrun, hR⟩ := hpaired (ppSize - 2) (by omega) (s + 1)
    have hsampled : ∀ ids ∈ broadcasts ppSize dispatch (s + 1), ∀ rank step,
        ids ≠ .filled rank step := by
      rw [broadcasts_eq (by omega)]
      intro ids hids rank step
      obtain ⟨t, _, ht⟩ := List.mem_filterMap.mp hids
      obtain ⟨b, _, hb⟩ := Option.bind_eq_some_iff.mp ht
      split at hb
      next => cases Option.some.inj hb; simp
      next => simp at hb
    obtain ⟨own, hrank⟩ := ownFilled_run hsampled hrun
    have hentry : (s + (ppSize - 1 - (ppSize - 2)), batch, some (TokenIds.filled (ppSize - 1) s))
        ∈ R.processed := by
      obtain ⟨_, _, rfl⟩ := Option.map_eq_some_iff.mp hbatch
      rw [hR.processed, paired_succ, hbatch]
      simp [PipeBatch.produced, hforwards]
    have hown : ppSize - 1 = R.ppRank := own _ hentry (ppSize - 1) s rfl
    omega
  · intro hcond ppRank hrank steps
    rcases Nat.lt_or_ge (ppRank + 1) ppSize with hlt | hge
    · have hforward : AllForward dispatch := hcond.resolve_left (by omega)
      obtain ⟨R, hrun, _, _, hprocessed⟩ := otherRank_run hlt hforward steps
        (steps + (ppSize - 1 - ppRank)) le_rfl
      rw [broadcasts_eq (by omega)]
      refine ⟨R, hrun, .of_processed hrank ?_⟩
      rw [hprocessed, Nat.add_sub_cancel]
    · obtain rfl : ppRank = ppSize - 1 := by omega
      obtain ⟨R, hrun, _, _, hprocessed⟩ :=
        lastRank_run (Nat.zero_lt_of_lt hrank) dispatch (broadcasts ppSize dispatch steps) steps
      rw [Nat.sub_self, Nat.add_zero]
      exact ⟨R, hrun, .of_processed hrank (by rw [Nat.sub_self]; exact hprocessed)⟩

/-- A decode batch, then an extend of no tokens, then another decode batch. -/
def emptyExtend (step : Nat) : Option BatchShape :=
  if step = 1 then some ⟨.extend, 0⟩ else if step ≤ 2 then some ⟨.decode, 0⟩ else none

/-- The first rank takes zeros of its own for the first batch and the tokens of the first
batch for the second. -/
theorem emptyExtend_not_paired :
    ¬ ∃ R, pipeRun 2 0 emptyExtend (broadcasts 2 emptyExtend 3) (3 + (2 - 1 - 0)) = some R ∧
      ResultsPaired 2 0 emptyExtend 3 R := by
  rintro ⟨R, hrun, hR⟩
  have hview : (pipeRun 2 0 emptyExtend (broadcasts 2 emptyExtend 3) 4).map (fun R =>
      R.processed.map fun entry => entry.2.2) =
      some [some (.filled 0 1), some (.sampled 0), some (.sampled 2)] := by decide
  rw [hrun, Option.map_some, Option.some.injEq, hR.processed] at hview
  exact absurd hview (by decide)

end FastPP
