import FastPP.Serving.RWLock

namespace FastPP

namespace RWLock

variable {σ σ' : RWLock} {t n : Nat} {task old : LockTask}

/-- Who has not been notified waits for somebody inside; a reader, also for a writer that
waits. -/
structure Watched (σ : RWLock) : Prop where
  writer : .writerWaits false ∈ σ.tasks → σ.writerActive = true ∨ 0 < σ.readers
  reader : .readerWaits false ∈ σ.tasks → σ.writerActive = true ∨ 0 < σ.waitingWriters

theorem Watched.of_tasks {τ : RWLock} (h : σ.Watched)
    (hwriter : .writerWaits false ∈ τ.tasks → .writerWaits false ∈ σ.tasks)
    (hreader : .readerWaits false ∈ τ.tasks → .readerWaits false ∈ σ.tasks)
    (hactive : τ.writerActive = σ.writerActive) (hreaders : σ.readers ≤ τ.readers)
    (hwaiting : σ.waitingWriters ≤ τ.waitingWriters) : τ.Watched where
  writer hmem := by
    rcases h.writer (hwriter hmem) with hin | hin
    · exact .inl (hactive.trans hin)
    · exact .inr (by omega)
  reader hmem := by
    rcases h.reader (hreader hmem) with hin | hin
    · exact .inl (hactive.trans hin)
    · exact .inr (by omega)

theorem mem_setTask {place : LockTask} (hmem : place ∈ (σ.setTask t task).tasks)
    (hne : place ≠ task) : place ∈ σ.tasks := by
  rcases List.mem_or_eq_of_mem_set hmem with hold | heq
  · exact hold
  · exact absurd heq hne

theorem Watched.notifyAll (σ : RWLock) : σ.notifyAll.Watched := by
  have hnone : ∀ place task : LockTask, task.notify = place →
      place ≠ .writerWaits false ∧ place ≠ .readerWaits false := by
    rintro place (_ | _ | _ | _ | _) rfl <;> exact ⟨nofun, nofun⟩
  constructor
  · intro hmem
    obtain ⟨task, _, heq⟩ := List.mem_map.mp hmem
    exact absurd rfl (hnone _ task heq).1
  · intro hmem
    obtain ⟨task, _, heq⟩ := List.mem_map.mp hmem
    exact absurd rfl (hnone _ task heq).2

theorem Watched.enterReader (h : σ.Watched) (t : Nat) : (σ.enterReader t).Watched := by
  unfold RWLock.enterReader
  split
  next hblocked =>
    exact ⟨fun hmem => h.writer (mem_setTask hmem nofun), fun _ => hblocked⟩
  next =>
    exact h.of_tasks (fun hmem => mem_setTask hmem nofun) (fun hmem => mem_setTask hmem nofun) rfl
      (by show σ.readers ≤ σ.readers + 1; omega) (Int.le_refl _)

theorem Watched.enterWriter (h : σ.Watched) (t : Nat) : (σ.enterWriter t).Watched := by
  unfold RWLock.enterWriter
  split
  next hblocked =>
    exact ⟨fun _ => hblocked, fun hmem => h.reader (mem_setTask hmem nofun)⟩
  next => exact ⟨fun _ => .inl rfl, fun _ => .inl rfl⟩

/-- Only a writer that is cancelled leaves readers behind that nobody will notify. -/
theorem Watched.step {op : LockOp} (h : σ.Watched) (hcounted : σ.Counted) (hstep : σ.step op = some σ')
    (hop : op.cancelsWriter = false) : σ'.Watched := by
  cases turn_of_step hstep with
  | spawn =>
    have hold : ∀ {place}, place ≠ .idle → place ∈ σ.tasks ++ [.idle] → place ∈ σ.tasks := by
      intro place hne hmem
      rcases List.mem_append.mp hmem with hmem | hmem
      · exact hmem
      · exact absurd (List.mem_singleton.mp hmem) hne
    exact h.of_tasks (hold nofun) (hold nofun) rfl (Int.le_refl _) (Int.le_refl _)
  | @callReader t ht =>
    have hqueued : Watched (σ.setTask t (.readerWaits true)) :=
      h.of_tasks (fun hmem => mem_setTask hmem nofun) (fun hmem => mem_setTask hmem (by decide)) rfl
        (Int.le_refl _) (Int.le_refl _)
    exact hqueued.enterReader t
  | leave ht hmore =>
    have hinside := hcounted.reader_inside ht
    refine ⟨fun _ => .inr ?_, fun hmem => h.reader (mem_setTask hmem nofun)⟩
    show 0 < σ.readers - 1
    omega
  | leaveLast => exact .notifyAll _
  | @callWriter t ht =>
    have hqueued : Watched
        { σ.setTask t (.writerWaits true) with waitingWriters := σ.waitingWriters + 1 } :=
      h.of_tasks (fun hmem => mem_setTask hmem (by decide)) (fun hmem => mem_setTask hmem nofun) rfl
        (Int.le_refl _) (by show σ.waitingWriters ≤ σ.waitingWriters + 1; omega)
    exact hqueued.enterWriter t
  | releaseWriter => exact .notifyAll _
  | resumeReader => exact h.enterReader _
  | resumeWriter => exact h.enterWriter _
  | cancelReader =>
    exact h.of_tasks (fun hmem => mem_setTask hmem nofun) (fun hmem => mem_setTask hmem nofun) rfl
      (Int.le_refl _) (Int.le_refl _)
  | cancelWriter => exact nomatch hop

theorem counted_init : init.Counted := ⟨rfl, rfl, rfl, fun _ => rfl⟩

theorem watched_init : init.Watched :=
  ⟨fun hmem => absurd hmem List.not_mem_nil, fun hmem => absurd hmem List.not_mem_nil⟩

theorem Counted.run (ops : List LockOp) {σ : RWLock} (h : σ.Counted)
    (hrun : σ.run ops = some σ') : σ'.Counted := by
  induction ops generalizing σ with
  | nil =>
    cases Option.some.inj hrun
    exact h
  | cons op ops ih =>
    obtain ⟨σ₁, hstep, hrest⟩ := Option.bind_eq_some_iff.mp hrun
    exact ih (h.step hstep) hrest

theorem Watched.run (ops : List LockOp) {σ : RWLock} (h : σ.Watched) (hcounted : σ.Counted)
    (hops : ∀ op ∈ ops, op.cancelsWriter = false) (hrun : σ.run ops = some σ') : σ'.Watched := by
  induction ops generalizing σ with
  | nil =>
    cases Option.some.inj hrun
    exact h
  | cons op ops ih =>
    obtain ⟨σ₁, hstep, hrest⟩ := Option.bind_eq_some_iff.mp hrun
    obtain ⟨hop, hops⟩ := List.forall_mem_cons.mp hops
    exact ih (h.step hcounted hstep hop) (hcounted.step hstep) hops hrest

theorem setTask_other {t' : Nat} (hne : t' ≠ t) (task : LockTask) :
    (σ.setTask t task).tasks[t']? = σ.tasks[t']? := by
  unfold setTask
  rw [List.getElem?_set_ne (Ne.symm hne)]

theorem Counted.one_writer (h : σ.Counted) {t' : Nat} (ht : σ.tasks[t]? = some .writing)
    (ht' : σ.tasks[t']? = some .writing) : t' = t := by
  by_contra hne
  have hset := number_setTask (· == .writing) ht .idle
  have hother := (setTask_other hne .idle).trans ht'
  have hpos : 0 < (σ.setTask t .idle).tasks.countP (· == .writing) :=
    List.countP_pos_iff.mpr ⟨_, List.mem_of_getElem? hother, rfl⟩
  have hwriter := h.writer
  rw [h.writer_inside ht] at hwriter
  have hset' : (σ.setTask t .idle).tasks.countP (· == .writing) + 1 = 1 + 0 :=
    hset.trans (by rw [hwriter]; rfl)
  omega

/-- Writer `w` still waits, and no reader has come in. -/
def HeldBack (w : Nat) (σ σ' : RWLock) : Prop :=
  (∃ notified, σ'.tasks[w]? = some (.writerWaits notified)) ∧
    ∀ t : Nat, σ'.tasks[t]? = some .reading → σ.tasks[t]? = some .reading

theorem HeldBack.setTask {w : Nat} {notified : Bool}
    (hw : σ.tasks[w]? = some (.writerWaits notified)) (hne : t ≠ w) (task : LockTask)
    (htask : task ≠ .reading) : HeldBack w σ (σ.setTask t task) := by
  refine ⟨⟨notified, (setTask_other (Ne.symm hne) task).trans hw⟩, fun t' ht' => ?_⟩
  by_cases heq : t' = t
  · subst heq
    unfold RWLock.setTask at ht'
    rw [List.getElem?_set] at ht'
    split at ht'
    next =>
      split at ht'
      next => exact absurd (Option.some.inj ht') htask
      next => exact nomatch ht'
    next => exact ht'
  · exact (setTask_other heq task).symm.trans ht'

theorem HeldBack.notifyAll {w : Nat} (h : HeldBack w σ σ') : HeldBack w σ σ'.notifyAll := by
  obtain ⟨⟨notified, hw⟩, hreading⟩ := h
  unfold RWLock.notifyAll
  refine ⟨⟨true, ?_⟩, fun t ht => hreading t ?_⟩
  · rw [List.getElem?_map, hw]
    rfl
  · rw [List.getElem?_map] at ht
    obtain ⟨task, htask, hnotify⟩ := Option.map_eq_some_iff.mp ht
    rw [htask]
    cases task <;> first | rfl | exact nomatch hnotify

/-- No step lets a reader in while a writer waits. -/
theorem Counted.held_back {w : Nat} {op : LockOp} {notified : Bool} (h : σ.Counted)
    (hw : σ.tasks[w]? = some (.writerWaits notified)) (hstep : σ.step op = some σ')
    (hresume : op ≠ .resume w) (hcancel : op ≠ .cancelWriter w) : HeldBack w σ σ' := by
  have hwaiting : 0 < σ.waitingWriters := by
    have hpos : 0 < σ.tasks.countP LockTask.isWriterWaits :=
      List.countP_pos_iff.mpr ⟨_, List.mem_of_getElem? hw, rfl⟩
    have hcount : σ.waitingWriters = (σ.tasks.countP LockTask.isWriterWaits : Nat) := h.waiting
    omega
  have hother : ∀ {t : Nat} {task : LockTask}, σ.tasks[t]? = some task →
      task.isWriterWaits = false → t ≠ w := by
    rintro t task ht htask rfl
    cases Option.some.inj (ht.symm.trans hw)
    exact nomatch htask
  have hreader : ∀ {t : Nat}, t ≠ w → HeldBack w σ (σ.enterReader t) := by
    intro t hne
    unfold RWLock.enterReader
    rw [if_pos (.inr hwaiting)]
    exact .setTask hw hne _ nofun
  have hwriter : ∀ {t : Nat} (waitingWriters : Int), t ≠ w →
      HeldBack w σ (RWLock.enterWriter { σ with waitingWriters } t) := by
    intro t waitingWriters hne
    unfold RWLock.enterWriter
    split
    next => exact HeldBack.setTask hw hne (.writerWaits false) nofun
    next => exact HeldBack.setTask hw hne .writing nofun
  cases turn_of_step hstep with
  | spawn =>
    have hlt := (List.getElem?_eq_some_iff.mp hw).1
    refine ⟨⟨notified, (List.getElem?_append_left hlt).trans hw⟩, fun t ht => ?_⟩
    rw [List.getElem?_append] at ht
    split at ht
    next => exact ht
    next =>
      rw [List.getElem?_singleton] at ht
      split at ht <;> exact nomatch ht
  | @callReader t ht =>
    rw [enterReader_queued]
    exact hreader (hother ht rfl)
  | leave ht => exact HeldBack.setTask hw (hother ht rfl) .idle nofun
  | @leaveLast t ht =>
    have hset : HeldBack w σ { σ.setTask t .idle with readers := σ.readers - 1 } :=
      HeldBack.setTask hw (hother ht rfl) .idle nofun
    exact hset.notifyAll
  | @callWriter t ht =>
    have hqueued := enterWriter_queued { σ with waitingWriters := σ.waitingWriters + 1 } t
      (.writerWaits true)
    exact hqueued ▸ hwriter _ (hother ht rfl)
  | @releaseWriter t ht =>
    have hset : HeldBack w σ { σ.setTask t .idle with writerActive := false } :=
      HeldBack.setTask hw (hother ht rfl) .idle nofun
    exact hset.notifyAll
  | resumeReader ht => exact hreader (hother ht rfl)
  | resumeWriter ht => exact hwriter _ fun heq => hresume (heq ▸ rfl)
  | cancelReader ht => exact .setTask hw (hother ht rfl) .idle nofun
  | cancelWriter ht => exact HeldBack.setTask hw (fun heq => hcancel (heq ▸ rfl)) .idle nofun

theorem Counted.runs_held_back {w : Nat} (ops : List LockOp) {σ : RWLock} {notified : Bool}
    (h : σ.Counted) (hw : σ.tasks[w]? = some (.writerWaits notified))
    (hops : ∀ op ∈ ops, op ≠ .resume w ∧ op ≠ .cancelWriter w) (hrun : σ.run ops = some σ') :
    HeldBack w σ σ' := by
  induction ops generalizing σ notified with
  | nil =>
    cases Option.some.inj hrun
    exact ⟨⟨notified, hw⟩, fun _ ht => ht⟩
  | cons op ops ih =>
    obtain ⟨σ₁, hstep, hrest⟩ := Option.bind_eq_some_iff.mp hrun
    obtain ⟨⟨hresume, hcancel⟩, hops⟩ := List.forall_mem_cons.mp hops
    obtain ⟨⟨notified₁, hw₁⟩, hreading₁⟩ := h.held_back hw hstep hresume hcancel
    obtain ⟨hw', hreading⟩ := ih (h.step hstep) hw₁ hops hrest
    exact ⟨hw', fun t ht => hreading₁ t (hreading t ht)⟩

/-- In every run a writer is inside alone, the counters are right, and while a writer waits no
reader comes in, whatever the other tasks do. -/
theorem rwLock_exclusive (ops : List LockOp) (hrun : init.run ops = some σ) :
    (∀ t t' : Nat, σ.tasks[t]? = some .writing →
        σ.tasks[t']? ≠ some .reading ∧ (σ.tasks[t']? = some .writing → t' = t)) ∧
      σ.readers = (σ.tasks.count .reading : Nat) ∧
      σ.waitingWriters = (σ.tasks.countP LockTask.isWriterWaits : Nat) ∧
      ∀ (w : Nat) (notified : Bool) (after : List LockOp) (σ' : RWLock),
        σ.tasks[w]? = some (.writerWaits notified) →
        (∀ op ∈ after, op ≠ .resume w ∧ op ≠ .cancelWriter w) → σ.run after = some σ' →
        ∀ t : Nat, σ'.tasks[t]? = some .reading → σ.tasks[t]? = some .reading := by
  have h := counted_init.run ops hrun
  refine ⟨fun t t' ht => ⟨fun ht' => ?_, h.one_writer ht⟩, h.readers, h.waiting,
    fun w notified after σ' hw hafter hrun' => (h.runs_held_back after hw hafter hrun').2⟩
  have hinside := h.reader_inside ht'
  have halone := h.alone (h.writer_inside ht)
  omega

theorem rwLock_exclusive_queue : ∃ σ σ' : RWLock, init.run queue = some σ ∧
    σ.run [.releaseReader 0, .resume 2] = some σ' ∧
    ∀ t : Nat, σ'.tasks[t]? = some .reading → σ.tasks[t]? = some .reading :=
  ⟨_, _, rfl, rfl,
    (rwLock_exclusive queue rfl).2.2.2 1 false [.releaseReader 0, .resume 2] _ rfl (by decide) rfl⟩

theorem sum_set (f : LockTask → Nat) (tasks : List LockTask) (task : LockTask)
    (ht : tasks[t]? = some old) :
    ((tasks.set t task).map f).sum + f old = (tasks.map f).sum + f task := by
  induction tasks generalizing t with
  | nil => exact nomatch ht
  | cons first tasks ih =>
    cases t with
    | zero =>
      cases Option.some.inj ht
      simp only [List.set_cons_zero, List.map_cons, List.sum_cons]
      omega
    | succ t =>
      have hrest := ih (t := t) ht
      simp only [List.set_cons_succ, List.map_cons, List.sum_cons]
      omega

theorem sum_le (f g : LockTask → Nat) (tasks : List LockTask) (k : Nat)
    (h : ∀ task, f task ≤ g task + k) :
    (tasks.map f).sum ≤ (tasks.map g).sum + tasks.length * k := by
  induction tasks with
  | nil => exact Nat.zero_le _
  | cons first tasks ih =>
    have hfirst := h first
    rw [List.map_cons, List.sum_cons, List.map_cons, List.sum_cons, List.length_cons, Nat.succ_mul]
    omega

/-- A bound on the steps of the tasks that have called. -/
def left (σ : RWLock) : Nat := (σ.tasks.map (LockTask.left σ.tasks.length)).sum

theorem left_le (σ : RWLock) : σ.left ≤ σ.tasks.length * (σ.tasks.length + 2) := by
  have hle := sum_le (LockTask.left σ.tasks.length) (fun _ => 0) σ.tasks (σ.tasks.length + 2) (by
    intro task
    unfold LockTask.left
    split <;> omega)
  rw [List.map_const', List.sum_replicate_nat, Nat.mul_zero, Nat.zero_add] at hle
  exact hle

theorem left_setTask (ht : σ.tasks[t]? = some old) (task : LockTask) :
    (σ.setTask t task).left + old.left σ.tasks.length = σ.left + task.left σ.tasks.length := by
  unfold left setTask
  rw [List.length_set]
  exact sum_set _ σ.tasks task ht

/-- A notification is worth one step of each task. -/
theorem left_notifyAll (σ : RWLock) : σ.notifyAll.left ≤ σ.left + σ.tasks.length := by
  unfold left notifyAll
  rw [List.length_map, List.map_map]
  have hle := sum_le (LockTask.left σ.tasks.length ∘ LockTask.notify)
    (LockTask.left σ.tasks.length) σ.tasks 1 (by
      rintro (_ | _ | _ | _ | _) <;> simp only [Function.comp, LockTask.notify, LockTask.left]
      case readerWaits notified => cases notified <;> simp only <;> omega
      case writerWaits notified => cases notified <;> simp only <;> omega
      all_goals omega)
  omega

theorem left_release (ht : σ.tasks[t]? = some old)
    (hold : old.left σ.tasks.length = σ.tasks.length + 1) :
    (σ.setTask t .idle).notifyAll.tasks.length = σ.tasks.length ∧
      (σ.setTask t .idle).notifyAll.left + 1 ≤ σ.left := by
  have hset := left_setTask ht .idle
  have hnotify := left_notifyAll (σ.setTask t .idle)
  have hlen : (σ.setTask t .idle).tasks.length = σ.tasks.length := List.length_set
  have hidle : LockTask.left σ.tasks.length .idle = 0 := rfl
  rw [hold, hidle] at hset
  exact ⟨(List.length_map _).trans hlen, by omega⟩

theorem left_enter (ht : σ.tasks[t]? = some old)
    (hold : old.left σ.tasks.length = σ.tasks.length + 2)
    (task : LockTask) (htask : task.left σ.tasks.length = σ.tasks.length + 1) :
    (σ.setTask t task).tasks.length = σ.tasks.length ∧ (σ.setTask t task).left + 1 ≤ σ.left := by
  have hset := left_setTask ht task
  exact ⟨List.length_set, by omega⟩

/-- A step of a task that has called already. -/
theorem left_step {op : LockOp} (hop : op.drains = true) (hstep : σ.step op = some σ') :
    σ'.tasks.length = σ.tasks.length ∧ σ'.left + 1 ≤ σ.left := by
  cases turn_of_step hstep with
  | spawn => exact nomatch hop
  | callReader => exact nomatch hop
  | @leave t ht =>
    have hset := left_setTask ht .idle
    refine ⟨List.length_set, ?_⟩
    show (σ.setTask t .idle).left + 1 ≤ σ.left
    simp only [LockTask.left] at hset
    omega
  | @leaveLast t ht => exact left_release ht rfl
  | callWriter => exact nomatch hop
  | @releaseWriter t ht => exact left_release ht rfl
  | @resumeReader t ht =>
    unfold enterReader
    split
    next => exact left_enter ht rfl _ rfl
    next => exact left_enter ht rfl .reading rfl
  | @resumeWriter t ht =>
    unfold enterWriter
    split
    next => exact left_enter ht rfl _ rfl
    next => exact left_enter ht rfl .writing rfl
  | cancelReader => exact nomatch hop
  | cancelWriter => exact nomatch hop

/-- The tasks that have called take a bounded number of steps. -/
theorem left_run (ops : List LockOp) {σ : RWLock} (hops : ∀ op ∈ ops, op.drains = true)
    (hrun : σ.run ops = some σ') : ops.length + σ'.left ≤ σ.left := by
  induction ops generalizing σ with
  | nil =>
    cases Option.some.inj hrun
    exact Nat.le_of_eq (Nat.zero_add _)
  | cons op ops ih =>
    obtain ⟨σ₁, hstep, hrest⟩ := Option.bind_eq_some_iff.mp hrun
    obtain ⟨hop, hops⟩ := List.forall_mem_cons.mp hops
    have hone := (left_step hop hstep).2
    have htail := ih hops hrest
    rw [List.length_cons]
    omega

theorem number_eq_zero {p : LockTask → Bool}
    (h : ∀ (t : Nat) (task : LockTask), σ.tasks[t]? = some task → p task = false) :
    σ.number p = 0 := by
  apply List.countP_eq_zero.mpr
  intro task hmem
  obtain ⟨t, ht⟩ := List.mem_iff_getElem?.mp hmem
  rw [h t task ht]
  exact nofun

/-- When no task that has called can go on, all are done. -/
theorem Watched.all_idle (h : σ.Watched) (hcounted : σ.Counted)
    (hstuck : ∀ op : LockOp, op.drains = true → σ.step op = none) :
    ∀ task ∈ σ.tasks, task = .idle := by
  have hreading : ∀ t : Nat, σ.tasks[t]? ≠ some .reading := by
    intro t ht
    have hnone : σ.releaseReader t = none := hstuck (.releaseReader t) rfl
    unfold releaseReader at hnone
    rw [if_pos ht] at hnone
    exact nomatch hnone
  have hwriting : ∀ t : Nat, σ.tasks[t]? ≠ some .writing := by
    intro t ht
    have hnone : σ.releaseWriter t = none := hstuck (.releaseWriter t) rfl
    unfold releaseWriter at hnone
    rw [if_pos ht] at hnone
    exact nomatch hnone
  have hresume : ∀ t : Nat, σ.tasks[t]? ≠ some (.readerWaits true) ∧
      σ.tasks[t]? ≠ some (.writerWaits true) := by
    intro t
    have hnone : σ.resume t = none := hstuck (.resume t) rfl
    unfold resume at hnone
    constructor <;> intro ht <;> rw [ht] at hnone <;> exact nomatch hnone
  have hreaders : σ.readers = 0 := by
    have hcount := hcounted.readers
    rw [number_eq_zero fun t task ht => ?_] at hcount
    · exact hcount
    · exact beq_false_of_ne fun heq => hreading t (heq ▸ ht)
  have hactive : σ.writerActive = false := by
    have hcount := hcounted.writer
    rw [number_eq_zero fun t task ht => ?_] at hcount
    · cases hactive : σ.writerActive with
      | true =>
        rw [hactive] at hcount
        exact nomatch hcount
      | false => rfl
    · exact beq_false_of_ne fun heq => hwriting t (heq ▸ ht)
  have hwriter : .writerWaits false ∉ σ.tasks := by
    intro hmem
    rcases h.writer hmem with hin | hin
    · exact absurd (hin.symm.trans hactive) (by decide)
    · omega
  have hwaiting : σ.waitingWriters = 0 := by
    have hcount := hcounted.waiting
    rw [number_eq_zero fun t task ht => ?_] at hcount
    · exact hcount
    · rcases task with _ | _ | _ | notified | _
      case writerWaits =>
        cases notified with
        | true => exact absurd ht (hresume t).2
        | false => exact absurd (List.mem_of_getElem? ht) hwriter
      all_goals rfl
  have hreader : .readerWaits false ∉ σ.tasks := by
    intro hmem
    rcases h.reader hmem with hin | hin
    · exact absurd (hin.symm.trans hactive) (by decide)
    · omega
  intro task hmem
  obtain ⟨t, ht⟩ := List.mem_iff_getElem?.mp hmem
  rcases task with _ | notified | _ | notified | _
  · rfl
  · cases notified with
    | true => exact absurd ht (hresume t).1
    | false => exact absurd hmem hreader
  · exact absurd ht (hreading t)
  · cases notified with
    | true => exact absurd ht (hresume t).2
    | false => exact absurd hmem hwriter
  · exact absurd ht (hwriting t)

/-- As long as no writer is cancelled while it waits, nobody waits forever: the tasks that have
called come to an end in a bounded number of steps, in whatever order they run, and then all
have had the lock. -/
theorem rwLock_drains (ops : List LockOp) (hrun : init.run ops = some σ)
    (hops : ∀ op ∈ ops, op.cancelsWriter = false) (after : List LockOp)
    (hafter : ∀ op ∈ after, op.drains = true) (hrun' : σ.run after = some σ') :
    after.length ≤ σ.tasks.length * (σ.tasks.length + 2) ∧
      ((∀ op : LockOp, op.drains = true → σ'.step op = none) → ∀ task ∈ σ'.tasks, task = .idle) := by
  have hcounted := counted_init.run ops hrun
  have hwatched := watched_init.run ops counted_init hops hrun
  constructor
  · have hrest := left_run after hafter hrun'
    have hleft := left_le σ
    omega
  · intro hstuck
    have hcancel : ∀ op ∈ after, op.cancelsWriter = false := by
      intro op hmem
      have hdrains := hafter op hmem
      cases op <;> first | rfl | exact nomatch hdrains
    exact (hwatched.run after hcounted hcancel hrun').all_idle (hcounted.run after hrun') hstuck

theorem rwLock_drains_queue : ∃ σ σ' : RWLock, init.run queue = some σ ∧
    σ.run [.releaseReader 0, .resume 2, .resume 1, .releaseWriter 1, .resume 2, .releaseReader 2] =
      some σ' ∧
    ∀ task ∈ σ'.tasks, task = .idle := by
  refine ⟨_, _, rfl, rfl, (rwLock_drains queue rfl (by decide) [.releaseReader 0, .resume 2,
    .resume 1, .releaseWriter 1, .resume 2, .releaseReader 2] (by decide) rfl).2 fun op hop => ?_⟩
  cases op with
  | releaseReader t => rcases t with _ | _ | _ | t <;> rfl
  | releaseWriter t => rcases t with _ | _ | _ | t <;> rfl
  | resume t => rcases t with _ | _ | _ | t <;> rfl
  | _ => exact nomatch hop

-- a writer that is cancelled after its notification leaves a reader that nobody notifies
example : (init.run (queue ++ [.releaseReader 0, .resume 2, .cancelWriter 1])).map
    (fun σ => (σ.readers, σ.writerActive, σ.waitingWriters, σ.tasks)) =
      some (0, false, 0, [.idle, .idle, .readerWaits false]) := rfl

end RWLock

end FastPP
