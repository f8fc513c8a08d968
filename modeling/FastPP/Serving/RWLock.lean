import Mathlib.Algebra.Ring.Nat
import Mathlib.Data.List.Basic

namespace FastPP

/-- Where a task is: it awaits `_cond`, `notified` or not, or it is inside. -/
inductive LockTask
  | idle
  | readerWaits (notified : Bool)
  | reading
  | writerWaits (notified : Bool)
  | writing
  deriving DecidableEq

namespace LockTask

def notify : LockTask → LockTask
  | .readerWaits _ => .readerWaits true
  | .writerWaits _ => .writerWaits true
  | task => task

def isWriterWaits : LockTask → Bool
  | .writerWaits _ => true
  | _ => false

/-- The steps that a task has left, each `notify_all` of another task counted with it. -/
def left (n : Nat) : LockTask → Nat
  | .idle => 0
  | .reading | .writing | .readerWaits false | .writerWaits false => n + 1
  | .readerWaits true | .writerWaits true => n + 2

end LockTask

/-- `RWLock` with its tasks. A task that has `_lock` is suspended only in `_cond.wait()`, which
releases it, so what a task does with `_lock` is one step. -/
structure RWLock where
  readers : Int
  writerActive : Bool
  waitingWriters : Int
  tasks : List LockTask

/-- A task starts, calls, goes on after `_cond.wait()`, or is cancelled there. -/
inductive LockOp
  | spawn
  | acquireReader (t : Nat)
  | releaseReader (t : Nat)
  | acquireWriter (t : Nat)
  | releaseWriter (t : Nat)
  | resume (t : Nat)
  | cancelReader (t : Nat)
  | cancelWriter (t : Nat)
  deriving DecidableEq

namespace RWLock

def init : RWLock := ⟨0, false, 0, []⟩

def setTask (σ : RWLock) (t : Nat) (task : LockTask) : RWLock :=
  { σ with tasks := σ.tasks.set t task }

def notifyAll (σ : RWLock) : RWLock := { σ with tasks := σ.tasks.map LockTask.notify }

/-- The loop of `acquire_reader`, up to its next suspension. -/
def enterReader (σ : RWLock) (t : Nat) : RWLock :=
  if σ.writerActive = true ∨ 0 < σ.waitingWriters then σ.setTask t (.readerWaits false)
  else { σ.setTask t .reading with readers := σ.readers + 1 }

/-- The loop of `acquire_writer`, up to its next suspension. -/
def enterWriter (σ : RWLock) (t : Nat) : RWLock :=
  if σ.writerActive = true ∨ 0 < σ.readers then σ.setTask t (.writerWaits false)
  else { σ.setTask t .writing with writerActive := true, waitingWriters := σ.waitingWriters - 1 }

def acquireReader (σ : RWLock) (t : Nat) : Option RWLock :=
  if σ.tasks[t]? = some .idle then some (σ.enterReader t) else none

def releaseReader (σ : RWLock) (t : Nat) : Option RWLock :=
  if σ.tasks[t]? = some .reading then
    let σ := { σ.setTask t .idle with readers := σ.readers - 1 }
    some (if σ.readers = 0 then σ.notifyAll else σ)
  else none

def acquireWriter (σ : RWLock) (t : Nat) : Option RWLock :=
  if σ.tasks[t]? = some .idle then
    some (enterWriter { σ with waitingWriters := σ.waitingWriters + 1 } t)
  else none

def releaseWriter (σ : RWLock) (t : Nat) : Option RWLock :=
  if σ.tasks[t]? = some .writing then
    some (notifyAll { σ.setTask t .idle with writerActive := false })
  else none

def resume (σ : RWLock) (t : Nat) : Option RWLock :=
  match σ.tasks[t]? with
  | some (.readerWaits true) => some (σ.enterReader t)
  | some (.writerWaits true) => some (σ.enterWriter t)
  | _ => none

def cancelReader (σ : RWLock) (t : Nat) : Option RWLock :=
  match σ.tasks[t]? with
  | some (.readerWaits _) => some (σ.setTask t .idle)
  | _ => none

/-- The `finally` of `acquire_writer` runs, and nobody is notified. -/
def cancelWriter (σ : RWLock) (t : Nat) : Option RWLock :=
  match σ.tasks[t]? with
  | some (.writerWaits _) =>
    some { σ.setTask t .idle with waitingWriters := σ.waitingWriters - 1 }
  | _ => none

def step (σ : RWLock) : LockOp → Option RWLock
  | .spawn => some { σ with tasks := σ.tasks ++ [.idle] }
  | .acquireReader t => σ.acquireReader t
  | .releaseReader t => σ.releaseReader t
  | .acquireWriter t => σ.acquireWriter t
  | .releaseWriter t => σ.releaseWriter t
  | .resume t => σ.resume t
  | .cancelReader t => σ.cancelReader t
  | .cancelWriter t => σ.cancelWriter t

def run (σ : RWLock) (ops : List LockOp) : Option RWLock := ops.foldlM step σ

/-- A writer and then a reader wait for a reader. -/
def queue : List LockOp :=
  [.spawn, .spawn, .spawn, .acquireReader 0, .acquireWriter 1, .acquireReader 2]

end RWLock

namespace LockOp

/-- The steps of the tasks that have called already. -/
def drains : LockOp → Bool
  | .releaseReader _ | .releaseWriter _ | .resume _ => true
  | _ => false

def cancelsWriter : LockOp → Bool
  | .cancelWriter _ => true
  | _ => false

end LockOp

namespace RWLock

variable {σ σ' : RWLock} {t n : Nat} {task old : LockTask}

/-- How many tasks are at one of the places. -/
def number (σ : RWLock) (p : LockTask → Bool) : Nat := σ.tasks.countP p

theorem number_setTask (p : LockTask → Bool) (h : σ.tasks[t]? = some old) (task : LockTask) :
    (σ.setTask t task).number p + (p old).toNat = σ.number p + (p task).toNat := by
  obtain ⟨hlt, hold⟩ := List.getElem?_eq_some_iff.mp h
  have hpos : p old = true → 0 < σ.tasks.countP p := fun hp =>
    List.countP_pos_iff.mpr ⟨old, List.mem_of_getElem? h, hp⟩
  unfold number setTask
  rw [List.countP_set hlt, hold]
  cases hp : p old with
  | true =>
    have hone := hpos hp
    cases p task <;> simp <;> omega
  | false => cases p task <;> simp

theorem number_notifyAll {p : LockTask → Bool} (hp : ∀ task, p task.notify = p task) :
    σ.notifyAll.number p = σ.number p := by
  unfold number notifyAll
  rw [List.countP_map]
  congr 1
  exact funext hp

/-- The counters are what they count, and a writer is inside alone. -/
structure Counted (σ : RWLock) : Prop where
  readers : σ.readers = σ.number (· == .reading)
  waiting : σ.waitingWriters = σ.number LockTask.isWriterWaits
  writer : σ.number (· == .writing) = σ.writerActive.toNat
  alone : σ.writerActive = true → σ.readers = 0

theorem Counted.notifyAll (h : σ.Counted) : σ.notifyAll.Counted := by
  have hr : σ.notifyAll.number (· == .reading) = σ.number (· == .reading) :=
    number_notifyAll fun task => by cases task <;> rfl
  have hw : σ.notifyAll.number LockTask.isWriterWaits = σ.number LockTask.isWriterWaits :=
    number_notifyAll fun task => by cases task <;> rfl
  have hi : σ.notifyAll.number (· == .writing) = σ.number (· == .writing) :=
    number_notifyAll fun task => by cases task <;> rfl
  exact ⟨hr ▸ h.readers, hw ▸ h.waiting, hi ▸ h.writer, h.alone⟩

/-- Counters that change with the task are right again. -/
theorem Counted.change (h : σ.Counted) (ht : σ.tasks[t]? = some old) {task : LockTask}
    {readers waitingWriters : Int} {writerActive : Bool}
    (hreaders : readers + (old == .reading).toNat = σ.readers + (task == .reading).toNat)
    (hwaiting : waitingWriters + old.isWriterWaits.toNat =
      σ.waitingWriters + task.isWriterWaits.toNat)
    (hwriter : writerActive.toNat + (old == .writing).toNat =
      σ.writerActive.toNat + (task == .writing).toNat)
    (halone : writerActive = true → readers = 0) :
    Counted ⟨readers, writerActive, waitingWriters, σ.tasks.set t task⟩ := by
  have hr := number_setTask (· == .reading) ht task
  have hw := number_setTask LockTask.isWriterWaits ht task
  have hi := number_setTask (· == .writing) ht task
  refine ⟨?_, ?_, ?_, halone⟩
  · have hcount := h.readers
    show readers = ((σ.setTask t task).number (· == .reading) : Nat)
    omega
  · have hcount := h.waiting
    show waitingWriters = ((σ.setTask t task).number LockTask.isWriterWaits : Nat)
    omega
  · have hcount := h.writer
    show (σ.setTask t task).number (· == .writing) = writerActive.toNat
    omega

/-- A task that is suspended in `acquire_reader` goes on. -/
theorem Counted.enterReader (h : σ.Counted) (ht : σ.tasks[t]? = some (.readerWaits true)) :
    (σ.enterReader t).Counted := by
  unfold RWLock.enterReader
  split
  next => exact h.change ht rfl rfl rfl h.alone
  next hfree =>
    exact h.change ht (Int.add_zero _) rfl rfl fun hactive => absurd (.inl hactive) hfree

theorem Counted.enterWriter (h : σ.Counted) (ht : σ.tasks[t]? = some (.writerWaits true)) :
    (σ.enterWriter t).Counted := by
  unfold RWLock.enterWriter
  split
  next => exact h.change ht rfl rfl rfl h.alone
  next hfree =>
    have hactive : σ.writerActive = false := eq_false_of_ne_true fun hactive => hfree (.inl hactive)
    refine h.change ht rfl (by simp [LockTask.isWriterWaits]) (by rw [hactive]; rfl) fun _ => ?_
    have hcount := h.readers
    show σ.readers = 0
    omega

theorem setTask_setTask (σ : RWLock) (t : Nat) (task task' : LockTask) :
    (σ.setTask t task).setTask t task' = σ.setTask t task' := by
  unfold setTask
  rw [List.set_set]

/-- A call goes on like a task that waits. -/
theorem enterReader_queued (σ : RWLock) (t : Nat) (task : LockTask) :
    (σ.setTask t task).enterReader t = σ.enterReader t := by
  unfold enterReader
  rw [setTask_setTask, setTask_setTask]
  rfl

theorem enterWriter_queued (σ : RWLock) (t : Nat) (task : LockTask) :
    (σ.setTask t task).enterWriter t = σ.enterWriter t := by
  unfold enterWriter
  rw [setTask_setTask, setTask_setTask]
  rfl

theorem setTask_self (ht : σ.tasks[t]? = some old) (task : LockTask) :
    (σ.setTask t task).tasks[t]? = some task := by
  obtain ⟨hlt, _⟩ := List.getElem?_eq_some_iff.mp ht
  unfold setTask
  exact List.getElem?_set_self hlt

/-- What a step can do; a task that calls is queued first. -/
inductive Turn (σ : RWLock) : LockOp → RWLock → Prop
  | spawn : Turn σ .spawn { σ with tasks := σ.tasks ++ [.idle] }
  | callReader {t : Nat} (ht : σ.tasks[t]? = some .idle) :
      Turn σ (.acquireReader t) ((σ.setTask t (.readerWaits true)).enterReader t)
  | leave {t : Nat} (ht : σ.tasks[t]? = some .reading) (hmore : σ.readers - 1 ≠ 0) :
      Turn σ (.releaseReader t) { σ.setTask t .idle with readers := σ.readers - 1 }
  | leaveLast {t : Nat} (ht : σ.tasks[t]? = some .reading) (hlast : σ.readers - 1 = 0) :
      Turn σ (.releaseReader t) (notifyAll { σ.setTask t .idle with readers := σ.readers - 1 })
  | callWriter {t : Nat} (ht : σ.tasks[t]? = some .idle) :
      Turn σ (.acquireWriter t) (enterWriter
        { σ.setTask t (.writerWaits true) with waitingWriters := σ.waitingWriters + 1 } t)
  | releaseWriter {t : Nat} (ht : σ.tasks[t]? = some .writing) :
      Turn σ (.releaseWriter t) (notifyAll { σ.setTask t .idle with writerActive := false })
  | resumeReader {t : Nat} (ht : σ.tasks[t]? = some (.readerWaits true)) :
      Turn σ (.resume t) (σ.enterReader t)
  | resumeWriter {t : Nat} (ht : σ.tasks[t]? = some (.writerWaits true)) :
      Turn σ (.resume t) (σ.enterWriter t)
  | cancelReader {t : Nat} {notified : Bool}
      (ht : σ.tasks[t]? = some (.readerWaits notified)) :
      Turn σ (.cancelReader t) (σ.setTask t .idle)
  | cancelWriter {t : Nat} {notified : Bool}
      (ht : σ.tasks[t]? = some (.writerWaits notified)) :
      Turn σ (.cancelWriter t)
        { σ.setTask t .idle with waitingWriters := σ.waitingWriters - 1 }

theorem turn_of_step {op : LockOp} (hstep : σ.step op = some σ') : Turn σ op σ' := by
  cases op with
  | spawn =>
    cases Option.some.inj hstep
    exact .spawn
  | acquireReader t =>
    obtain ⟨ht, hσ'⟩ := Option.ite_none_right_eq_some.mp hstep
    cases Option.some.inj hσ'
    rw [← enterReader_queued σ t (.readerWaits true)]
    exact .callReader ht
  | releaseReader t =>
    obtain ⟨ht, hσ'⟩ := Option.ite_none_right_eq_some.mp hstep
    cases Option.some.inj hσ'
    split
    next hlast => exact .leaveLast ht hlast
    next hmore => exact .leave ht hmore
  | acquireWriter t =>
    obtain ⟨ht, hσ'⟩ := Option.ite_none_right_eq_some.mp hstep
    cases Option.some.inj hσ'
    rw [← enterWriter_queued _ t (.writerWaits true)]
    exact .callWriter ht
  | releaseWriter t =>
    obtain ⟨ht, hσ'⟩ := Option.ite_none_right_eq_some.mp hstep
    cases Option.some.inj hσ'
    exact .releaseWriter ht
  | resume t =>
    simp only [step, resume] at hstep
    split at hstep
    next ht =>
      cases Option.some.inj hstep
      exact .resumeReader ht
    next ht =>
      cases Option.some.inj hstep
      exact .resumeWriter ht
    next => exact nomatch hstep
  | cancelReader t =>
    simp only [step, cancelReader] at hstep
    split at hstep
    next ht =>
      cases Option.some.inj hstep
      exact .cancelReader ht
    next => exact nomatch hstep
  | cancelWriter t =>
    simp only [step, cancelWriter] at hstep
    split at hstep
    next ht =>
      cases Option.some.inj hstep
      exact .cancelWriter ht
    next => exact nomatch hstep

theorem Counted.reader_inside (h : σ.Counted) (ht : σ.tasks[t]? = some .reading) :
    0 < σ.readers := by
  have hpos : 0 < σ.tasks.countP (· == .reading) :=
    List.countP_pos_iff.mpr ⟨_, List.mem_of_getElem? ht, rfl⟩
  have hcount : σ.readers = (σ.tasks.countP (· == .reading) : Nat) := h.readers
  omega

theorem Counted.writer_inside (h : σ.Counted) (ht : σ.tasks[t]? = some .writing) :
    σ.writerActive = true := by
  have hpos : 0 < σ.tasks.countP (· == .writing) :=
    List.countP_pos_iff.mpr ⟨_, List.mem_of_getElem? ht, rfl⟩
  have hcount : σ.tasks.countP (· == .writing) = σ.writerActive.toNat := h.writer
  cases hactive : σ.writerActive with
  | true => rfl
  | false =>
    rw [hactive] at hcount
    exact absurd hpos (by rw [hcount]; decide)

theorem Counted.leave (h : σ.Counted) (ht : σ.tasks[t]? = some .reading) :
    Counted { σ.setTask t .idle with readers := σ.readers - 1 } := by
  have hinside := h.reader_inside ht
  refine h.change ht ?_ rfl rfl fun hactive => ?_
  · show σ.readers - 1 + 1 = σ.readers + 0
    omega
  · have halone := h.alone hactive
    omega

theorem Counted.step {op : LockOp} (h : σ.Counted) (hstep : σ.step op = some σ') : σ'.Counted := by
  cases turn_of_step hstep with
  | spawn =>
    refine ⟨?_, ?_, ?_, h.alone⟩ <;> unfold number <;> rw [List.countP_append]
    · exact h.readers
    · exact h.waiting
    · exact h.writer
  | @callReader t ht =>
    have hqueued : Counted (σ.setTask t (.readerWaits true)) :=
      h.change ht rfl rfl rfl h.alone
    exact hqueued.enterReader (setTask_self ht _)
  | leave ht => exact h.leave ht
  | leaveLast ht => exact (h.leave ht).notifyAll
  | @callWriter t ht =>
    have hqueued : Counted
        { σ.setTask t (.writerWaits true) with waitingWriters := σ.waitingWriters + 1 } :=
      h.change ht rfl (Int.add_zero _) rfl h.alone
    exact hqueued.enterWriter (setTask_self ht _)
  | releaseWriter ht =>
    have hactive := h.writer_inside ht
    exact Counted.notifyAll (h.change ht rfl rfl (by rw [hactive]; rfl) nofun)
  | resumeReader ht => exact h.enterReader ht
  | resumeWriter ht => exact h.enterWriter ht
  | cancelReader ht => exact h.change ht rfl rfl rfl h.alone
  | cancelWriter ht => exact h.change ht rfl (by simp [LockTask.isWriterWaits]) rfl h.alone

end RWLock

end FastPP
