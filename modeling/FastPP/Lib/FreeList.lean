import Mathlib.Data.List.Nodup
import Mathlib.Data.List.Perm.Basic

/-! Conservation of slots: each one is free or in the hands of exactly one holder. -/

namespace FreeList

variable {ι α : Type*} {all free : List α} {slots slots' : ι → List α} {held held' : List ι}

/-- The free slots and those of the holders share out all slots. -/
def Conserved (all free : List α) (slots : ι → List α) (held : List ι) : Prop :=
  (free ++ held.flatMap slots).Perm all

theorem Conserved.perm (h : Conserved all free slots held) (hp : held.Perm held') :
    Conserved all free slots held' :=
  ((hp.flatMap_right slots).symm.append_left free).trans h

theorem Conserved.congr (h : Conserved all free slots held)
    (hslots : ∀ i ∈ held, slots' i = slots i) : Conserved all free slots' held := by
  unfold Conserved at h ⊢
  rwa [List.flatMap_congr hslots]

theorem Conserved.nodup_free (h : Conserved all free slots held) (hall : all.Nodup) :
    free.Nodup :=
  (List.nodup_append.mp (h.nodup_iff.mpr hall)).1

/-- A slot that is held is not free. -/
theorem Conserved.not_mem_free (h : Conserved all free slots held) (hall : all.Nodup) {i : ι}
    {a : α} (hi : i ∈ held) (ha : a ∈ slots i) : a ∉ free := by
  intro hfree
  have hdisj := (List.nodup_append.mp (h.nodup_iff.mpr hall)).2.2
  exact hdisj a hfree a (List.mem_flatMap.mpr ⟨i, hi, ha⟩) rfl

/-- With one slot a holder, what is not free counts the holders. -/
theorem Conserved.length_free (h : Conserved all free slots held)
    (hone : ∀ i ∈ held, (slots i).length = 1) : free.length + held.length = all.length := by
  have hheld : ∀ qs : List ι, (∀ i ∈ qs, (slots i).length = 1) →
      (qs.flatMap slots).length = qs.length := by
    intro qs
    induction qs with
    | nil => simp
    | cons q qs ih =>
      intro hqs
      rw [List.flatMap_cons, List.length_append, hqs q List.mem_cons_self,
        ih fun i hi => hqs i (List.mem_cons_of_mem q hi), List.length_cons]
      omega
  have hlength := h.length_eq
  rwa [List.length_append, hheld held hone] at hlength

/-- Some holders give their slots back. -/
theorem Conserved.release {gone : List ι} (h : Conserved all free slots (gone ++ held)) :
    Conserved all (free ++ gone.flatMap slots) slots held := by
  unfold Conserved at h ⊢
  rwa [List.append_assoc, ← List.flatMap_append]

/-- What the slots of some holders leave is shared out by the others. -/
theorem Conserved.forget {gone : List ι} (h : Conserved all free slots (gone ++ held)) :
    ((free ++ held.flatMap slots) ++ gone.flatMap slots).Perm all := by
  unfold Conserved at h
  rw [List.flatMap_append] at h
  rw [List.append_assoc]
  exact (List.perm_append_comm.append_left free).trans h

/-- New holders take slots from the front of the free list. -/
theorem Conserved.acquire {taken : List α} {new : List ι}
    (h : Conserved all (taken ++ free) slots held) (hnew : new.flatMap slots' = taken)
    (hold : ∀ i ∈ held, slots' i = slots i) : Conserved all free slots' (new ++ held) := by
  have h' := h.congr hold
  unfold Conserved at h' ⊢
  rw [List.flatMap_append, hnew, ← List.append_assoc]
  exact (List.perm_append_comm.append_right _).trans h'

end FreeList
