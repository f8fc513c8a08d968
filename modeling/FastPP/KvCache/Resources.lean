import FastPP.KvCache.State
import FastPP.Radix.CachedSlots
import Mathlib.Tactic.Abel

namespace FastPP

namespace TokenToKVPool

/-- The free slots, those of an open group among them. -/
def contents (pool : TokenToKVPool) : List Nat :=
  pool.freeSlots ++ if pool.isNotInFreeGroup then [] else pool.freeGroup.flatten

variable {pool : TokenToKVPool}

theorem contents_closed (h : pool.isNotInFreeGroup = true) : pool.contents = pool.freeSlots := by
  unfold contents
  rw [if_pos h, List.append_nil]

theorem contents_open (h : pool.isNotInFreeGroup = false) :
    pool.contents = pool.freeSlots ++ pool.freeGroup.flatten := by
  unfold contents
  rw [h]
  rfl

@[simp] theorem free_flag (freeIndex : List Nat) :
    (pool.free freeIndex).isNotInFreeGroup = pool.isNotInFreeGroup := by
  unfold free
  split
  next => rfl
  next => split <;> rfl

theorem free_contents (freeIndex : List Nat) :
    (pool.free freeIndex).contents = pool.contents ++ freeIndex := by
  cases hflag : pool.isNotInFreeGroup with
  | true =>
    rw [contents_closed ((free_flag freeIndex).trans hflag), contents_closed hflag]
    unfold free
    split
    next hempty => rw [List.length_eq_zero_iff.mp hempty, List.append_nil]
    next => rfl
  | false =>
    rw [contents_open ((free_flag freeIndex).trans hflag), contents_open hflag]
    unfold free
    split
    next hempty => rw [List.length_eq_zero_iff.mp hempty, List.append_nil]
    next => simp [hflag]

theorem freeAll_contents (pool : TokenToKVPool) (values : List (List Nat)) :
    (values.foldl free pool).contents = pool.contents ++ values.flatten ∧
      (values.foldl free pool).isNotInFreeGroup = pool.isNotInFreeGroup := by
  induction values generalizing pool with
  | nil => exact ⟨(List.append_nil _).symm, rfl⟩
  | cons value values ih =>
    obtain ⟨hcontents, hflag⟩ := ih (pool.free value)
    rw [List.foldl_cons, hcontents, hflag, free_contents, free_flag, List.flatten_cons,
      List.append_assoc]
    exact ⟨rfl, rfl⟩

theorem freeGroupBegin_contents (h : pool.isNotInFreeGroup = true) :
    pool.freeGroupBegin.contents = pool.contents := by
  rw [contents_closed h]
  exact List.append_nil _

theorem freeGroupEnd_flag : pool.freeGroupEnd.isNotInFreeGroup = true := by
  simp only [freeGroupEnd]
  split
  next => rfl
  next => rw [free_flag]

theorem freeGroupEnd_contents (h : pool.isNotInFreeGroup = false) :
    pool.freeGroupEnd.contents = pool.contents := by
  rw [contents_open h]
  simp only [freeGroupEnd]
  split
  next hgroup =>
    rw [contents_closed rfl, hgroup]
    exact (List.append_nil _).symm
  next => rw [free_contents, contents_closed rfl]

theorem alloc_contents {pool' : TokenToKVPool} {n : Nat} {loc : List Nat}
    (h : pool.alloc n = some (loc, pool')) :
    pool.contents = loc ++ pool'.contents ∧ loc.length = n ∧
      pool'.isNotInFreeGroup = pool.isNotInFreeGroup := by
  obtain ⟨⟨select, rest⟩, htake, hpool⟩ := Option.bind_eq_some_iff.mp h
  obtain ⟨rfl, rfl⟩ := Prod.mk.inj (Option.some.inj hpool)
  obtain ⟨hfree, hlen⟩ := takeFirst_eq htake
  refine ⟨?_, hlen, rfl⟩
  unfold contents
  rw [hfree, List.append_assoc]

end TokenToKVPool

namespace KvReq

def holdsLock (r : KvReq) : Bool :=
  match r.phase with
  | .waiting | .matched | .finished => false
  | _ => true

def holdsRow (r : KvReq) : Bool :=
  match r.phase with
  | .extend _ | .running | .decode => true
  | _ => false

/-- The node that the request has locked. -/
def lockOf (r : KvReq) : Multiset Nat := if r.holdsLock then {r.lastNode} else 0

/-- The row of `req_to_token` that the request has. -/
def rowOf (r : KvReq) : Multiset Nat := if r.holdsRow then {r.reqPoolIdx} else 0

theorem holdsLock_of_holdsRow {r : KvReq} (h : r.holdsRow = true) : r.holdsLock = true := by
  unfold holdsRow at h
  unfold holdsLock
  cases hphase : r.phase <;> rw [hphase] at h <;> first | rfl | exact absurd h (by decide)

end KvReq

namespace KvSystem

variable {κ : Type} {σ : KvSystem κ} {q p : Nat}

/-- The entries of the row of a request that belong to it alone. -/
def privateSlots (σ : KvSystem κ) (r : KvReq) : List Nat :=
  if r.holdsRow then (σ.kvIndices r r.seqLen).drop r.prefixIndices.length else []

def locks (σ : KvSystem κ) : Multiset Nat := ∑ q ∈ Finset.range σ.numReqs, (σ.reqs q).lockOf

def rows (σ : KvSystem κ) : Multiset Nat := ∑ q ∈ Finset.range σ.numReqs, (σ.reqs q).rowOf

def privates (σ : KvSystem κ) : Multiset Nat :=
  ∑ q ∈ Finset.range σ.numReqs, (σ.privateSlots (σ.reqs q) : Multiset Nat)

@[simp] theorem setReq_self (σ : KvSystem κ) (q : Nat) (r : KvReq) : (σ.setReq q r).reqs q = r := by
  unfold setReq
  exact Function.update_self q r σ.reqs

theorem setReq_other (σ : KvSystem κ) (r : KvReq) (hne : p ≠ q) :
    (σ.setReq q r).reqs p = σ.reqs p := by
  unfold setReq
  exact Function.update_of_ne hne r σ.reqs

/-- One request changes what it has. -/
theorem sum_setReq (f : KvReq → Multiset Nat) (hq : q < σ.numReqs) (r : KvReq) :
    (∑ p ∈ Finset.range σ.numReqs, f ((σ.setReq q r).reqs p)) + f (σ.reqs q) =
      (∑ p ∈ Finset.range σ.numReqs, f (σ.reqs p)) + f r := by
  have hmem := Finset.mem_range.mpr hq
  rw [← Finset.add_sum_erase _ _ hmem,
    ← Finset.add_sum_erase _ (fun p => f (σ.reqs p)) hmem]
  have hrest : (∑ p ∈ (Finset.range σ.numReqs).erase q, f ((σ.setReq q r).reqs p)) =
      ∑ p ∈ (Finset.range σ.numReqs).erase q, f (σ.reqs p) := by
    apply Finset.sum_congr rfl
    intro p hp
    rw [setReq_other σ r (Finset.ne_of_mem_erase hp)]
  rw [hrest, setReq_self]
  abel

/-- What the request gives up is what the hand gets. -/
theorem sum_transfer (f : KvReq → Multiset Nat) (hq : q < σ.numReqs) {r : KvReq}
    {x y : Multiset Nat} (hxy : f (σ.reqs q) + x = f r + y) :
    (∑ p ∈ Finset.range σ.numReqs, f ((σ.setReq q r).reqs p)) + y =
      (∑ p ∈ Finset.range σ.numReqs, f (σ.reqs p)) + x := by
  have hsum := sum_setReq f hq r
  apply add_right_cancel (b := f (σ.reqs q) + f r)
  calc (∑ p ∈ Finset.range σ.numReqs, f ((σ.setReq q r).reqs p)) + y + (f (σ.reqs q) + f r)
      = ((∑ p ∈ Finset.range σ.numReqs, f ((σ.setReq q r).reqs p)) + f (σ.reqs q)) +
          (f r + y) := by abel
    _ = ((∑ p ∈ Finset.range σ.numReqs, f (σ.reqs p)) + f r) + (f (σ.reqs q) + x) := by
      rw [hsum, hxy]
    _ = (∑ p ∈ Finset.range σ.numReqs, f (σ.reqs p)) + x + (f (σ.reqs q) + f r) := by abel

theorem le_sum (f : KvReq → Multiset Nat) (hq : q < σ.numReqs) :
    f (σ.reqs q) ≤ ∑ p ∈ Finset.range σ.numReqs, f (σ.reqs p) := by
  rw [← Finset.add_sum_erase _ (fun p => f (σ.reqs p)) (Finset.mem_range.mpr hq)]
  exact Multiset.le_add_right _ _

theorem add_le_sum (f : KvReq → Multiset Nat) (hq : q < σ.numReqs) (hp : p < σ.numReqs)
    (hne : p ≠ q) : f (σ.reqs q) + f (σ.reqs p) ≤
      ∑ p ∈ Finset.range σ.numReqs, f (σ.reqs p) := by
  rw [← Finset.add_sum_erase _ (fun p => f (σ.reqs p)) (Finset.mem_range.mpr hq),
    ← Finset.add_sum_erase _ (fun p => f (σ.reqs p))
      (Finset.mem_erase.mpr ⟨hne, Finset.mem_range.mpr hp⟩), ← add_assoc]
  exact Multiset.le_add_right _ _

end KvSystem

end FastPP
