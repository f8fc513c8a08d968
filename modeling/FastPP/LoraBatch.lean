import FastPP.LoraGrants
import Mathlib.Algebra.Order.Ring.Int
import Mathlib.Data.Fintype.Option

namespace FastPP

variable {α ι K : Type} [DecidableEq α] [Mul K] [Zero K]

/-- Every active uid has a slot of its own, which holds its weights. -/
structure LoRAPool.Assigned (lm : LoRAManager α ι K) (pool : LoRAPool α ι K) : Prop where
  injective : ∀ u ∈ pool.activeUids, ∀ v ∈ pool.activeUids,
    pool.bufferId u = pool.bufferId v → u = v
  placed : ∀ u ∈ pool.activeUids, ∃ s, pool.bufferId u = some s ∧ s < lm.maxLorasPerBatch ∧
    lm.Holds pool u s

/-- The slots in use are the first ones, which is what the counter `j` relies on. -/
structure LoRAPool.Packed (lm : LoRAManager α ι K) (pool : LoRAPool α ι K) : Prop where
  card_le : pool.activeUids.card ≤ lm.maxLorasPerBatch
  slot_lt : ∀ u ∈ pool.activeUids, ∃ s, pool.bufferId u = some s ∧ s < pool.activeUids.card

namespace LoRAManager

/-- What a call is to leave behind. -/
structure Prepared (lm : LoRAManager α ι K) (call : LoRACall α) (pool : LoRAPool α ι K)
    (weightIndices : Option (List Nat)) : Prop where
  assigned : pool.Assigned lm
  active : ∀ u ∈ call.loraPaths, u ∈ pool.activeUids
  indices : call.loraPaths.toFinset ≠ {none} →
    ∃ l, weightIndices = some l ∧ l.map some = call.loraPaths.map pool.bufferId

variable {lm : LoRAManager α ι K} {pool : LoRAPool α ι K} {call : LoRACall α}

section Call

variable (hpacked : pool.Packed lm) (hsize : call.loraPaths.toFinset.card ≤ lm.maxLorasPerBatch)

include hpacked hsize

end Call

/-- `P` holds of every call of the sequence, with the state before it. -/
def Throughout (lm : LoRAManager α ι K) (P : LoRAPool α ι K → LoRACall α → Prop) :
    LoRAPool α ι K → List (LoRACall α) → Prop
  | _, [] => True
  | pool, call :: calls => P pool call ∧
      ∀ pool' weightIndices, lm.prepareLoraBatch pool call = some (pool', weightIndices) →
        Throughout lm P pool' calls

def runCalls (lm : LoRAManager α ι K) :
    LoRAPool α ι K → List (LoRACall α) → Option (LoRAPool α ι K)
  | pool, [] => some pool
  | pool, call :: calls => do
    let (pool, _) ← lm.prepareLoraBatch pool call
    lm.runCalls pool calls

theorem Throughout.assigned {calls : List (LoRACall α)} {pool' : LoRAPool α ι K}
    (h : lm.Throughout (fun pool call => ∃ pool' weightIndices,
      lm.prepareLoraBatch pool call = some (pool', weightIndices) ∧
        lm.Prepared call pool' weightIndices) pool calls)
    (hassigned : pool.Assigned lm) (hrun : lm.runCalls pool calls = some pool') :
    pool'.Assigned lm := by
  induction calls generalizing pool with
  | nil =>
    obtain rfl := Option.some.inj hrun
    exact hassigned
  | cons call calls ih =>
    obtain ⟨⟨mid, w, hprep, hprepared⟩, hafter⟩ := h
    obtain ⟨⟨mid', w'⟩, hprep', hrun⟩ := Option.bind_eq_some_iff.mp hrun
    obtain ⟨rfl, rfl⟩ := Prod.mk.inj (Option.some.inj (hprep.symm.trans hprep'))
    exact ih (hafter mid w hprep) hprepared.assigned hrun

end LoRAManager

/-- Sets listed in the order of a list of all values. -/
def IterationOrder.ofList {β : Type} [DecidableEq β] (all : List β) (hnodup : all.Nodup)
    (hall : ∀ x, x ∈ all) : IterationOrder β where
  list s := all.filter (· ∈ s)
  nodup s := hnodup.filter _
  mem_list s x := by simp [hall]

end FastPP
