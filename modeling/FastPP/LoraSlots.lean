import FastPP.LoraLoad

namespace FastPP

/-- A uid made active, its slot, and the uid evicted for it once the pool is full. -/
structure LoRAGrant (α : Type) where
  uid : Option α
  slot : Nat
  victim : Option (Option α)

section Evictions

variable {α : Type} [DecidableEq α] {cur : List (Option α)}

end Evictions

namespace LoRAManager

variable {α ι K : Type} [DecidableEq α]

variable [Mul K] [Zero K]

def grant (lm : LoRAManager α ι K) (pool : LoRAPool α ι K) (g : LoRAGrant α) :
    LoRAPool α ι K :=
  match g.victim with
  | none => (lm.loadLora g.uid g.slot pool).activate g.uid g.slot
  | some victim => (lm.loadLora g.uid g.slot (pool.evict victim)).activate g.uid g.slot

end LoRAManager

end FastPP
