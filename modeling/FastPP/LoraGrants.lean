import FastPP.LoraSlots

namespace FastPP

namespace LoRAManager

variable {α ι K : Type} [DecidableEq α] [Mul K] [Zero K]

/-- What is needed of a list of grants to follow it: nobody is named twice. -/
structure Distinct (gs : List (LoRAGrant α)) : Prop where
  uids : (gs.map (·.uid)).Nodup
  slots : (gs.map (·.slot)).Nodup
  kept : ∀ g ∈ gs, ∀ g' ∈ gs, g'.victim ≠ some g.uid

omit [DecidableEq α] in
theorem Distinct.tail {g : LoRAGrant α} {gs : List (LoRAGrant α)} (h : Distinct (g :: gs)) :
    Distinct gs :=
  ⟨(List.nodup_cons.mp h.uids).2, (List.nodup_cons.mp h.slots).2, fun a ha b hb =>
    h.kept a (List.mem_cons_of_mem _ ha) b (List.mem_cons_of_mem _ hb)⟩

end LoRAManager

namespace LoRAManager

section

variable {α : Type}

end

variable {α ι K : Type} [DecidableEq α] (lm : LoRAManager α ι K) {pool : LoRAPool α ι K} {call : LoRACall α}

variable {lm}

end LoRAManager

end FastPP
