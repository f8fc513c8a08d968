import Mathlib.Data.Finset.Card
import Mathlib.Data.Finset.Image
import Mathlib.Data.List.Infix
import Mathlib.Data.List.Nodup

namespace FastPP

/-- The order in which Python iterates over a set, which may be any. -/
structure IterationOrder (β : Type) where
  list : Finset β → List β
  nodup : ∀ s, (list s).Nodup
  mem_list : ∀ s x, x ∈ list s ↔ x ∈ s

inductive LoRAMatrix where
  | A | B
deriving DecidableEq, Repr

/-- The fixed part of `LoRAManager`. `α` are the names in `lora_paths`, a tensor of weights is
a function from its entries, and `target_weights` is listed in its iteration order. -/
structure LoRAManager (α ι K : Type) where
  maxLorasPerBatch : Nat
  numHiddenLayers : Nat
  targetWeights : List (String × String)
  loras : α → Nat → List (String × (ι → K))

/-- `A_buffer` and `B_buffer` by name, layer and slot, and which uid has which slot. -/
structure LoRAPool (α ι K : Type) where
  buffer : LoRAMatrix → String → Nat → Nat → ι → K
  activeUids : Finset (Option α)
  bufferId : Option α → Option Nat

structure LoRACall (α : Type) where
  loraPaths : List (Option α)
  curOrder : IterationOrder (Option α)
  activeOrder : IterationOrder (Option α)

namespace LoRAPool

variable {α ι K : Type}

/-- `buffer[name][layer][slot].copy_(weights)`. -/
def copy (pool : LoRAPool α ι K) (matrix : LoRAMatrix) (name : String) (layer slot : Nat)
    (weights : ι → K) : LoRAPool α ι K :=
  { pool with buffer := fun m k i s =>
      if m = matrix ∧ k = name ∧ i = layer ∧ s = slot then weights else pool.buffer m k i s }

variable [DecidableEq α]

/-- `active_uids.remove(uid)` and `buffer_id.pop(uid)`. -/
def evict (pool : LoRAPool α ι K) (uid : Option α) : LoRAPool α ι K :=
  { pool with
    activeUids := pool.activeUids.erase uid
    bufferId := fun u => if u = uid then none else pool.bufferId u }

/-- `active_uids.add(uid)` and `buffer_id[uid] = index`. -/
def activate (pool : LoRAPool α ι K) (uid : Option α) (index : Nat) : LoRAPool α ι K :=
  { pool with
    activeUids := insert uid pool.activeUids
    bufferId := fun u => if u = uid then some index else pool.bufferId u }

end LoRAPool

namespace LoRACall

variable {α : Type} [DecidableEq α]

def curUids (call : LoRACall α) : List (Option α) := call.curOrder.list call.loraPaths.toFinset

end LoRACall

namespace LoRAManager

variable {α ι K : Type}

def getWeightName (lm : LoRAManager α ι K) (idx : String × String → String)
    (name : String) : Option String :=
  (lm.targetWeights.map idx).find? fun target => decide (target.toList <:+: name.toList)

/-- The buffer that `load_lora` copies a weight of this name to, if any; an empty weight
name is falsy. -/
def weightTarget (lm : LoRAManager α ι K) (name : String) : Option (LoRAMatrix × String) :=
  if "lora_A".toList <:+: name.toList then
    ((lm.getWeightName Prod.fst name).filter (· ≠ "")).map fun k => (.A, k)
  else ((lm.getWeightName Prod.snd name).filter (· ≠ "")).map fun k => (.B, k)

/-- The loop of `load_lora` over the weights of one layer. -/
def loadLayer (lm : LoRAManager α ι K) (layer slot : Nat) :
    List (String × (ι → K)) → LoRAPool α ι K → LoRAPool α ι K
  | [], pool => pool
  | (name, weights) :: rest, pool =>
    lm.loadLayer layer slot rest <|
      match lm.weightTarget name with
      | some (matrix, k) => pool.copy matrix k layer slot weights
      | none => pool

variable [Mul K] [Zero K]

def loadLora (lm : LoRAManager α ι K) (uid : Option α) (slot : Nat)
    (pool : LoRAPool α ι K) : LoRAPool α ι K :=
  match uid with
  | none =>
    { pool with buffer := fun m k i s =>
        if m = .A ∧ k ∈ lm.targetWeights.map Prod.fst ∧ i < lm.numHiddenLayers ∧ s = slot then
          fun e => pool.buffer m k i s e * 0
        else pool.buffer m k i s }
  | some name =>
    (List.range lm.numHiddenLayers).foldl
      (fun pool i => lm.loadLayer i slot (lm.loras name i) pool) pool

variable [DecidableEq α]

/-- `while i < len(evictable_uids) and evictable_uids[i] in cur_uids: i += 1`. -/
def skipCurrent (cur evictable : List (Option α)) (i : Nat) : Nat :=
  i + ((evictable.drop i).takeWhile (· ∈ cur)).length

/-- The loop of `prepare_lora_batch` over `cur_uids`; `none` is a failed assertion. -/
def assignSlots (lm : LoRAManager α ι K) (cur evictable : List (Option α)) :
    List (Option α) → Nat → Nat → LoRAPool α ι K → Option (LoRAPool α ι K)
  | [], _, _, pool => some pool
  | uid :: uids, i, j, pool =>
    if uid ∈ pool.activeUids then lm.assignSlots cur evictable uids i j pool
    else if j < lm.maxLorasPerBatch then
      lm.assignSlots cur evictable uids i (j + 1) ((lm.loadLora uid j pool).activate uid j)
    else
      let index := skipCurrent cur evictable i
      match evictable[index]? with
      | none => none
      | some victim =>
        lm.assignSlots cur evictable uids (index + 1) j
          ((lm.loadLora uid index (pool.evict victim)).activate uid index)

/-- The pool after the call, and `weight_indices` unless the batch only uses the base model. -/
def prepareLoraBatch (lm : LoRAManager α ι K) (pool : LoRAPool α ι K) (call : LoRACall α) :
    Option (LoRAPool α ι K × Option (List Nat)) :=
  if lm.maxLorasPerBatch < call.curUids.length then none
  else do
    let pool ← lm.assignSlots call.curUids (call.activeOrder.list pool.activeUids) call.curUids
      0 pool.activeUids.card pool
    if call.loraPaths.toFinset = {none} then pure (pool, none)
    else
      let weightIndices ← call.loraPaths.mapM pool.bufferId
      pure (pool, some weightIndices)

end LoRAManager

namespace LoRAManager

variable {α ι K : Type}

/-- Of the weights of a layer, the last one that `load_lora` copies to the given buffer. -/
def lastWeight (lm : LoRAManager α ι K) (matrix : LoRAMatrix) (k : String) :
    List (String × (ι → K)) → Option (ι → K)
  | [] => none
  | (name, weights) :: rest =>
    (lm.lastWeight matrix k rest).or
      (if lm.weightTarget name = some (matrix, k) then some weights else none)

variable [Mul K] [Zero K]

/-- The names of the A or of the B buffers: those of the modules of all adapters. -/
def bufferNames (lm : LoRAManager α ι K) : LoRAMatrix → List String
  | .A => lm.targetWeights.map Prod.fst
  | .B => lm.targetWeights.map Prod.snd

/-- A buffer for which the adapter has no weights is to be zero: every A buffer, and the B
buffers that are multiplied with A weights of the adapter. -/
def Unweighted (lm : LoRAManager α ι K) (name : α) (i : Nat) (m : LoRAMatrix) (k : String) : Prop :=
  k ∈ lm.bufferNames m ∧ lm.lastWeight m k (lm.loras name i) = none ∧
    (m = .B → ∃ target ∈ lm.targetWeights, target.2 = k ∧
      (lm.lastWeight .A target.1 (lm.loras name i)).isSome)

/-- Slot `slot` holds the weights of `uid`: all A weights zero for the base model, the
adapter's own tensors for an adapter, and zeros where it has none. -/
def Holds (lm : LoRAManager α ι K) (pool : LoRAPool α ι K) (uid : Option α) (slot : Nat) : Prop :=
  match uid with
  | none => ∀ k ∈ lm.bufferNames .A, ∀ i < lm.numHiddenLayers, ∀ e,
      pool.buffer .A k i slot e = 0
  | some name => ∀ i < lm.numHiddenLayers, ∀ m k,
      (∀ weights, lm.lastWeight m k (lm.loras name i) = some weights →
        pool.buffer m k i slot = weights) ∧
      (lm.Unweighted name i m k → ∀ e, pool.buffer m k i slot e = 0)

/-- What slot `slot` must have for `uid` before it is loaded. For the base model, times 0 is
zero for the A weights there, which not every floating point number satisfies; for an
adapter, the buffers that `load_lora` leaves alone are zero. -/
def Ready (lm : LoRAManager α ι K) (pool : LoRAPool α ι K) (uid : Option α) (slot : Nat) : Prop :=
  match uid with
  | none => ∀ k ∈ lm.bufferNames .A, ∀ i < lm.numHiddenLayers, ∀ e,
      pool.buffer .A k i slot e * 0 = 0
  | some name => ∀ i < lm.numHiddenLayers, ∀ m k, lm.Unweighted name i m k →
      ∀ e, pool.buffer m k i slot e = 0

omit [Mul K] in
theorem Holds.congr {lm : LoRAManager α ι K} {pool pool' : LoRAPool α ι K} {uid : Option α}
    {slot : Nat} (h : ∀ m k i, pool'.buffer m k i slot = pool.buffer m k i slot) :
    lm.Holds pool' uid slot ↔ lm.Holds pool uid slot := by
  cases uid <;> simp only [Holds, h]

theorem Ready.congr {lm : LoRAManager α ι K} {pool pool' : LoRAPool α ι K} {uid : Option α}
    {slot : Nat} (h : ∀ m k i, pool'.buffer m k i slot = pool.buffer m k i slot) :
    lm.Ready pool' uid slot ↔ lm.Ready pool uid slot := by
  cases uid <;> simp only [Ready, h]

end LoRAManager

end FastPP
