import FastPP.State
import FastPP.Pipeline.Engine

namespace FastPP.Pipeline

/-- What `forward_batch_generation` has after the forward pass: nothing without a batch, the
tensor for the next rank, the ids that the last rank sampled, or the zeros for a batch
without a forward pass. -/
inductive Outcome (E : Engine)
  | idle
  | tensor (rows : List E.Row)
  | sampled (nextTokenIds : E.Ids)
  | filled (nextTokenIds : E.Ids)

/-- Where a rank is in an iteration of `event_loop_normal`: before `recv_requests`, before
`recv_tensor` and the forward pass, before the broadcast, before `isend_tensor`. `pipe` is the
batch awaiting its result, with the step that dispatched it. -/
inductive Phase (E : Engine)
  | top
  | running (batch : Option E.Batch) (pipe : Option (Nat × E.Batch))
  | exchanging (batch : Option E.Batch) (pipe : Option (Nat × E.Batch)) (out : Outcome E)
  | sending (batch : Option E.Batch) (pipe : Option (Nat × E.Batch))
      (tensor : Option (List E.Row)) (nextTokenIds : Option E.Ids)

/-- One rank. `begun` counts its calls of `recv_requests`; `sent`, `taken`, `broadcasts` and
`received` are its part in the tensors between neighbours and in the broadcasts of the last
rank. -/
structure Rank (E : Engine) where
  steps : Nat
  begun : Nat
  phase : Phase E
  curPP : PPCounter
  lastBatch : Nat → Option (Nat × E.Batch)
  kv : Nat → E.Kv
  rng : E.Rng
  sent : List (List E.Row)
  taken : Nat
  broadcasts : List E.Ids
  received : Nat
  processed : List (Nat × E.Ids)

variable {E : Engine}

/-- The settings all ranks share: their number, the layer partition, the tensors or broadcasts
that may wait at a receiver before the sender waits too, and the scheduler. -/
structure Settings (E : Engine) where
  ppSize : Nat
  ppIndices : PpIndices
  depth : Nat
  dispatch : Dispatch E

namespace Rank

def init (E : Engine) (ppSize ppRank : Nat) : Rank E where
  steps := 0
  begun := 0
  phase := .top
  curPP := .new ppSize ppRank
  lastBatch := fun _ => none
  kv := fun _ => E.emptyKv
  rng := E.seed
  sent := []
  taken := 0
  broadcasts := []
  received := 0
  processed := []

/-- The start of an iteration: `next(cur_pp)`, `get_next_batch_to_run`, `pipe_batch`. -/
def start (dispatch : Dispatch E) (R : Rank E) : Rank E :=
  let curPP := R.curPP.next
  { R with
    begun := R.begun + 1
    curPP := curPP
    phase := .running (dispatch R.steps R.processed) (R.lastBatch curPP.getPp) }

/-- `process_batch_result`, and the record of the batch in `_last_batch`. -/
def finish (isLast : Bool) (batch : Option E.Batch) (pipe : Option (Nat × E.Batch))
    (nextTokenIds : Option E.Ids) (R : Rank E) : Rank E :=
  let step := if isLast then batch.map fun _ => R.steps else pipe.map Prod.fst
  { R with
    processed := R.processed ++ (step.bind fun s => nextTokenIds.map fun ids => (s, ids)).toList
    lastBatch := Function.update R.lastBatch R.curPP.get (batch.map fun b => (R.steps, b))
    phase := .top
    steps := R.steps + 1 }

end Rank

/-- The ranks of one pipeline. -/
abbrev Net (E : Engine) := Nat → Rank E

namespace Net

variable (C : Settings E)

def init : Net E := fun r => .init E C.ppSize r

/-- Nothing that a rank has sent keeps it waiting. -/
def quiet (S : Net E) (r : Nat) : Bool :=
  if r + 1 = C.ppSize then
    (List.range r).all fun q => (S r).broadcasts.length ≤ (S q).received + C.depth
  else (S r).sent.length ≤ (S (r + 1)).taken + C.depth

/-- The layers that the loop of `forward` runs at a rank. -/
def ownLayers (r : Nat) : Option (List Nat) :=
  match makeLayers C.ppIndices E.numHiddenLayers r C.ppSize with
  | .error _ => none
  | .ok (startLayer, endLayer, layers) =>
    ((List.range (endLayer - startLayer).toNat).map (startLayer.toNat + ·)).mapM fun i =>
      layers[i]?.join

/-- What a rank feeds into its first layer: the embeddings, or the tensor that `recv_tensor`
takes from the rank before it. -/
def input (S : Net E) (r : Nat) (batch : E.Batch) :
    Option (Activations E.Row (E.numTokens batch)) :=
  if r = 0 then some ⟨E.embedTokens batch, none⟩
  else do
    let rows ← (S (r - 1)).sent[(S r).taken]?
    if h : rows.length = E.numTokens batch <<< 1 then pure (.split rows h) else none

/-- `recv_tensor` and the forward pass of `forward_batch_generation`, with the sampling of the
last rank. -/
def forward (S : Net E) (r : Nat) (batch : E.Batch) (pipe : Option (Nat × E.Batch)) :
    Option (Rank E) := do
  guard (S.quiet C r)
  let act ← S.input r batch
  let layers ← ownLayers C r
  let buffer := bufferOf (layerNum E.numHiddenLayers C.ppSize)
  let (kv, act) := runLayers E buffer batch layers (S r).kv act
  let R := { S r with kv := kv, taken := if r = 0 then (S r).taken else (S r).taken + 1 }
  if r + 1 = C.ppSize then
    let (rng, ids) := E.sample batch act R.rng
    pure { R with rng := rng, phase := .exchanging (some batch) pipe (.sampled ids) }
  else do
    let rows ← act.cat
    pure { R with phase := .exchanging (some batch) pipe (.tensor rows) }

/-- The broadcast from the last rank at a rank that receives; it waits for the last rank. -/
def receive (S : Net E) (r : Nat) (batch : Option E.Batch) (pipe : Option (Nat × E.Batch))
    (tensor : Option (List E.Row)) : Option (Rank E) := do
  guard (S.quiet C r)
  let ids ← (S (C.ppSize - 1)).broadcasts[(S r).received]?
  pure { S r with
    received := (S r).received + 1
    phase := .sending batch pipe tensor (some ids) }

/-- The broadcast of an iteration: `forward_batch_generation` after the forward pass, or
`forward_batch_pipeline`. -/
def exchange (S : Net E) (r : Nat) (batch : Option E.Batch) (pipe : Option (Nat × E.Batch))
    (out : Outcome E) : Option (Rank E) :=
  match out with
  | .sampled ids =>
    if S.quiet C r then
      some { S r with
        broadcasts := (S r).broadcasts ++ [ids]
        phase := .sending batch pipe none (some ids) }
    else none
  | .filled ids => some { S r with phase := .sending batch pipe none (some ids) }
  | .tensor rows =>
    if pipe.isSome then S.receive C r batch pipe (some rows)
    else some { S r with phase := .sending batch pipe (some rows) none }
  | .idle =>
    if pipe.isSome && r + 1 != C.ppSize then S.receive C r batch pipe none
    else some { S r with phase := .sending batch pipe none none }

/-- The next action of a rank; it waits where there is none. -/
def act (S : Net E) (r : Nat) : Option (Rank E) :=
  match (S r).phase with
  | .top =>
    -- the requests of an iteration come from the first rank
    if r = 0 || (S r).begun < (S 0).begun then some ((S r).start C.dispatch) else none
  | .running none pipe => some { S r with phase := .exchanging none pipe .idle }
  | .running (some batch) pipe =>
    if E.forwards batch then S.forward C r batch pipe
    else some { S r with phase := .exchanging (some batch) pipe (.filled (E.fill batch)) }
  | .exchanging batch pipe out => S.exchange C r batch pipe out
  | .sending batch pipe none ids => some ((S r).finish (r + 1 == C.ppSize) batch pipe ids)
  | .sending batch pipe (some rows) ids =>
    if S.quiet C r then
      some ({ S r with sent := (S r).sent ++ [rows] }.finish (r + 1 == C.ppSize) batch pipe ids)
    else none

/-- One action of one rank. -/
def move (r : Fin C.ppSize) (S : Net E) : Option (Net E) :=
  (S.act C r).map fun R => Function.update S r R

end Net

end FastPP.Pipeline
