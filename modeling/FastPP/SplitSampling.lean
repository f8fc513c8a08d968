import FastPP.PenalizedLogits

namespace FastPP

variable {V : Nat}

namespace PenalizerOrchestrator

/-- `_cumulate_output_tokens` of one penalizer. The counts have a row for every request of
the orchestrator's batch; those of another size than the tensors raise, except that the
frequency penalizer broadcasts a single one. `BatchedMinNewTokensPenalizer` reads none. -/
def cumulatePenalizer (batchSize : Nat) (outputIds : List (Fin V)) :
    (kind : PenalizerKind) → List (kind.Row V) → Option (List (kind.Row V))
  | .minNewTokens, rows =>
    some (rows.map fun row : MinNewTokensRow V =>
      { row with lenOutputTokens := row.lenOutputTokens + 1 })
  | kind, rows =>
    if outputIds.length ≤ batchSize ∧
        (rows.length = batchSize ∨ (kind = .frequency ∧ batchSize = 1)) then
      some (rows.mapIdx fun i row =>
        match outputIds[if batchSize = 1 then 0 else i]? with
        | some token => kind.cumulateOutputRow token row
        | none => row)
    else none

/-- One round of the loop of `cumulate_output_tokens`. -/
def cumulateEach (batchSize : Nat) (outputIds : List (Fin V)) (kind : PenalizerKind)
    (rows : Option (List (kind.Row V))) : Option (Option (List (kind.Row V))) :=
  match rows with
  | none => some none
  | some rows => (cumulatePenalizer batchSize outputIds kind rows).map some

/-- `cumulate_output_tokens` where the tensors may have another size than the batch. -/
def cumulateShaped (o : PenalizerOrchestrator V) (outputIds : List (Fin V)) :
    Option (PenalizerOrchestrator V) :=
  if o.isRequired then do
    let penalizers ← updateEach (cumulateEach o.reqs.length outputIds) o.order o.penalizers
    pure { o with penalizers }
  else some o

end PenalizerOrchestrator

/-- No penalizer has tensors. -/
def PenalizerOrchestrator.Unprepared (o : PenalizerOrchestrator V) : Prop :=
  ∀ kind, o.penalizers kind = none

/-- A batch with its sampling info. The orchestrator is that of the batch it was made for,
`orchestrator.reqs` are the requests of that batch: after a split it is another one, and its
penalizers may have been changed through other batches that hold it. -/
structure SampledBatch (V : Nat) where
  rows : SamplingBatchInfo
  orchestrator : PenalizerOrchestrator V
  topPs_length : rows.topPs.length = rows.temperatures.length
  topKs_length : rows.topKs.length = rows.temperatures.length
  minPs_length : rows.minPs.length = rows.temperatures.length
  order : orchestrator.order.Perm PenalizerKind.all
  unprepared : orchestrator.isRequired = false → orchestrator.Unprepared
  reqs_ne_nil : rows.temperatures ≠ [] → orchestrator.reqs ≠ []

namespace SampledBatch

/-- A batch that was prefilled, decoded, filtered and merged, and never split: the
orchestrator is its own. -/
structure Unsplit (b : SampledBatch V) (script : PenalizerScript V) : Prop where
  wellFormed : script.WellFormed
  run : script.run = some b.orchestrator
  length : b.rows.temperatures.length = script.history.length

def batchSize (b : SampledBatch V) : Nat := b.rows.temperatures.length

/-- No penalizer of the batch's orchestrator has tensors. -/
def Unprepared (b : SampledBatch V) : Prop := b.orchestrator.Unprepared

/-- Every penalizer with tensors has a row for every request of the batch, and the batch
that the orchestrator was made for requires it. -/
def Covered (b : SampledBatch V) : Prop :=
  ∀ kind rows, b.orchestrator.penalizers kind = some rows → ∀ i < b.batchSize,
    PenalizerOrchestrator.penalizerRequired b.orchestrator.reqs kind = true ∧ i < rows.length

end SampledBatch

/-- A `SamplingBatchInfo`: the tensors it has for itself, and the address of its
`penalizer_orchestrator`, which other infos may hold as well. -/
structure PenalizedInfo (V : Nat) where
  rows : SamplingBatchInfo
  logitBias : Option (List (Fin V → Rat))
  penalizerOrchestrator : Nat

/-- The orchestrators by their addresses. -/
abbrev OrchestratorHeap (V : Nat) := List (PenalizerOrchestrator V)

/-- What `filter_batch` does to `logit_bias`. -/
def filterLogitBias (logitBias : Option (List (Fin V → Rat))) (indices : List Nat) :
    Option (Option (List (Fin V → Rat))) :=
  match logitBias with
  | none => some none
  | some bias => (gather bias indices).map some

/-- `merge_bias_tensor`; it enters a `torch.dtype` as a context unless both are `None`. -/
def mergeBiasTensor (lhs rhs : Option (List (Fin V → Rat))) :
    Option (Option (List (Fin V → Rat))) :=
  if lhs.isNone && rhs.isNone then some none else none

namespace PenalizedInfo

/-- `SamplingBatchInfo.copy`: the tensors are cloned, the orchestrator is shared. -/
def copy (info : PenalizedInfo V) : PenalizedInfo V where
  rows :=
    { temperatures := info.rows.temperatures
      topPs := info.rows.topPs
      topKs := info.rows.topKs
      minPs := info.rows.minPs
      isAllGreedy := info.rows.isAllGreedy
      needMinPSampling := info.rows.needMinPSampling }
  logitBias := info.logitBias
  penalizerOrchestrator := info.penalizerOrchestrator

/-- `SamplingBatchInfo.filter_batch` of a batch that is not the one of its orchestrator:
the requests that the orchestrator consults stay as they are. -/
def filterBatch (heap : OrchestratorHeap V) (info : PenalizedInfo V) (indices : List Nat) :
    Option (OrchestratorHeap V × PenalizedInfo V) := do
  let o ← heap[info.penalizerOrchestrator]?
  let filtered ← o.filter o.reqs indices
  let rows ← info.rows.filterBatch indices
  let logitBias ← filterLogitBias info.logitBias indices
  pure (heap.set info.penalizerOrchestrator filtered, { info with rows, logitBias })

/-- `SamplingBatchInfo.merge_batch` of such a batch with one that has an orchestrator of
its own and no `logit_bias`. -/
def mergeBatch (heap : OrchestratorHeap V) (info : PenalizedInfo V) (other : SampledBatch V) :
    Option (OrchestratorHeap V × PenalizedInfo V) := do
  let o ← heap[info.penalizerOrchestrator]?
  let merged ← o.merge other.orchestrator
  let logitBias ← mergeBiasTensor info.logitBias none
  pure (heap.set info.penalizerOrchestrator merged,
    { info with rows := info.rows.mergeBatch other.rows, logitBias })

/-- `cumulate_output_tokens` of the orchestrator of such a batch. -/
def cumulateOutputTokens (heap : OrchestratorHeap V) (info : PenalizedInfo V)
    (outputIds : List (Fin V)) : Option (OrchestratorHeap V × PenalizedInfo V) := do
  let o ← heap[info.penalizerOrchestrator]?
  let cumulated ← o.cumulateShaped outputIds
  pure (heap.set info.penalizerOrchestrator cumulated, info)

/-- `make_sub_batch`: no batch for an empty index list. -/
def makeSubBatch (heap : OrchestratorHeap V) (info : PenalizedInfo V) (indices : List Nat) :
    Option (OrchestratorHeap V × Option (PenalizedInfo V)) :=
  if indices = [] then some (heap, none)
  else do
    let (heap, sub) ← info.copy.filterBatch heap indices
    pure (heap, some sub)

end PenalizedInfo

/-- The halves of a split batch on their heap. -/
structure SplitBatches (V : Nat) where
  heap : OrchestratorHeap V
  keep : Option (PenalizedInfo V)
  drop : Option (PenalizedInfo V)

inductive SplitHalf
  | keep
  | drop
  deriving DecidableEq, Repr

def SplitHalf.other : SplitHalf → SplitHalf
  | keep => drop
  | drop => keep

/-- The sampling info of the batch before the split; `from_schedule_batch` allocates no
`logit_bias`. -/
def SampledBatch.info (b : SampledBatch V) : PenalizedInfo V := ⟨b.rows, none, 0⟩

/-- `ScheduleBatch.split_batch`: the halves are made one after the other. -/
def SampledBatch.splitBatch (b : SampledBatch V) (keepIndices dropIndices : List Nat) :
    Option (SplitBatches V) := do
  let (heap, keep) ← b.info.makeSubBatch [b.orchestrator] keepIndices
  let (heap, drop) ← b.info.makeSubBatch heap dropIndices
  pure ⟨heap, keep, drop⟩

/-- How a half goes on. -/
inductive HalfStep (V : Nat)
  | cumulate (outputIds : List (Fin V))
  | filter (indices : List Nat)
  | merge (other : SampledBatch V)

def HalfStep.apply (heap : OrchestratorHeap V) (info : PenalizedInfo V) :
    HalfStep V → Option (OrchestratorHeap V × PenalizedInfo V)
  | cumulate outputIds => info.cumulateOutputTokens heap outputIds
  | filter indices => info.filterBatch heap indices
  | merge other => info.mergeBatch heap other

/-- The batches that a half is merged with are among the partners. -/
def HalfStep.Among (partners : SampledBatch V → Prop) : HalfStep V → Prop
  | merge other => partners other
  | _ => True

namespace SplitBatches

def half (s : SplitBatches V) : SplitHalf → Option (PenalizedInfo V)
  | .keep => s.keep
  | .drop => s.drop

/-- A half with the penalizers that it reads. -/
def state (s : SplitBatches V) (h : SplitHalf) :
    Option (PenalizedInfo V × Option ((kind : PenalizerKind) → Option (List (kind.Row V)))) :=
  (s.half h).map fun info =>
    (info, (s.heap[info.penalizerOrchestrator]?).map PenalizerOrchestrator.penalizers)

def update (s : SplitBatches V) (heap : OrchestratorHeap V) (info : PenalizedInfo V) :
    SplitHalf → SplitBatches V
  | .keep => ⟨heap, some info, s.drop⟩
  | .drop => ⟨heap, s.keep, some info⟩

/-- One half takes a step. -/
def step (s : SplitBatches V) (h : SplitHalf) (step : HalfStep V) : Option (SplitBatches V) := do
  let info ← s.half h
  let (heap, info) ← step.apply s.heap info
  pure (s.update heap info h)

/-- What the halves may become. -/
inductive ContinuesTo (partners : SampledBatch V → Prop) (s : SplitBatches V) :
    SplitBatches V → Prop
  | refl : ContinuesTo partners s s
  | step {s' s'' : SplitBatches V} {h : SplitHalf} {step : HalfStep V}
      (run : ContinuesTo partners s s') (among : step.Among partners)
      (next : s'.step h step = some s'') : ContinuesTo partners s s''

end SplitBatches

/-- The row of a request in a penalizer, if that is prepared. -/
def PenalizerOrchestrator.penaltyRow (o : PenalizerOrchestrator V) (kind : PenalizerKind)
    (row : Nat) : Option (Option (kind.Row V)) :=
  (o.penalizers kind).map fun rows => rows[row]?

/-- The sampling state of one request. -/
structure RequestSampling (V : Nat) where
  temperature : Option Rat
  topP : Option Rat
  topK : Option Nat
  minP : Option Rat
  logitBias : Option (Option (Fin V → Rat))
  penalties : (kind : PenalizerKind) → Option (Option (kind.Row V))

/-- The rows of a request in its batch and in the penalizers. -/
def requestSampling (info : PenalizedInfo V) (o : PenalizerOrchestrator V) (row : Nat) :
    RequestSampling V where
  temperature := info.rows.temperatures[row]?
  topP := info.rows.topPs[row]?
  topK := info.rows.topKs[row]?
  minP := info.rows.minPs[row]?
  logitBias := info.logitBias.map fun bias => bias[row]?
  penalties kind := o.penaltyRow kind row

/-- The requests of a half have the rows that they had in the batch. -/
def SplitBatches.KeepsRequests (s : SplitBatches V) (b : SampledBatch V) (h : SplitHalf)
    (indices : List Nat) : Prop :=
  match s.half h with
  | none => indices = []
  | some info => ∃ o, s.heap[info.penalizerOrchestrator]? = some o ∧
      ∀ row i, indices[row]? = some i →
        requestSampling info o row = requestSampling b.info b.orchestrator i

/-- The split succeeds, every request keeps its sampling state, and no step of a half
changes the state of the other one. -/
def SampledBatch.SplitKeepsSampling (b : SampledBatch V) (keepIndices dropIndices : List Nat)
    (partners : SampledBatch V → Prop) : Prop :=
  ∃ s, b.splitBatch keepIndices dropIndices = some s ∧
    s.KeepsRequests b .keep keepIndices ∧ s.KeepsRequests b .drop dropIndices ∧
    ∀ s', SplitBatches.ContinuesTo partners s s' →
      ∀ h step s'', step.Among partners → s'.step h step = some s'' →
        s''.state h.other = s'.state h.other

end FastPP
