import FastPP.State

namespace FastPP

/-- What the event loop reads of a batch, besides passing it on. -/
structure BatchShape where
  forwardMode : ForwardMode
  extendNumTokens : Nat
  deriving DecidableEq, Repr

/-- A batch object of one rank, named by the logical step that dispatched it. -/
structure PipeBatch where
  step : Nat
  shape : BatchShape
  deriving DecidableEq, Repr

/-- The test of `run_batch` for `forward_batch_generation`. -/
def PipeBatch.forwards (batch : PipeBatch) : Bool :=
  batch.shape.forwardMode.isDecode || batch.shape.extendNumTokens != 0

/-- A tensor of token ids by its origin: sampled by the last rank for the batch of a
step, or filled with zeros by one rank that runs no forward pass for its batch. -/
inductive TokenIds
  | sampled (step : Nat)
  | filled (ppRank step : Nat)
  deriving DecidableEq, Repr

/-- The event loop of one rank. `sent` and `received` count its part in the broadcasts
from the last rank; `processed` lists its calls of `process_batch_result` with the
logical step of each. -/
structure PipeRank where
  ppRank : Nat
  steps : Nat
  curPP : PPCounter
  lastBatch : Nat → Option PipeBatch
  sent : List TokenIds
  received : Nat
  processed : List (Nat × PipeBatch × Option TokenIds)

namespace PipeRank

def init (ppSize ppRank : Nat) : PipeRank where
  ppRank := ppRank
  steps := 0
  curPP := .new ppSize ppRank
  lastBatch := fun _ => none
  sent := []
  received := 0
  processed := []

def isLastRank (R : PipeRank) : Bool := R.ppRank + 1 == R.curPP.ppSize

/-- The broadcast from the last rank at a rank that receives; it blocks where nothing
more is ever sent. -/
def receive (channel : List TokenIds) (R : PipeRank) : Option (PipeRank × Option TokenIds) := do
  let nextTokenIds ← channel[R.received]?
  pure ({ R with received := R.received + 1 }, some nextTokenIds)

/-- `TpModelWorker.forward_batch_generation`. -/
def forwardBatchGeneration (channel : List TokenIds) (R : PipeRank) (batch : PipeBatch)
    (pipeBatch : Option PipeBatch) : Option (PipeRank × Option TokenIds) :=
  if R.isLastRank then
    some ({ R with sent := R.sent ++ [.sampled batch.step] }, some (.sampled batch.step))
  else if pipeBatch.isSome then R.receive channel
  else some (R, none)

/-- `Scheduler.run_batch`; without a batch it is `forward_batch_pipeline`. -/
def runBatch (channel : List TokenIds) (R : PipeRank) (batch pipeBatch : Option PipeBatch) :
    Option (PipeRank × Option TokenIds) :=
  match batch with
  | none => R.receive channel
  | some batch =>
    if batch.forwards then R.forwardBatchGeneration channel batch pipeBatch
    else some (R, some (.filled R.ppRank batch.step))

def processBatchResult (R : PipeRank) (batch : PipeBatch) (nextTokenIds : Option TokenIds) :
    PipeRank :=
  { R with processed := R.processed ++ [(R.steps, batch, nextTokenIds)] }

/-- The three branches of the event loop on the batch and the one awaiting its result. -/
def runAndProcess (channel : List TokenIds) (R : PipeRank) (batch pipeBatch : Option PipeBatch) :
    Option PipeRank :=
  match batch, pipeBatch with
  | some batch, _ => do
    let result ← R.runBatch channel (some batch) pipeBatch
    pure (if R.isLastRank then result.1.processBatchResult batch result.2
      else match pipeBatch with
        | some pipeBatch => result.1.processBatchResult pipeBatch result.2
        | none => result.1)
  | none, some pipeBatch =>
    if R.isLastRank then some R
    else do
      let result ← R.runBatch channel none (some pipeBatch)
      pure (result.1.processBatchResult pipeBatch result.2)
  | none, none => some R

/-- One iteration of `event_loop_normal`, where the scheduler forms `batch`. -/
def iterate (channel : List TokenIds) (batch : Option BatchShape) (R : PipeRank) :
    Option PipeRank := do
  let R := { R with curPP := R.curPP.next }
  let batch := batch.map (PipeBatch.mk R.steps)
  let R ← R.runAndProcess channel batch (R.lastBatch R.curPP.getPp)
  pure { R with
    lastBatch := Function.update R.lastBatch R.curPP.get batch
    steps := R.steps + 1 }

end PipeRank

/-- A rank after its first `steps` iterations. -/
def pipeRun (ppSize ppRank : Nat) (dispatch : Nat → Option BatchShape) (channel : List TokenIds) :
    Nat → Option PipeRank
  | 0 => some (.init ppSize ppRank)
  | steps + 1 => do
    let R ← pipeRun ppSize ppRank dispatch channel steps
    R.iterate channel (dispatch steps)

/-- The broadcasts of the last rank in its first `steps` iterations. -/
def broadcasts (ppSize : Nat) (dispatch : Nat → Option BatchShape) (steps : Nat) : List TokenIds :=
  ((pipeRun ppSize (ppSize - 1) dispatch [] steps).map (·.sent)).getD []

/-- The batch dispatched at a step. -/
def dispatched (dispatch : Nat → Option BatchShape) (step : Nat) : Option PipeBatch :=
  (dispatch step).map (PipeBatch.mk step)

end FastPP
