import FastPP.Lib.BlockWrites
import Mathlib.Algebra.BigOperators.Group.List.Basic
import Mathlib.Algebra.Ring.Nat

namespace FastPP

/-- The part of a `ModelWorkerBatch` that the overlap thread reads. -/
structure ModelWorkerBatch where
  inputIds : List Int
  bs : Nat
  deriving DecidableEq

/-- `TpModelWorkerClient` for `pp_size = 1`. -/
structure TpModelWorkerClient where
  maxRunningRequests : Nat
  futureTokenIdsCt : Nat
  futureTokenIdsMap : List Int
  inputQueue : List (ModelWorkerBatch × Nat)
  deriving DecidableEq

namespace TpModelWorkerClient

/-- `future_token_ids_limit`. -/
def futureTokenIdsLimit (client : TpModelWorkerClient) : Nat := client.maxRunningRequests * 1

/-- `__init__`, over the contents that `torch.empty` happens to give the map. -/
def init (maxRunningRequests : Nat) (empty : Nat → Int) : TpModelWorkerClient where
  maxRunningRequests := maxRunningRequests
  futureTokenIdsCt := 0
  futureTokenIdsMap := (List.range (maxRunningRequests * 2)).map empty
  inputQueue := []

/-- `torch.arange(-(ct + 1), -(ct + 1 + bs), -1)`. -/
def placeholders (ct bs : Nat) : List Int :=
  (List.range bs).map fun row => -((ct + 1 + row : Nat) : Int)

/-- `forward_batch_generation`: the batch goes on the queue with the counter, and the
scheduler gets placeholders for its next tokens. -/
def forwardBatchGeneration (client : TpModelWorkerClient) (batch : ModelWorkerBatch) :
    TpModelWorkerClient × List Int :=
  ({ client with
      inputQueue := client.inputQueue ++ [(batch, client.futureTokenIdsCt)]
      futureTokenIdsCt := (client.futureTokenIdsCt + batch.bs) % client.futureTokenIdsLimit },
    placeholders client.futureTokenIdsCt batch.bs)

/-- `resolve_future_token_ids` on one id; `none` is an index outside the map. -/
def resolveFutureTokenId (futureTokenIdsMap : List Int) (inputId : Int) : Option Int :=
  if inputId < 0 then futureTokenIdsMap[(-inputId).toNat]? else some inputId

/-- `resolve_future_token_ids`. -/
def resolveFutureTokenIds (futureTokenIdsMap : List Int) : List Int → Option (List Int)
  | [] => some []
  | inputId :: rest => do
    let id ← resolveFutureTokenId futureTokenIdsMap inputId
    let ids ← resolveFutureTokenIds futureTokenIdsMap rest
    some (id :: ids)

/-- The assignment to a slice of the map, which raises when the map is too short. -/
def storeNextTokens (futureTokenIdsMap : List Int) (ct : Nat) (nextTokenIds : List Int) :
    Option (List Int) :=
  if ct + 1 + nextTokenIds.length ≤ futureTokenIdsMap.length then
    some (BlockWrites.write futureTokenIdsMap (ct + 1) nextTokenIds)
  else none

/-- One turn of `forward_thread_func_` on a batch of the queue: the client, the resolved
input ids and the next tokens, which `sample` gives for each row. -/
def forwardThread (sample : List Int → Nat → Int) (client : TpModelWorkerClient)
    (batch : ModelWorkerBatch) (futureTokenIdsCt : Nat) (rest : List (ModelWorkerBatch × Nat)) :
    Option (TpModelWorkerClient × List Int × List Int) := do
  let inputIds ← resolveFutureTokenIds client.futureTokenIdsMap batch.inputIds
  let nextTokenIds := (List.range batch.bs).map (sample inputIds)
  if batch.bs = 0 then some ({ client with inputQueue := rest }, inputIds, nextTokenIds)
  else do
    let map ← storeNextTokens client.futureTokenIdsMap futureTokenIdsCt nextTokenIds
    some ({ client with futureTokenIdsMap := map, inputQueue := rest }, inputIds, nextTokenIds)

end TpModelWorkerClient

/-- An input id as the scheduler means it: a token, or the next token of a row of an
earlier batch. -/
inductive InputId
  | token (id : Nat)
  | future (batch row : Nat)
  deriving DecidableEq

/-- A batch as the scheduler makes it. -/
structure OverlapBatch where
  inputIds : List InputId
  bs : Nat
  deriving DecidableEq

/-- The scheduler and the forward thread: the client, the placeholders the scheduler got
for each batch, and what the thread read and sampled for each batch it has run. -/
structure OverlapSystem where
  client : TpModelWorkerClient
  issued : List (List Int)
  ran : List (List Int × List Int)
  deriving DecidableEq

inductive OverlapAction
  | push (batch : OverlapBatch)
  | forward
  deriving DecidableEq

/-- The id that stands in the tensor for an input id. -/
def InputId.value (issued : List (List Int)) : InputId → Option Int
  | .token id => some id
  | .future batch row => (issued[batch]?).bind (·[row]?)

def inputValues (issued : List (List Int)) : List InputId → Option (List Int)
  | [] => some []
  | inputId :: rest => do
    let id ← inputId.value issued
    let ids ← inputValues issued rest
    some (id :: ids)

/-- One step of either side. The thread waits while the queue is empty. -/
def OverlapSystem.step (sample : Nat → List Int → Nat → Int) (sys : OverlapSystem) :
    OverlapAction → Option OverlapSystem
  | .push batch => do
    let inputIds ← inputValues sys.issued batch.inputIds
    let (client, future) := sys.client.forwardBatchGeneration ⟨inputIds, batch.bs⟩
    some { sys with client := client, issued := sys.issued ++ [future] }
  | .forward =>
    match sys.client.inputQueue with
    | [] => some sys
    | (batch, ct) :: rest => do
      let (client, inputIds, nextTokenIds) ←
        sys.client.forwardThread (sample sys.ran.length) batch ct rest
      some { sys with client := client, ran := sys.ran ++ [(inputIds, nextTokenIds)] }

def OverlapSystem.run (sample : Nat → List Int → Nat → Int) :
    OverlapSystem → List OverlapAction → Option OverlapSystem
  | sys, [] => some sys
  | sys, action :: rest => do
    let sys ← sys.step sample action
    sys.run sample rest

def OverlapSystem.init (maxRunningRequests : Nat) (empty : Nat → Int) : OverlapSystem where
  client := .init maxRunningRequests empty
  issued := []
  ran := []

/-- The batches that a sequence of actions pushes. -/
def pushed (actions : List OverlapAction) : List OverlapBatch :=
  actions.filterMap fun
    | .push batch => some batch
    | .forward => none

/-- Every batch has at most `limit` requests and takes its placeholders from rows of
earlier batches. -/
def WellPushed (limit : Nat) (batches : List OverlapBatch) : Prop :=
  ∀ k batch, batches[k]? = some batch → batch.bs ≤ limit ∧
    ∀ p i, InputId.future p i ∈ batch.inputIds →
      p < k ∧ ∃ source, batches[p]? = some source ∧ i < source.bs

/-- However the two sides interleave and whatever is sampled, no access leaves the map,
and each placeholder is resolved to the token sampled for its row in its batch. -/
def PlaceholdersResolve (limit : Nat) (batches : List OverlapBatch) : Prop :=
  ∀ (sample : Nat → List Int → Nat → Int) (empty : Nat → Int) (actions : List OverlapAction),
    pushed actions = batches →
    ∃ sys : OverlapSystem, (OverlapSystem.init limit empty).run sample actions = some sys ∧
      ∀ (k : Nat) (batch : OverlapBatch), batches[k]? = some batch →
        ∀ j p i : Nat, batch.inputIds[j]? = some (InputId.future p i) →
        ∀ ran : List Int × List Int, sys.ran[k]? = some ran →
          ∃ source : List Int × List Int, sys.ran[p]? = some source ∧ ran.1[j]? = source.2[i]?

/-- The size of batch `k`. -/
def batchSize (batches : List OverlapBatch) (k : Nat) : Nat :=
  match batches[k]? with
  | some batch => batch.bs
  | none => 0

/-- The counter before batch `k`: the total size of the batches before it, modulo the
limit. -/
def counterAt (limit : Nat) (batches : List OverlapBatch) (k : Nat) : Nat :=
  ((batches.take k).map OverlapBatch.bs).sum % limit

/-- Between a batch and the use of its row's placeholder, no batch has a block over the
cell of that row. -/
def FreshUntilUsed (limit : Nat) (batches : List OverlapBatch) : Prop :=
  ∀ k batch, batches[k]? = some batch → ∀ p i, InputId.future p i ∈ batch.inputIds →
    ∀ q, p < q → q < k →
      ¬ BlockWrites.Covers (counterAt limit batches) (batchSize batches) q
        (counterAt limit batches p + i)

end FastPP
