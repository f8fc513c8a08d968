import FastPP.Batch
import Mathlib.Algebra.Order.Monoid.Unbundled.WithTop

namespace FastPP

/-- What the penalizers read of a request, over a vocabulary of `V` tokens; absent stop
token ids are the empty list. -/
structure PenalizedReq (V : Nat) where
  originInputIds : List (Fin V)
  frequencyPenalty : Rat
  presencePenalty : Rat
  repetitionPenalty : Rat
  minNewTokens : Nat
  stopTokenIds : List (Fin V)
  additionalStopTokenIds : List (Fin V)
  eosTokenId : Fin V

inductive PenalizerKind
  | frequency
  | minNewTokens
  | presence
  | repetition
  deriving DecidableEq, Repr

/-- A rational number or `-inf`. -/
abbrev Logit := WithBot Rat

/-- One row of the tensors of the frequency, the presence or the repetition penalizer. -/
structure PenaltyRow (V : Nat) where
  penalty : Rat
  cumulated : Fin V → Rat

/-- One row of the tensors of `BatchedMinNewTokensPenalizer`. -/
structure MinNewTokensRow (V : Nat) where
  minNewTokens : Nat
  stopTokenPenalties : Fin V → Logit
  lenOutputTokens : Nat

namespace PenalizerKind

variable {V : Nat}

def Row (V : Nat) : PenalizerKind → Type
  | minNewTokens => MinNewTokensRow V
  | _ => PenaltyRow V

/-- The test of `_is_required` on one request. -/
def requires (kind : PenalizerKind) (req : PenalizedReq V) : Bool :=
  match kind with
  | frequency => req.frequencyPenalty ≠ 0
  | minNewTokens => 0 < req.minNewTokens
  | presence => req.presencePenalty ≠ 0
  | repetition => req.repetitionPenalty ≠ 1

/-- A request's row of the tensors that `_prepare` makes. -/
def prepareRow (kind : PenalizerKind) (req : PenalizedReq V) : kind.Row V :=
  match kind with
  | frequency => PenaltyRow.mk req.frequencyPenalty fun _ => 0
  | minNewTokens =>
    MinNewTokensRow.mk req.minNewTokens
      (fun t => if t ∈ req.stopTokenIds ++ req.additionalStopTokenIds ++ [req.eosTokenId] then ⊥
        else 0) 0
  | presence => PenaltyRow.mk req.presencePenalty fun _ => 0
  | repetition => PenaltyRow.mk req.repetitionPenalty fun _ => 1

/-- `_prepare`; `pad_sequence` raises on an empty list of sequences. -/
def prepare (kind : PenalizerKind) (reqs : List (PenalizedReq V)) : Option (List (kind.Row V)) :=
  if kind = minNewTokens ∧ reqs = [] then none else some (reqs.map kind.prepareRow)

/-- `cumulated[mask] = penalties[mask]` where the mask is `occurrence_count() > 0`. -/
def maskRow (count : Fin V → Nat) (row : PenaltyRow V) : PenaltyRow V :=
  { row with cumulated := fun t => if 0 < count t then row.penalty else row.cumulated t }

/-- `_cumulate_input_tokens` on one row. -/
def cumulateInputRow (kind : PenalizerKind) (inputIds : List (Fin V)) (row : kind.Row V) :
    kind.Row V :=
  match kind with
  | frequency | minNewTokens | presence => row
  | repetition => maskRow (fun t => inputIds.count t) row

/-- The row of `occurrence_count` for one output token. -/
def outputCount (token t : Fin V) : Nat := if t = token then 1 else 0

/-- `_cumulate_output_tokens` on one row. -/
def cumulateOutputRow (kind : PenalizerKind) (token : Fin V) (row : kind.Row V) : kind.Row V :=
  match kind with
  | frequency =>
    let row : PenaltyRow V := row
    PenaltyRow.mk row.penalty fun t => row.cumulated t + row.penalty * outputCount token t
  | minNewTokens =>
    let row : MinNewTokensRow V := row
    { row with lenOutputTokens := row.lenOutputTokens + 1 }
  | presence | repetition => maskRow (outputCount token) row

def subtract (penalty : Rat) (x : Logit) : Logit := x.map (· - penalty)

/-- `where(x > 0, x / penalty, x * penalty)`. -/
def rescale (penalty : Rat) (x : Logit) : Logit :=
  x.map fun x => if 0 < x then x / penalty else x * penalty

/-- `_apply` on one row. -/
def applyRow (kind : PenalizerKind) (row : kind.Row V) (logits : Fin V → Logit) : Fin V → Logit :=
  match kind with
  | frequency | presence => fun t => subtract (PenaltyRow.cumulated row t) (logits t)
  | minNewTokens =>
    let row : MinNewTokensRow V := row
    fun t => if row.lenOutputTokens < row.minNewTokens then logits t + row.stopTokenPenalties t
      else logits t
  | repetition => fun t => rescale (PenaltyRow.cumulated row t) (logits t)

/-- What a penalizer does to the logits of a request with the given output tokens, from the
request alone. -/
def reference (kind : PenalizerKind) (req : PenalizedReq V) (outputIds : List (Fin V))
    (logits : Fin V → Logit) : Fin V → Logit :=
  match kind with
  | frequency => fun t => subtract (req.frequencyPenalty * outputIds.count t) (logits t)
  | presence => fun t => subtract (if t ∈ outputIds then req.presencePenalty else 0) (logits t)
  | repetition => fun t =>
    if t ∈ req.originInputIds ∨ t ∈ outputIds then rescale req.repetitionPenalty (logits t)
    else logits t
  | minNewTokens => fun t =>
    if outputIds.length < req.minNewTokens ∧
        t ∈ req.stopTokenIds ++ req.additionalStopTokenIds ++ [req.eosTokenId] then ⊥
    else logits t

/-- The row holds what the penalizer needs of the request and its outputs. The output length
only counts for a request with a minimum. -/
def RowFits (kind : PenalizerKind) (h : PenalizedReq V × List (Fin V)) (row : kind.Row V) : Prop :=
  match kind with
  | frequency => PenaltyRow.penalty row = h.1.frequencyPenalty ∧
      ∀ t, PenaltyRow.cumulated row t = h.1.frequencyPenalty * h.2.count t
  | presence => PenaltyRow.penalty row = h.1.presencePenalty ∧
      ∀ t, PenaltyRow.cumulated row t = if t ∈ h.2 then h.1.presencePenalty else 0
  | repetition => PenaltyRow.penalty row = h.1.repetitionPenalty ∧
      ∀ t, PenaltyRow.cumulated row t =
        if t ∈ h.1.originInputIds ∨ t ∈ h.2 then h.1.repetitionPenalty else 1
  | minNewTokens => MinNewTokensRow.minNewTokens row = h.1.minNewTokens ∧
      (∀ t, MinNewTokensRow.stopTokenPenalties row t =
        if t ∈ h.1.stopTokenIds ++ h.1.additionalStopTokenIds ++ [h.1.eosTokenId] then ⊥ else 0) ∧
      (0 < h.1.minNewTokens → MinNewTokensRow.lenOutputTokens row = h.2.length)

end PenalizerKind

/-- `BatchedPenalizerOrchestrator`: the requests of its batch, the keys of `penalizers` in
their order, and for each the rows of its tensors once it is prepared. -/
structure PenalizerOrchestrator (V : Nat) where
  reqs : List (PenalizedReq V)
  order : List PenalizerKind
  penalizers : (kind : PenalizerKind) → Option (List (kind.Row V))
  isRequired : Bool

namespace PenalizerOrchestrator

variable {V : Nat}

def penalizerRequired (reqs : List (PenalizedReq V)) (kind : PenalizerKind) : Bool :=
  reqs.any kind.requires

/-- `cumulate_input_tokens`, with the prompts of the requests. -/
def cumulateInputTokens (o : PenalizerOrchestrator V) : PenalizerOrchestrator V :=
  { o with penalizers := fun kind => (o.penalizers kind).map fun rows =>
      List.zipWith (fun req row => kind.cumulateInputRow req.originInputIds row) o.reqs rows }

/-- The loop of `__init__` that calls `prepare_if_required`. -/
def prepareIfRequired (order : List PenalizerKind) (reqs : List (PenalizedReq V)) :
    PenalizerOrchestrator V where
  reqs := reqs
  order := order
  penalizers kind :=
    if kind ∈ order ∧ penalizerRequired reqs kind then kind.prepare reqs else none
  isRequired := order.any (penalizerRequired reqs)

/-- `__init__`. -/
def new (order : List PenalizerKind) (reqs : List (PenalizedReq V)) : PenalizerOrchestrator V :=
  if order.any (penalizerRequired reqs) then (prepareIfRequired order reqs).cumulateInputTokens
  else prepareIfRequired order reqs

def cumulateOutputTokens (o : PenalizerOrchestrator V) (outputIds : List (Fin V)) :
    PenalizerOrchestrator V :=
  if o.isRequired then
    { o with penalizers := fun kind => (o.penalizers kind).map fun rows =>
        List.zipWith (fun token row => kind.cumulateOutputRow token row) outputIds rows }
  else o

/-- `apply` on the logits of the batch; where it returns nothing they stay as they are. -/
def apply (o : PenalizerOrchestrator V) (logits : List (Fin V → Logit)) : List (Fin V → Logit) :=
  if o.isRequired then
    o.order.foldl (fun logits kind =>
      match o.penalizers kind with
      | none => logits
      | some rows => List.zipWith kind.applyRow rows logits) logits
  else logits

/-- A loop over some of the penalizers; `none` is a raised exception. -/
def updateEach (update : (kind : PenalizerKind) → Option (List (kind.Row V)) →
      Option (Option (List (kind.Row V)))) :
    List PenalizerKind → ((kind : PenalizerKind) → Option (List (kind.Row V))) →
      Option ((kind : PenalizerKind) → Option (List (kind.Row V)))
  | [], penalizers => some penalizers
  | kind :: kinds, penalizers => do
    let rows ← update kind (penalizers kind)
    updateEach update kinds (Function.update penalizers kind rows)

/-- One penalizer of `filter`, after `batch.reqs` was filtered. -/
def filterPenalizer (reqs : List (PenalizedReq V)) (indicesToKeep : List Nat)
    (kind : PenalizerKind) (rows : Option (List (kind.Row V))) :
    Option (Option (List (kind.Row V))) :=
  if penalizerRequired reqs kind = false ∨ indicesToKeep = [] then some none
  else match rows with
    | none => some none
    | some rows => (gather rows indicesToKeep).map some

/-- `filter`, with the requests that are left; `none` is an index error. -/
def filter (o : PenalizerOrchestrator V) (reqs : List (PenalizedReq V))
    (indicesToKeep : List Nat) : Option (PenalizerOrchestrator V) :=
  if o.isRequired then do
    let penalizers ← updateEach (filterPenalizer reqs indicesToKeep) o.order o.penalizers
    pure { o with reqs, penalizers, isRequired := o.order.any (penalizerRequired reqs) }
  else some { o with reqs }

/-- `_BatchedPenalizer.merge`: both sides are prepared if one is. -/
def mergePenalizer (reqs theirReqs : List (PenalizedReq V)) (kind : PenalizerKind)
    (rows theirRows : Option (List (kind.Row V))) : Option (Option (List (kind.Row V))) :=
  if rows.isNone && theirRows.isNone then some none
  else do
    let rows ← rows.or (kind.prepare reqs)
    let theirRows ← theirRows.or (kind.prepare theirReqs)
    pure (some (rows ++ theirRows))

/-- One round of the loop of `merge` over the penalizers of the other side. -/
def mergeTheirs (o their : PenalizerOrchestrator V) (kind : PenalizerKind)
    (rows : Option (List (kind.Row V))) : Option (Option (List (kind.Row V))) :=
  if kind ∈ o.order then mergePenalizer o.reqs their.reqs kind rows (their.penalizers kind)
  else none

def merge (o their : PenalizerOrchestrator V) : Option (PenalizerOrchestrator V) :=
  if !o.isRequired && !their.isRequired then some o
  else do
    let penalizers ← updateEach (mergeTheirs o their) their.order o.penalizers
    pure { o with penalizers, isRequired := o.isRequired || their.isRequired }

end PenalizerOrchestrator

end FastPP
