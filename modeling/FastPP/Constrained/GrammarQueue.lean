import Mathlib.Logic.Function.Basic
import Mathlib.Data.List.Infix

namespace FastPP

inductive PyError
  | timeoutError
  | attributeError
  | indexError
  | raised (message : String)
  deriving DecidableEq

/-- A property of a class: reading calls the getter, and assigning calls the setter if there
is one. -/
structure Attribute (σ α : Type) where
  fget : σ → α
  fset : Option (α → σ → σ)

namespace Attribute

variable {σ α : Type} {attr : Attribute σ α} {s : σ} {value : α}

/-- `obj.attr = value`. -/
def assign (attr : Attribute σ α) (value : α) (s : σ) : Except PyError σ :=
  match attr.fset with
  | none => .error .attributeError
  | some set => .ok (set value s)

theorem assign_readOnly (h : attr.fset = none) : attr.assign value s = .error .attributeError := by
  unfold assign
  rw [h]

end Attribute

/-- `req.grammar` of a queued request: a future of the grammar backend, ready within the timeout or
not as this rank sees it, or the grammar that it gave. -/
inductive Grammar (γ : Type)
  | future (ready : Bool) (outcome : Except PyError γ)
  | object (grammar : γ)

namespace Grammar

variable {γ : Type}

/-- `grammar.result(timeout=0.05)`, or `grammar.result()`. Only futures have a result. -/
def result (timed : Bool) : Grammar γ → Except PyError γ
  | .future ready outcome => if timed && !ready then .error .timeoutError else outcome
  | .object _ => .error .attributeError

def isReady : Grammar γ → Bool
  | .future ready _ => ready
  | .object _ => false

/-- The grammar once its future is resolved. -/
def resolved : Grammar γ → Grammar γ
  | .future _ (.ok grammar) => .object grammar
  | other => other

/-- A future that gives a grammar sooner or later. -/
def Pending (grammar : Grammar γ) : Prop :=
  ∃ ready value, grammar = .future ready (.ok value)

end Grammar

/-- The grammar queues of a scheduler, one for each micro-batch, with its waiting queue. -/
structure GrammarSched (γ : Type) where
  grammar : Nat → Grammar γ
  waitingQueue : List Nat
  grammarQueues : Nat → List Nat
  cur : Nat

/-- The property `grammar_queue`, which has no setter. -/
def grammarQueue {γ : Type} : Attribute (GrammarSched γ) (List Nat) where
  fget S := S.grammarQueues S.cur
  fset := none

/-- The same property with a setter like those of `running_batch` and `being_chunked_req`. -/
def storedQueue {γ : Type} : Attribute (GrammarSched γ) (List Nat) where
  fget S := S.grammarQueues S.cur
  fset := some fun queue S =>
    { S with grammarQueues := Function.update S.grammarQueues S.cur queue }

/-- How a call ends on one rank: it returns, it raises, or it waits for a rank that does not reach
the collective operation. -/
inductive CallOutcome (σ : Type)
  | returned (s : σ)
  | raised (error : PyError) (s : σ)
  | blocked (s : σ)

section Loops

variable {γ : Type}

/-- The first loop of `move_ready_grammar_requests`. -/
def countReady (heap : Nat → Grammar γ) : List Nat → (Nat → Grammar γ) × Except PyError Nat
  | [] => (heap, .ok 0)
  | q :: queue =>
    match (heap q).result true with
    | .ok grammar =>
      let rest := countReady (Function.update heap q (.object grammar)) queue
      (rest.1, rest.2.map (· + 1))
    | .error .timeoutError => (heap, .ok 0)
    | .error error => (heap, .error error)

/-- The loop over `range(num_ready_reqs, num_ready_reqs_max)`. -/
def resolveRange (queue : List Nat) (heap : Nat → Grammar γ) (start : Nat) :
    Nat → (Nat → Grammar γ) × Except PyError Unit
  | 0 => (heap, .ok ())
  | count + 1 =>
    match queue[start]? with
    | none => (heap, .error .indexError)
    | some q =>
      match (heap q).result false with
      | .ok grammar =>
        resolveRange queue (Function.update heap q (.object grammar)) (start + 1) count
      | .error error => (heap, .error error)

end Loops

namespace GrammarSched

variable {γ : Type} (attr : Attribute (GrammarSched γ) (List Nat))

/-- The last two lines of `move_ready_grammar_requests`. -/
def moveReady (numReadyReqs : Nat) (S : GrammarSched γ) : CallOutcome (GrammarSched γ) :=
  let S := { S with waitingQueue := S.waitingQueue ++ (attr.fget S).take numReadyReqs }
  match attr.assign ((attr.fget S).drop numReadyReqs) S with
  | .ok S => .returned S
  | .error error => .raised error S

/-- `move_ready_grammar_requests` with the attribute `grammar_queue`. `allReduce` gives the
maximum over the group of tensor-parallel ranks, if all of them reach it. -/
def moveReadyGrammarRequests (tpSize : Nat) (allReduce : Option Nat) (S : GrammarSched γ) :
    CallOutcome (GrammarSched γ) :=
  let counted := countReady S.grammar (attr.fget S)
  let S := { S with grammar := counted.1 }
  match counted.2 with
  | .error error => .raised error S
  | .ok numReadyReqs =>
    if 1 < tpSize then
      match allReduce with
      | none => .blocked S
      | some numReadyReqsMax =>
        let synced := resolveRange (attr.fget S) S.grammar numReadyReqs
          (numReadyReqsMax - numReadyReqs)
        let S := { S with grammar := synced.1 }
        match synced.2 with
        | .error error => .raised error S
        | .ok () => S.moveReady attr numReadyReqsMax
    else S.moveReady attr numReadyReqs

end GrammarSched

/-- The schedulers of a server: `tpSize` ranks in each of `ppSize` pipeline stages. -/
structure GrammarRanks (γ : Type) where
  ppSize : Nat
  tpSize : Nat
  ppSize_pos : 0 < ppSize
  tpSize_pos : 0 < tpSize
  sched : Nat → Nat → GrammarSched γ

namespace GrammarRanks

variable {γ : Type} (attr : Attribute (GrammarSched γ) (List Nat)) (R : GrammarRanks γ)

/-- What the ranks of a stage count. -/
def counts (calls : Nat → Bool) (stage : Nat) : Option (List Nat) :=
  (List.range R.tpSize).mapM fun rank =>
    if calls rank then
      match (countReady (R.sched stage rank).grammar (attr.fget (R.sched stage rank))).2 with
      | .ok count => some count
      | .error _ => none
    else none

/-- `torch.distributed.all_reduce` with `ReduceOp.MAX` over `tp_cpu_group`. -/
def allReduceMax (calls : Nat → Bool) (stage : Nat) : Option Nat :=
  (R.counts attr calls stage).map fun counts => counts.foldr max 0

/-- All ranks call `move_ready_grammar_requests`. -/
def moveReadyGrammarRequests (stage rank : Nat) : CallOutcome (GrammarSched γ) :=
  (R.sched stage rank).moveReadyGrammarRequests attr R.tpSize
    (R.allReduceMax attr (fun _ => true) stage)

/-- The ranks whose `grammar_queue` is not empty. -/
def calls (stage rank : Nat) : Bool := !(attr.fget (R.sched stage rank)).isEmpty

/-- The first two lines of `get_new_batch_prefill`. -/
def checkGrammarQueue (stage rank : Nat) : CallOutcome (GrammarSched γ) :=
  if R.calls attr stage rank then
    (R.sched stage rank).moveReadyGrammarRequests attr R.tpSize
      (R.allReduceMax attr (R.calls attr stage) stage)
  else .returned (R.sched stage rank)

end GrammarRanks

end FastPP
