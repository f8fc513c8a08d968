import Mathlib.Data.List.Basic

namespace FastPP

/-- What `_wait_one_response` reads of a request object. -/
structure WaitObj where
  rid : String
  stream : Bool
  deriving DecidableEq

/-- An `out_dict` of `handle_loop`: the id and the finish reason of its `meta_info`, and the rest. -/
structure OutDict (β : Type) where
  rid : String
  finishReason : Option String
  body : β
  deriving DecidableEq

/-- `ReqState`, where `event` is whether its event is set. -/
structure ReqState (β : Type) where
  outList : List (OutDict β)
  finished : Bool
  event : Bool
  deriving DecidableEq

/-- Where a generator of `_wait_one_response` is suspended: it is made, a task has it to start, or
it awaits the event, `request.is_disconnected()` or whoever iterates over it. -/
inductive Suspension
  | created
  | scheduled
  | waiting
  | checking
  | yielded
  | ended
  deriving DecidableEq

/-- A generator of `_wait_one_response`, and the responses that it has yielded. -/
structure Waiter (β : Type) where
  obj : WaitObj
  hasRequest : Bool
  state : ReqState β
  place : Suspension
  yields : List (OutDict β)
  deriving DecidableEq

/-- Where a task of `generate_request` is suspended; a generator is named by its index. -/
inductive Handler
  | tokenizing (obj : WaitObj)
  | sending (obj : WaitObj) (left : List WaitObj) (generators : List Nat)
  | tokenizingAll (objs : List WaitObj) (parallelSampleNum : Nat)
  | caching (generator : Nat) (left objs : List WaitObj) (parallelSampleNum : Nat)
  | waiting (generators : List Nat)
  | failed
  deriving DecidableEq

/-- A task of `generate_request`; `hasRequest` is whether there is a client to ask for. -/
structure HandlerTask where
  hasRequest : Bool
  handler : Handler
  deriving DecidableEq

/-- A request for one input or for a batch, after `normalize_batch_and_arguments`. -/
inductive GenerateCall
  | single (obj : WaitObj)
  | batch (objs : List WaitObj) (parallelSampleNum : Nat)

/-- What is sent to the scheduler. -/
inductive SchedulerMessage
  | generate (rid : String)
  | abort (rid : String)
  deriving DecidableEq

/-- `TokenizerManager`: its tasks, `rid_to_state` (the generator whose state an id has), how many
uuids it has drawn, and the messages that it has sent and received. -/
structure TokenizerManager (β : Type) where
  tasks : List HandlerTask
  waiters : List (Waiter β)
  ridToState : String → Option Nat
  drawn : Nat
  sent : List SchedulerMessage
  received : List (OutDict β)

/-- What can happen next: a call, a task that goes on from its await, a batch of outputs or an
abort. -/
inductive ManagerEvent (β : Type)
  | generate (call : GenerateCall) (hasRequest : Bool)
  | tokenized (h : Nat)
  | refused (h : Nat)
  | cached (h : Nat)
  | started (i : Nat)
  | woken (i : Nat)
  | timedOut (i : Nat)
  | checked (i : Nat) (disconnected : Bool)
  | resumed (i : Nat)
  | received (outs : List (OutDict β))
  | aborted (rid : String)

/-- The generator has run its first lines, and has not returned or raised. -/
def Suspension.running : Suspension → Bool
  | waiting | checking | yielded => true
  | created | scheduled | ended => false

theorem Suspension.running_ne_ended {place : Suspension} (h : place.running = true) :
    place ≠ .ended := by
  intro hended
  rw [hended] at h
  cases h

namespace Waiter

variable {β : Type}

/-- The generator before its first `__anext__`. -/
def new (obj : WaitObj) (hasRequest : Bool) : Waiter β :=
  ⟨obj, hasRequest, ⟨[], false, false⟩, .created, []⟩

/-- The first lines, up to the wait for the event. -/
def start (w : Waiter β) : Waiter β :=
  { w with state := ⟨[], false, false⟩, place := .waiting }

/-- Nothing is to be yielded: the client is asked for, if there is one. -/
def check (w : Waiter β) : Waiter β :=
  { w with place := if w.hasRequest then .checking else .waiting }

/-- From the event, with the last output, to the next suspension; `registered` is whether
`rid_to_state` has the id, without which `del` raises. -/
def wake (w : Waiter β) (out : OutDict β) (registered : Bool) : Waiter β :=
  if w.state.finished then
    { w with
      state := { w.state with outList := [] }
      place := .ended
      yields := if registered then w.yields ++ [out] else w.yields }
  else if w.obj.stream then
    { w with
      state := { w.state with outList := [], event := false }
      place := .yielded
      yields := w.yields ++ [out] }
  else { w with state := { w.state with outList := [], event := false } }.check

/-- An output stored by `handle_loop`. -/
def store (w : Waiter β) (out : OutDict β) : Waiter β :=
  { w with state := ⟨w.state.outList ++ [out], out.finishReason.isSome, true⟩ }

end Waiter

namespace TokenizerManager

variable {β : Type}

/-- No call yet. -/
def init : TokenizerManager β := ⟨[], [], fun _ => none, 0, [], []⟩

def setWaiter (m : TokenizerManager β) (i : Nat) (w : Waiter β) : TokenizerManager β :=
  { m with waiters := m.waiters.set i w }

def addTask (m : TokenizerManager β) (task : HandlerTask) : TokenizerManager β :=
  { m with tasks := m.tasks ++ [task] }

def setTask (m : TokenizerManager β) (h : Nat) (task : HandlerTask) : TokenizerManager β :=
  { m with tasks := m.tasks.set h task }

/-- `self.send_to_scheduler.send_pyobj(tokenized_obj)`, and the generator for the response. -/
def sendRequest (m : TokenizerManager β) (obj : WaitObj) (hasRequest : Bool) : TokenizerManager β :=
  { m with
    waiters := m.waiters ++ [Waiter.new obj hasRequest]
    sent := m.sent ++ [.generate obj.rid] }

/-- A generator is started: `self.rid_to_state[obj.rid] = state`. -/
def start (m : TokenizerManager β) (i : Nat) (w : Waiter β) : TokenizerManager β :=
  { m.setWaiter i w.start with
    ridToState := fun rid => if rid = w.obj.rid then some i else m.ridToState rid }

/-- A request is sent and its generator started, with no await in between. -/
def sendAndWait (m : TokenizerManager β) (obj : WaitObj) (hasRequest : Bool) : TokenizerManager β :=
  (m.sendRequest obj hasRequest).start m.waiters.length (Waiter.new obj hasRequest)

/-- The tasks of `gather` or `create_task`, one for each generator. -/
def schedule (m : TokenizerManager β) (generators : List Nat) : TokenizerManager β :=
  { m with
    waiters := m.waiters.mapIdx fun i w =>
      if i ∈ generators ∧ w.place = .created then { w with place := .scheduled } else w }

/-- `tmp_obj.regenerate_rid()`. -/
def regenerateRid (uuid : Nat → String) (m : TokenizerManager β) (obj : WaitObj) :
    TokenizerManager β × WaitObj :=
  ({ m with drawn := m.drawn + 1 }, { obj with rid := uuid m.drawn })

/-- The expanded requests of parallel sampling. -/
def sendExpanded (uuid : Nat → String) (hasRequest : Bool) (m : TokenizerManager β) :
    List WaitObj → TokenizerManager β
  | [] => m
  | obj :: left =>
    let (drawn, expanded) := m.regenerateRid uuid obj
    sendExpanded uuid hasRequest (drawn.sendRequest expanded hasRequest) left

/-- The loop of a batch that tokenizes and sends, up to its next await: all generators are awaited
when all requests are sent. -/
def tokenizeNext (m : TokenizerManager β) (left : List WaitObj) (generators : List Nat) :
    TokenizerManager β × Handler :=
  match left with
  | obj :: left => (m, .sending obj left generators)
  | [] => (m.schedule generators, .waiting generators)

/-- The loop of parallel sampling that caches the prefixes, up to its next await: after the last
prefix the requests are expanded, and all generators are awaited. -/
def cacheNext (uuid : Nat → String) (m : TokenizerManager β) (hasRequest : Bool)
    (left objs : List WaitObj) (parallelSampleNum : Nat) : TokenizerManager β × Handler :=
  match left with
  | obj :: left =>
    let (drawn, prefixed) := m.regenerateRid uuid obj
    (drawn.sendAndWait prefixed hasRequest,
      .caching m.waiters.length left objs parallelSampleNum)
  | [] =>
    let sent := m.sendExpanded uuid hasRequest (objs.flatMap (List.replicate parallelSampleNum))
    let generators := List.range' m.waiters.length (objs.length * parallelSampleNum)
    (sent.schedule generators, .waiting generators)

/-- `generate_request`, up to its first await. -/
def firstAwait (m : TokenizerManager β) (call : GenerateCall) : TokenizerManager β × Handler :=
  match call with
  | .single obj => (m, .tokenizing obj)
  | .batch objs parallelSampleNum =>
    if parallelSampleNum = 1 then m.tokenizeNext objs []
    else (m, .tokenizingAll objs parallelSampleNum)

/-- A task goes on after `_tokenize_one_request`. -/
def afterTokenizing (uuid : Nat → String) (m : TokenizerManager β) (task : HandlerTask) :
    Option (TokenizerManager β × Handler) :=
  match task.handler with
  | .tokenizing obj => some (m.sendAndWait obj task.hasRequest, .waiting [m.waiters.length])
  | .sending obj left generators =>
    some ((m.sendRequest obj task.hasRequest).tokenizeNext left (generators ++ [m.waiters.length]))
  | .tokenizingAll objs parallelSampleNum =>
    some (m.cacheNext uuid task.hasRequest objs objs parallelSampleNum)
  | .caching _ _ _ _ | .waiting _ | .failed => none

/-- `_tokenize_one_request` raises. -/
def refuses (task : HandlerTask) : Bool :=
  match task.handler with
  | .tokenizing _ | .sending _ _ _ | .tokenizingAll _ _ => true
  | .caching _ _ _ _ | .waiting _ | .failed => false

/-- A task goes on after the first response for a prefix, or fails where its generator raised. -/
def afterCaching (uuid : Nat → String) (m : TokenizerManager β) (task : HandlerTask) :
    Option (TokenizerManager β × Handler) :=
  match task.handler with
  | .caching generator left objs parallelSampleNum => do
    let w ← m.waiters[generator]?
    if w.yields ≠ [] then some (m.cacheNext uuid task.hasRequest left objs parallelSampleNum)
    else if w.place = .ended then some (m, .failed)
    else none
  | .tokenizing _ | .sending _ _ _ | .tokenizingAll _ _ | .waiting _ | .failed => none

/-- `del self.rid_to_state[rid]`. -/
def unregister (m : TokenizerManager β) (rid : String) : TokenizerManager β :=
  { m with ridToState := fun r => if r = rid then none else m.ridToState r }

def abortRequest (m : TokenizerManager β) (rid : String) : TokenizerManager β :=
  if (m.ridToState rid).isSome then
    { m.unregister rid with sent := m.sent ++ [.abort rid] }
  else m

/-- A generator goes on after its event. -/
def wake (m : TokenizerManager β) (i : Nat) (w : Waiter β) : TokenizerManager β :=
  match w.state.outList.getLast? with
  | none => m.setWaiter i { w with place := .ended }
  | some out =>
    let woken := m.setWaiter i (w.wake out (m.ridToState w.obj.rid).isSome)
    if w.state.finished then woken.unregister w.obj.rid else woken

/-- A row of a received batch. -/
def handleOutput (m : TokenizerManager β) (out : OutDict β) : TokenizerManager β :=
  let heard := { m with received := m.received ++ [out] }
  match m.ridToState out.rid with
  | none => heard
  | some i =>
    match m.waiters[i]? with
    | none => heard
    | some w => heard.setWaiter i (w.store out)

def hasSent (m : TokenizerManager β) (rid : String) : Bool := SchedulerMessage.generate rid ∈ m.sent

/-- The abort of the request has been sent. -/
def hasAborted (m : TokenizerManager β) (rid : String) : Bool := SchedulerMessage.abort rid ∈ m.sent

/-- The tasks go on from await to await in any order. The scheduler answers what was sent to it. -/
def step (uuid : Nat → String) (m : TokenizerManager β) :
    ManagerEvent β → Option (TokenizerManager β)
  | .generate call hasRequest =>
    let (m', handler) := m.firstAwait call
    some (m'.addTask ⟨hasRequest, handler⟩)
  | .tokenized h => do
    let task ← m.tasks[h]?
    let (m', handler) ← m.afterTokenizing uuid task
    some (m'.setTask h { task with handler })
  | .refused h => do
    let task ← m.tasks[h]?
    if refuses task then some (m.setTask h { task with handler := .failed }) else none
  | .cached h => do
    let task ← m.tasks[h]?
    let (m', handler) ← m.afterCaching uuid task
    some (m'.setTask h { task with handler })
  | .started i => do
    let w ← m.waiters[i]?
    if w.place = .scheduled then some (m.start i w) else none
  | .woken i => do
    let w ← m.waiters[i]?
    if w.place = .waiting ∧ w.state.event = true then some (m.wake i w) else none
  | .timedOut i => do
    let w ← m.waiters[i]?
    if w.place = .waiting then some (m.setWaiter i w.check) else none
  | .checked i disconnected => do
    let w ← m.waiters[i]?
    if w.place = .checking then
      if disconnected then some ((m.abortRequest w.obj.rid).setWaiter i { w with place := .ended })
      else some (m.setWaiter i { w with place := .waiting })
    else none
  | .resumed i => do
    let w ← m.waiters[i]?
    if w.place = .yielded then some (m.setWaiter i { w with place := .waiting }) else none
  | .received outs =>
    if outs.all fun out => m.hasSent out.rid then some (outs.foldl handleOutput m) else none
  | .aborted rid => some (m.abortRequest rid)

/-- A run of events. -/
def run (uuid : Nat → String) (m : TokenizerManager β) :
    List (ManagerEvent β) → Option (TokenizerManager β)
  | [] => some m
  | event :: events => (m.step uuid event).bind fun m' => run uuid m' events

end TokenizerManager

end FastPP
