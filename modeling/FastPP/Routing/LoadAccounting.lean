import FastPP.Routing.CacheAware
import Mathlib.Data.List.Infix

namespace FastPP

/-- `data: [DONE]`. -/
def doneMarker : List UInt8 := [100, 97, 116, 97, 58, 32, 91, 68, 79, 78, 69, 93]

/-- Some window of the bytes is the marker. -/
def hasMarker (bytes : List UInt8) : Bool := decide (doneMarker <:+: bytes)

/-- The final event of a stream is in the bytes: a line that starts with the marker. In the
other events the marker can only stand inside a line, within the text that was generated. -/
def hasFinalEvent (bytes : List UInt8) : Bool :=
  decide (doneMarker <+: bytes) || decide (10 :: doneMarker <:+: bytes)

/-- A worker that `select_generate_worker` returned, with the loop counters of
`route_generate_request`; `decrements` counts how often the worker's load was decremented for
the selection. -/
structure Selection where
  url : String
  isStream : Bool
  requestRetries : Nat
  totalRetries : Nat
  decrements : Nat
  deriving DecidableEq

/-- Where a `route_generate_request` stands: before a selection, at an `await` of
`send_generate_request`, while its stream is forwarded, or between the locked sections of
`remove_worker`. -/
inductive RouteCall
  | selecting (isStream : Bool) (totalRetries : Nat)
  | sending (sel : Selection)
  | reading (sel : Selection) (success : Bool)
  | streaming (sel : Selection) (forwarded : List UInt8)
  | removing (sel : Selection)
  | unlisted (sel : Selection)
  | closed
  | panicked
  deriving DecidableEq

/-- What the load accounting of `Router::CacheAware` works on; the lock of `running_queue` is
poisoned by a panic under it. -/
structure RouterLoads where
  workerUrls : List String
  runningQueue : LoadQueue
  poisoned : Bool
  calls : List RouteCall

/-- A step of one of the calls; `select` has the worker that is selected. -/
inductive LoadStep
  | start (isStream : Bool)
  | select (client : Nat) (url : String)
  | sendFails (client : Nat)
  | respond (client : Nat) (success : Bool)
  | body (client : Nat) (readable : Bool)
  | chunk (client : Nat) (bytes : List UInt8)
  | streamEnds (client : Nat)
  | streamFails (client : Nat)
  | disconnect (client : Nat)
  | removeUrl (client : Nat)
  | removeRunning (client : Nat)
  deriving DecidableEq

/-- The head of the outer loop, after which all attempts have failed. -/
def outerLoop (isStream : Bool) (totalRetries : Nat) : RouteCall :=
  if totalRetries < 6 then .selecting isStream totalRetries else .closed

/-- The rest of the inner loop for a response that is no success. -/
def Selection.fail (sel : Selection) : RouteCall :=
  let sel := { sel with
    requestRetries := sel.requestRetries + 1
    totalRetries := sel.totalRetries + 1 }
  if sel.requestRetries = 3 then .removing sel else .sending sel

/-- The call goes on with an answer or with the next attempt. -/
def Selection.answer (sel : Selection) (success : Bool) : RouteCall :=
  if success then .closed else sel.fail

namespace RouterLoads

def new (workerUrls : List String) : RouterLoads := ⟨workerUrls, .ofUrls workerUrls, false, []⟩

def setCall (s : RouterLoads) (client : Nat) (call : RouteCall) : RouterLoads :=
  { s with calls := s.calls.set client call }

def setLoad (s : RouterLoads) (url : String) (count : Nat) : RouterLoads :=
  { s with runningQueue := s.runningQueue.insert url count }

/-- The end of `select_generate_worker`. -/
def select (s : RouterLoads) (client : Nat) (url : String) (isStream : Bool)
    (totalRetries : Nat) : RouterLoads :=
  if s.poisoned then s.setCall client .panicked
  else
    match s.runningQueue.lookup url with
    | none => { s with poisoned := true }.setCall client .panicked
    | some count => (s.setLoad url (count + 1)).setCall client
        (.sending ⟨url, isStream, 0, totalRetries, 0⟩)

/-- The response of a request that does not stream, after its body is read or is not. -/
def body (s : RouterLoads) (client : Nat) (sel : Selection) (success : Bool) : RouterLoads :=
  if s.poisoned then s.setCall client (sel.answer success)
  else
    match s.runningQueue.lookup sel.url with
    | none => s.setCall client (sel.answer success)
    | some count => (s.setLoad sel.url (count - 1)).setCall client
        ({ sel with decrements := sel.decrements + 1 }.answer success)

/-- The `inspect` of a chunk. -/
def chunk (s : RouterLoads) (client : Nat) (sel : Selection) (forwarded bytes : List UInt8) :
    RouterLoads :=
  if hasMarker bytes then
    if s.poisoned then s.setCall client .panicked
    else
      match s.runningQueue.lookup sel.url with
      | none => { s with poisoned := true }.setCall client .panicked
      | some count => (s.setLoad sel.url (count - 1)).setCall client
          (.streaming { sel with decrements := sel.decrements + 1 } (forwarded ++ bytes))
  else s.setCall client (.streaming sel (forwarded ++ bytes))

/-- One step; `none` where the call is not there. -/
def step (s : RouterLoads) : LoadStep → Option RouterLoads
  | .start isStream => some { s with calls := s.calls ++ [outerLoop isStream 0] }
  | .select client url =>
    match s.calls[client]? with
    | some (.selecting isStream totalRetries) =>
      some (s.select client url isStream totalRetries)
    | _ => none
  | .sendFails client =>
    match s.calls[client]? with
    | some (.sending sel) => some (s.setCall client sel.fail)
    | _ => none
  | .respond client success =>
    match s.calls[client]? with
    | some (.sending sel) =>
      if sel.isStream then
        some (s.setCall client (if success then .streaming sel [] else sel.fail))
      else some (s.setCall client (.reading sel success))
    | _ => none
  | .body client readable =>
    match s.calls[client]? with
    | some (.reading sel success) => some (s.body client sel (success && readable))
    | _ => none
  | .chunk client bytes =>
    match s.calls[client]? with
    | some (.streaming sel forwarded) => some (s.chunk client sel forwarded bytes)
    | _ => none
  | .streamEnds client =>
    match s.calls[client]? with
    | some (.streaming _ _) => some (s.setCall client .closed)
    | _ => none
  | .streamFails client =>
    match s.calls[client]? with
    | some (.streaming _ _) => some (s.setCall client .panicked)
    | _ => none
  | .disconnect client =>
    match s.calls[client]? with
    | some (.sending _) | some (.reading _ _) | some (.streaming _ _) =>
      some (s.setCall client .closed)
    | _ => none
  | .removeUrl client =>
    match s.calls[client]? with
    | some (.removing sel) =>
      if sel.url ∈ s.workerUrls then
        some ({ s with workerUrls := s.workerUrls.erase sel.url }.setCall client (.unlisted sel))
      else some (s.setCall client (outerLoop sel.isStream sel.totalRetries))
    | _ => none
  | .removeRunning client =>
    match s.calls[client]? with
    | some (.unlisted sel) =>
      if s.poisoned then some (s.setCall client .panicked)
      else some ({ s with runningQueue := s.runningQueue.erase sel.url }.setCall client
        (outerLoop sel.isStream sel.totalRetries))
    | _ => none

def run (s : RouterLoads) (steps : List LoadStep) : Option RouterLoads :=
  steps.foldlM step s

end RouterLoads

/-- The selection of a call whose request is neither answered nor abandoned. A stream is
answered when its final event has been forwarded. -/
def RouteCall.pending : RouteCall → Option Selection
  | .sending sel | .reading sel _ | .removing sel | .unlisted sel => some sel
  | .streaming sel forwarded => if hasFinalEvent forwarded then none else some sel
  | .selecting _ _ | .closed | .panicked => none

/-- The selection that a call works with. -/
def RouteCall.selection : RouteCall → Option Selection
  | .sending sel | .reading sel _ | .removing sel | .unlisted sel | .streaming sel _ => some sel
  | .selecting _ _ | .closed | .panicked => none

def RouteCall.waitsFor (url : String) (call : RouteCall) : Bool :=
  decide (call.pending.map Selection.url = some url)

namespace RouterLoads

/-- How many requests that were routed to the worker are neither answered nor abandoned. -/
def outstanding (s : RouterLoads) (url : String) : Nat :=
  s.calls.countP (RouteCall.waitsFor url)

/-- Each load is the number of outstanding requests, and no selection is counted down more
than once. -/
structure Accounts (s : RouterLoads) : Prop where
  counts : ∀ url count, s.runningQueue.lookup url = some count → count = s.outstanding url
  once : ∀ call ∈ s.calls, ∀ sel, call.selection = some sel → sel.decrements ≤ 1

/-- The step goes well for the account. As long as the worker of the call has a load: a body is
one of a success, a chunk has the marker in it exactly when it completes the final event, and
no request that is outstanding breaks off or leaves a worker whose load stays. A poisoned lock
spoils every decrement and removal. -/
def Kept (s : RouterLoads) : LoadStep → Prop
  | .body client readable => ∀ sel success, s.calls[client]? = some (.reading sel success) →
      sel.url ∈ s.runningQueue → ((success && readable) = true ↔ s.poisoned = false)
  | .chunk client bytes => ∀ sel forwarded,
      s.calls[client]? = some (.streaming sel forwarded) → sel.url ∈ s.runningQueue →
      if hasMarker bytes then
        if s.poisoned then hasFinalEvent forwarded = true
        else hasFinalEvent forwarded = false ∧ hasFinalEvent (forwarded ++ bytes) = true
      else hasFinalEvent (forwarded ++ bytes) = true → hasFinalEvent forwarded = true
  | .streamEnds client | .streamFails client | .disconnect client =>
    ∀ call sel, s.calls[client]? = some call → call.pending = some sel →
      sel.url ∉ s.runningQueue
  | .removeUrl client => ∀ sel, s.calls[client]? = some (.removing sel) →
      sel.url ∉ s.workerUrls → sel.url ∉ s.runningQueue
  | .removeRunning client => ∀ sel, s.calls[client]? = some (.unlisted sel) →
      s.poisoned = true → sel.url ∉ s.runningQueue
  | .start _ | .select _ _ | .sendFails _ | .respond _ _ => True

end RouterLoads

end FastPP
