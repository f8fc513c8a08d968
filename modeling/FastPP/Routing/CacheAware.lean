import FastPP.Routing.TreeRuns

namespace FastPP

/-- `running_queue` and `processed_queue`, in the order in which they are iterated. -/
abbrev LoadQueue := AList fun _ : String => Nat

namespace LoadQueue

def loads (queue : LoadQueue) : List Nat := queue.entries.map (·.2)

def maxLoad (queue : LoadQueue) : Nat := queue.loads.max?.getD 0

def minLoad (queue : LoadQueue) : Nat := queue.loads.min?.getD 0

/-- `min_by_key` over the loads: the first of the least. -/
def shortest (queue : LoadQueue) : Option String :=
  (queue.entries.argmin fun entry => entry.2).map (·.1)

/-- An entry with no load for every worker. -/
def ofUrls (urls : List String) : LoadQueue :=
  urls.foldl (fun queue url => queue.insert url 0) ∅

end LoadQueue

/-- The thresholds of `Router::CacheAware`; the comparisons of floats are given. -/
structure BalancePolicy where
  balanceAbsThreshold : Nat
  aboveRelThreshold : Nat → Nat → Bool
  aboveCacheThreshold : Nat → Nat → Bool

/-- Where a client stands between the locked sections of `select_generate_worker`
(`selecting` to `selected`), `add_worker` (`listed` to `counted`) and `remove_worker`
(`unlisted` to `unqueued`). -/
inductive RouterCall
  | idle
  | selecting (text : List Char)
  | routed (text : List Char) (url : String)
  | selected (url : String)
  | listed (url : String)
  | queued (url : String)
  | counted (url : String)
  | unlisted (url : String)
  | untenanted (url : String)
  | unqueued (url : String)
  | panicked
  deriving DecidableEq, Repr

/-- The call is a `remove_worker` that has not reached `running_queue`. -/
def RouterCall.Removing (url : String) (call : RouterCall) : Prop :=
  call = .unlisted url ∨ call = .untenanted url

/-- `Router::CacheAware`, with the holders of two locks and the calls of its clients. -/
structure CacheAware where
  workerUrls : List String
  tree : TenantTree
  runningQueue : LoadQueue
  processedQueue : LoadQueue
  treeHolder : Option Nat
  runningHolder : Option Nat
  callers : Nat → RouterCall

/-- A locked section; `evict` is the one of the eviction thread. -/
inductive RouterStep
  | lockTree (client : Nat) (text : List Char)
  | lockRunning (client now : Nat)
  | lockProcessed (client now : Nat)
  | finish (client : Nat)
  | addUrl (client : Nat) (url : String)
  | addRunning (client : Nat)
  | addProcessed (client : Nat)
  | addTenant (client now : Nat)
  | removeUrl (client : Nat) (url : String)
  | removeTenant (client : Nat)
  | removeRunning (client : Nat)
  | removeProcessed (client : Nat)
  | evict (maxSize : Nat)
  deriving DecidableEq, Repr

namespace CacheAware

def setCaller (s : CacheAware) (client : Nat) (call : RouterCall) : CacheAware :=
  { s with callers := Function.update s.callers client call }

def isImbalanced (policy : BalancePolicy) (queue : LoadQueue) : Bool :=
  decide (policy.balanceAbsThreshold < queue.maxLoad - queue.minLoad) &&
    policy.aboveRelThreshold queue.maxLoad queue.minLoad

/-- `selected_url`, with the tree that `prefix_match` leaves. -/
def selectUrl (policy : BalancePolicy) (s : CacheAware) (text : List Char) (now : Nat) :
    Option (TenantTree × String) :=
  if isImbalanced policy s.runningQueue then
    match s.runningQueue.shortest with
    | some url => some (s.tree, url)
    | none => s.workerUrls.head?.map fun url => (s.tree, url)
  else do
    let (tree, matchedText, matchedWorker) ← s.tree.prefixMatch text now
    if policy.aboveCacheThreshold matchedText.length text.length then pure (tree, matchedWorker)
    else pure (tree, tree.getSmallestTenant)

/-- `select_generate_worker` from its lock of `running_queue` to its lock of
`processed_queue`. A client that panics keeps its locks, which are poisoned. -/
def lockRunning (policy : BalancePolicy) (s : CacheAware) (client : Nat) (text : List Char)
    (now : Nat) : CacheAware :=
  let s := { s with runningHolder := some client }
  match selectUrl policy s text now with
  | none => s.setCaller client .panicked
  | some (tree, url) =>
    let s := { s with tree := tree }
    match s.runningQueue.lookup url with
    | none => s.setCaller client .panicked
    | some count =>
      { s with runningQueue := s.runningQueue.insert url (count + 1) }.setCaller client
        (.routed text url)

/-- `select_generate_worker` from its lock of `processed_queue` on. -/
def lockProcessed (s : CacheAware) (client : Nat) (text : List Char) (url : String) (now : Nat) :
    CacheAware :=
  match s.processedQueue.lookup url with
  | none => s.setCaller client .panicked
  | some count =>
    let s := { s with processedQueue := s.processedQueue.insert url (count + 1) }
    match s.tree.insert text url now with
    | none => s.setCaller client .panicked
    | some tree =>
      { s with tree := tree, treeHolder := none, runningHolder := none }.setCaller client
        (.selected url)

/-- One section; `none` where the client is not there or a lock is held. -/
def step (policy : BalancePolicy) (heap : EvictionHeap) (s : CacheAware) :
    RouterStep → Option CacheAware
  | .lockTree client text =>
    if s.callers client = .idle ∧ s.treeHolder = none then
      some ({ s with treeHolder := some client }.setCaller client (.selecting text))
    else none
  | .lockRunning client now =>
    match s.callers client with
    | .selecting text =>
      if s.runningHolder = none then some (s.lockRunning policy client text now) else none
    | _ => none
  | .lockProcessed client now =>
    match s.callers client with
    | .routed text url => some (s.lockProcessed client text url now)
    | _ => none
  | .finish client =>
    match s.callers client with
    | .selected _ => some (s.setCaller client .idle)
    | _ => none
  | .addUrl client url =>
    if s.callers client = .idle then
      if url ∈ s.workerUrls then some s
      else some ({ s with workerUrls := s.workerUrls ++ [url] }.setCaller client (.listed url))
    else none
  | .addRunning client =>
    match s.callers client with
    | .listed url =>
      if s.runningHolder = none then
        some ({ s with runningQueue := s.runningQueue.insert url 0 }.setCaller client (.queued url))
      else none
    | _ => none
  | .addProcessed client =>
    match s.callers client with
    | .queued url =>
      some ({ s with processedQueue := s.processedQueue.insert url 0 }.setCaller client
        (.counted url))
    | _ => none
  | .addTenant client now =>
    match s.callers client with
    | .counted url =>
      if s.treeHolder = none then
        match s.tree.insert [] url now with
        | none => some (s.setCaller client .panicked)
        | some tree => some ({ s with tree := tree }.setCaller client .idle)
      else none
    | _ => none
  | .removeUrl client url =>
    if s.callers client = .idle then
      if url ∈ s.workerUrls then
        some ({ s with workerUrls := s.workerUrls.erase url }.setCaller client (.unlisted url))
      else some s
    else none
  | .removeTenant client =>
    match s.callers client with
    | .unlisted url =>
      if s.treeHolder = none then
        match s.tree.removeTenant url with
        | none => some (s.setCaller client .panicked)
        | some tree => some ({ s with tree := tree }.setCaller client (.untenanted url))
      else none
    | _ => none
  | .removeRunning client =>
    match s.callers client with
    | .untenanted url =>
      if s.runningHolder = none then
        some ({ s with runningQueue := s.runningQueue.erase url }.setCaller client (.unqueued url))
      else none
    | _ => none
  | .removeProcessed client =>
    match s.callers client with
    | .unqueued url =>
      some ({ s with processedQueue := s.processedQueue.erase url }.setCaller client .idle)
    | _ => none
  | .evict maxSize =>
    if s.treeHolder = none then
      (s.tree.evictTenantBySize heap maxSize).map fun tree => { s with tree := tree }
    else none

/-- The tree of `Router::new`: every worker is a tenant of the empty text. -/
def plant : TenantTree → List String → Nat → Option TenantTree
  | tree, [], _ => some tree
  | tree, url :: urls, now => do
    let tree ← tree.insert [] url now
    plant tree urls now

/-- `Router::new` with its tree. -/
def new (workerUrls : List String) (tree : TenantTree) : CacheAware :=
  ⟨workerUrls, tree, .ofUrls workerUrls, .ofUrls workerUrls, none, none, fun _ => .idle⟩

/-- The maps are iterated in other orders. -/
structure Reordered (s s' : CacheAware) : Prop where
  urls : s'.workerUrls = s.workerUrls
  tree : s.tree.Reordered s'.tree
  running : s'.runningQueue.entries.Perm s.runningQueue.entries
  processed : s'.processedQueue.entries.Perm s.processedQueue.entries
  treeHolder : s'.treeHolder = s.treeHolder
  runningHolder : s'.runningHolder = s.runningHolder
  callers : s'.callers = s.callers

/-- What the runs reach whose steps satisfy a condition. -/
inductive Run (policy : BalancePolicy) (heap : EvictionHeap)
    (condition : CacheAware → RouterStep → Prop) (workerUrls : List String) : CacheAware → Prop
  | new {tree : TenantTree} {now : Nat} (planted : plant .new workerUrls now = some tree) :
      Run policy heap condition workerUrls (.new workerUrls tree)
  | step {s s' : CacheAware} {action : RouterStep} (run : Run policy heap condition workerUrls s)
      (met : condition s action) (next : s.step policy heap action = some s') :
      Run policy heap condition workerUrls s'
  | reorder {s s' : CacheAware} (run : Run policy heap condition workerUrls s)
      (same : s.Reordered s') : Run policy heap condition workerUrls s'

/-- No call has panicked, and a selection that has chosen a worker finds it in both queues,
added and not yet removed. -/
structure Safe (s : CacheAware) : Prop where
  not_panicked : ∀ client, s.callers client ≠ .panicked
  selected : ∀ client text url, s.callers client = .routed text url →
    url ∈ s.runningQueue ∧ url ∈ s.processedQueue ∧
      (url ∈ s.workerUrls ∨ ∃ other, (s.callers other).Removing url)

/-- A balanced selection finds a tenant, and an imbalanced one no least loaded worker that
an `add_worker` has put into `running_queue` only. -/
def Choosable (policy : BalancePolicy) (s : CacheAware) : Prop :=
  if isImbalanced policy s.runningQueue then
    ∀ client url, s.callers client = .queued url →
      s.runningQueue.lookup url ≠ some s.runningQueue.minLoad
  else ∃ url, url ∈ s.tree.tenantCharCount

/-- No call overtakes another one of the same worker: an entry of `running_queue` is made
for a worker that is listed, a tenant of the tree for one that has its entries, an entry of
`running_queue` is removed when the tenant is gone, and one of `processed_queue` when the
entry of `running_queue` is. -/
def Undisturbed (policy : BalancePolicy) (s : CacheAware) : RouterStep → Prop
  | .lockRunning _ _ => s.Choosable policy
  | .addRunning client => ∀ url, s.callers client = .listed url → url ∈ s.workerUrls
  | .addTenant client _ => ∀ url, s.callers client = .counted url →
      url ∈ s.runningQueue ∧ url ∈ s.processedQueue
  | .removeRunning client => ∀ url, s.callers client = .untenanted url →
      url ∉ s.tree.tenantCharCount
  | .removeProcessed client => ∀ url, s.callers client = .unqueued url → url ∉ s.runningQueue
  | _ => True

end CacheAware

end FastPP
