import FastPP.Lib.StackWalk
import Mathlib.Data.List.AList
import Mathlib.Data.List.MinMax
import Mathlib.Logic.Function.Basic
import Mathlib.Algebra.Ring.Nat

namespace FastPP

/-- A `DashMap`; its entries stand in the order in which it is iterated. -/
abbrev DashMap (K V : Type) := AList fun _ : K => V

/-- The keys with their values. -/
def DashMap.values {K V : Type} (map : DashMap K V) : List V := map.entries.map (·.2)

/-- `Node`, an object of the heap of nodes. -/
structure TenantNode where
  children : DashMap Char Nat
  text : List Char
  tenantLastAccessTime : DashMap String Nat
  parent : Option Nat

def TenantNode.empty : TenantNode := ⟨∅, [], ∅, none⟩

/-- `Tree`: node 0 is its root, and the first `nextNode` nodes exist. -/
structure TenantTree where
  nodes : Nat → TenantNode
  nextNode : Nat
  tenantCharCount : DashMap String Nat

/-- `EvictionEntry`. -/
structure EvictionEntry where
  timestamp : Nat
  tenant : String
  node : Nat
  deriving DecidableEq, Repr

/-- `BinaryHeap<Reverse<EvictionEntry>>`: it pops some entry with the least timestamp. -/
structure EvictionHeap where
  pop : List EvictionEntry → Option (EvictionEntry × List EvictionEntry)
  pop_nil : pop [] = none
  pop_cons : ∀ x xs, ∃ y rest, pop (x :: xs) = some (y, rest) ∧ (y :: rest).Perm (x :: xs) ∧
    ∀ z ∈ rest, y.timestamp ≤ z.timestamp

/-- `shared_prefix_count`. -/
def sharedPrefixCount : List Char → List Char → Nat
  | a :: as, b :: bs => if a = b then sharedPrefixCount as bs + 1 else 0
  | _, _ => 0

namespace TenantTree

/-- `Tree::new`. -/
def new : TenantTree := ⟨fun _ => .empty, 1, ∅⟩

def setNode (S : TenantTree) (n : Nat) (node : TenantNode) : TenantTree :=
  { S with nodes := Function.update S.nodes n node }

/-- `node.tenant_last_access_time.insert(tenant, timestamp)`. -/
def touch (S : TenantTree) (n : Nat) (tenant : String) (now : Nat) : TenantTree :=
  S.setNode n { S.nodes n with
    tenantLastAccessTime := (S.nodes n).tenantLastAccessTime.insert tenant now }

/-- `entry(tenant).and_modify(|count| *count += chars).or_insert(chars)`. -/
def addChars (S : TenantTree) (tenant : String) (chars : Nat) : TenantTree :=
  { S with tenantCharCount :=
      S.tenantCharCount.insert tenant ((S.tenantCharCount.lookup tenant).getD 0 + chars) }

/-- The tenant gets a node that is there: its characters count unless the tenant had it. -/
def claim (S : TenantTree) (n : Nat) (tenant : String) (now : Nat) : TenantTree :=
  let counted := if tenant ∈ (S.nodes n).tenantLastAccessTime then S
    else S.addChars tenant (S.nodes n).text.length
  counted.touch n tenant now

/-- The vacant branch of `insert`: a new node below `curr`. -/
def addNode (S : TenantTree) (curr : Nat) (firstChar : Char) (currText : List Char)
    (tenant : String) (now : Nat) : TenantTree :=
  let newNode := S.nextNode
  let S := { S with nextNode := S.nextNode + 1 }
  let S := S.setNode newNode ⟨∅, currText, ∅, some curr⟩
  let S := S.addChars tenant currText.length
  let S := S.touch newNode tenant now
  S.setNode curr { S.nodes curr with children := (S.nodes curr).children.insert firstChar newNode }

/-- The split of a matched node in `insert`: a new node has the first characters and the
tenants of the matched one, which keeps the others. -/
def splitNode (S : TenantTree) (curr : Nat) (firstChar : Char) (matchedNode sharedCount : Nat) :
    Option (TenantTree × Nat) := do
  let matchedText := (S.nodes matchedNode).text.take sharedCount
  let contractedText := (S.nodes matchedNode).text.drop sharedCount
  let firstNewChar ← contractedText.head?
  let newNode := S.nextNode
  let S := { S with nextNode := S.nextNode + 1 }
  let S := S.setNode newNode
    ⟨AList.singleton firstNewChar matchedNode, matchedText,
      (S.nodes matchedNode).tenantLastAccessTime, some curr⟩
  let S := S.setNode curr
    { S.nodes curr with children := (S.nodes curr).children.insert firstChar newNode }
  let S := S.setNode matchedNode
    { S.nodes matchedNode with text := contractedText, parent := some newNode }
  pure (S, newNode)

/-- The loop of `insert` below the node `prev`, with the text from `curr_idx` on. -/
def insertLoop (tenant : String) (now : Nat) : Nat → TenantTree → Nat → List Char →
    Option TenantTree
  | _, S, _, [] => some S
  | 0, _, _, _ :: _ => none
  | fuel + 1, S, prev, firstChar :: rest =>
    let currText := firstChar :: rest
    match (S.nodes prev).children.lookup firstChar with
    | none => some (S.addNode prev firstChar currText tenant now)
    | some matchedNode =>
      let sharedCount := sharedPrefixCount (S.nodes matchedNode).text currText
      if sharedCount < (S.nodes matchedNode).text.length then do
        let (S, newNode) ← S.splitNode prev firstChar matchedNode sharedCount
        insertLoop tenant now fuel (S.claim newNode tenant now) newNode (currText.drop sharedCount)
      else
        insertLoop tenant now fuel (S.claim matchedNode tenant now) matchedNode
          (currText.drop sharedCount)

/-- `insert`, with the text as its characters. -/
def insert (S : TenantTree) (text : List Char) (tenant : String) (now : Nat) :
    Option TenantTree :=
  let S := S.touch 0 tenant now
  let S := S.addChars tenant 0
  insertLoop tenant now text.length S 0 text

/-- The loop of `prefix_match` and `prefix_match_tenant`, which go on into the nodes that
`accepts` lets pass: the last node, and how many characters of the text match. -/
def matchLoop (S : TenantTree) (accepts : Nat → Bool) : Nat → Nat → List Char → Nat →
    Option (Nat × Nat)
  | _, prev, [], currIdx => some (prev, currIdx)
  | 0, _, _ :: _, _ => none
  | fuel + 1, prev, firstChar :: rest, currIdx =>
    let currText := firstChar :: rest
    match (S.nodes prev).children.lookup firstChar with
    | none => some (prev, currIdx)
    | some matchedNode =>
      if accepts matchedNode then
        let sharedCount := sharedPrefixCount (S.nodes matchedNode).text currText
        if sharedCount = (S.nodes matchedNode).text.length then
          matchLoop S accepts fuel matchedNode (currText.drop sharedCount) (currIdx + sharedCount)
        else some (matchedNode, currIdx + sharedCount)
      else some (prev, currIdx)

/-- The way from a node to the root, with the tenant's time written to every node on it. -/
def touchUp (tenant : String) (now : Nat) : Nat → TenantTree → Nat → Option TenantTree
  | 0, _, _ => none
  | fuel + 1, S, n =>
    match (S.nodes n).parent with
    | none => some (S.touch n tenant now)
    | some parent => touchUp tenant now fuel (S.touch n tenant now) parent

/-- `prefix_match`: the matched text, and the first tenant of the last node. -/
def prefixMatch (S : TenantTree) (text : List Char) (now : Nat) :
    Option (TenantTree × List Char × String) := do
  let (curr, currIdx) ← S.matchLoop (fun _ => true) text.length 0 text 0
  let tenant := ((S.nodes curr).tenantLastAccessTime.keys.head?).getD "empty"
  let S ← if tenant = "empty" then some S else touchUp tenant now S.nextNode S curr
  pure (S, text.take currIdx, tenant)

/-- `prefix_match_tenant`. -/
def prefixMatchTenant (S : TenantTree) (text : List Char) (tenant : String) (now : Nat) :
    Option (TenantTree × List Char) := do
  let (curr, currIdx) ← S.matchLoop
    (fun n => decide (tenant ∈ (S.nodes n).tenantLastAccessTime)) text.length 0 text 0
  let S ← if tenant ∈ (S.nodes curr).tenantLastAccessTime then
      touchUp tenant now S.nextNode S curr
    else some S
  pure (S, text.take currIdx)

/-- `leaf_of`: the tenants of the node that none of its children has. -/
def leafOf (S : TenantTree) (n : Nat) : List String :=
  (S.nodes n).tenantLastAccessTime.keys.filter fun tenant =>
    (S.nodes n).children.values.all fun child =>
      decide (tenant ∉ (S.nodes child).tenantLastAccessTime)

/-- The nodes in the order in which the stacks of `evict_tenant_by_size`, `remove_tenant`
and `get_used_size_per_tenant` give them. -/
def allNodes (S : TenantTree) : Option (List Nat) :=
  StackWalk.walk (fun n => (S.nodes n).children.values) S.nextNode [0]

/-- The tenant is removed from the node, and the node from its parent if it is empty. -/
def dropTenant (S : TenantTree) (n : Nat) (tenant : String) : Option TenantTree :=
  let S := S.setNode n { S.nodes n with
    tenantLastAccessTime := (S.nodes n).tenantLastAccessTime.erase tenant }
  if (S.nodes n).children = ∅ ∧ (S.nodes n).tenantLastAccessTime = ∅ then
    match (S.nodes n).parent with
    | none => some S
    | some parent => do
      let firstChar ← (S.nodes n).text.head?
      pure (S.setNode parent { S.nodes parent with
        children := (S.nodes parent).children.erase firstChar })
  else some S

/-- The entry of the parent, if the parent has become a leaf for the tenant. -/
def parentEntry (S : TenantTree) (n : Nat) (tenant : String) : Option EvictionEntry :=
  match (S.nodes n).parent with
  | none => none
  | some parent =>
    if tenant ∈ S.leafOf parent then
      ((S.nodes parent).tenantLastAccessTime.lookup tenant).map fun time => ⟨time, tenant, parent⟩
    else none

/-- `and_modify(|count| if *count > 0 { *count -= chars })`; an underflow panics. -/
def subChars (S : TenantTree) (tenant : String) (chars : Nat) : Option TenantTree :=
  match S.tenantCharCount.lookup tenant with
  | none => some S
  | some count =>
    if 0 < count then
      if chars ≤ count then
        some { S with tenantCharCount := S.tenantCharCount.insert tenant (count - chars) }
      else none
    else some S

/-- An entry that was popped leaves its tenant alone. -/
def withinSize (S : TenantTree) (maxSize : Nat) (tenant : String) : Bool :=
  match S.tenantCharCount.lookup tenant with
  | none => false
  | some usedSize => decide (usedSize ≤ maxSize)

/-- The loop of `evict_tenant_by_size`. -/
def evictLoop (heap : EvictionHeap) (maxSize : Nat) : Nat → TenantTree → List EvictionEntry →
    Option TenantTree
  | 0, _, _ => none
  | fuel + 1, S, pq =>
    match heap.pop pq with
    | none => some S
    | some (entry, pq) =>
      if S.withinSize maxSize entry.tenant then evictLoop heap maxSize fuel S pq
      else do
        let S ← if entry.tenant ∈ (S.nodes entry.node).tenantLastAccessTime then
            S.subChars entry.tenant (S.nodes entry.node).text.length
          else some S
        let S ← S.dropTenant entry.node entry.tenant
        evictLoop heap maxSize fuel S (pq ++ (S.parentEntry entry.node entry.tenant).toList)

/-- The leaves with their times. -/
def leafEntries (S : TenantTree) (n : Nat) : List EvictionEntry :=
  (S.leafOf n).filterMap fun tenant =>
    ((S.nodes n).tenantLastAccessTime.lookup tenant).map fun time => ⟨time, tenant, n⟩

/-- More than the pairs of a node and a tenant of it. -/
def evictFuel (S : TenantTree) : Nat :=
  3 * ((List.range S.nextNode).map fun n => (S.nodes n).tenantLastAccessTime.keys.length).sum + 1

/-- `evict_tenant_by_size`. -/
def evictTenantBySize (heap : EvictionHeap) (S : TenantTree) (maxSize : Nat) :
    Option TenantTree := do
  let nodes ← S.allNodes
  evictLoop heap maxSize S.evictFuel S (nodes.flatMap S.leafEntries)

/-- The loop of `remove_tenant` from the leaves up. -/
def removeLoop (tenant : String) : Nat → TenantTree → List Nat → Option TenantTree
  | _, S, [] => some S
  | 0, _, _ :: _ => none
  | fuel + 1, S, curr :: queue => do
    let S ← S.dropTenant curr tenant
    let next := match (S.nodes curr).parent with
      | none => []
      | some parent => if tenant ∈ S.leafOf parent then [parent] else []
    removeLoop tenant fuel S (queue ++ next)

/-- `remove_tenant`. -/
def removeTenant (S : TenantTree) (tenant : String) : Option TenantTree := do
  let nodes ← S.allNodes
  let S ← removeLoop tenant S.nextNode S (nodes.filter fun n => tenant ∈ S.leafOf n)
  pure { S with tenantCharCount := S.tenantCharCount.erase tenant }

/-- `get_smallest_tenant`. -/
def getSmallestTenant (S : TenantTree) : String :=
  match S.tenantCharCount.entries.argmin fun entry => entry.2 with
  | none => "empty"
  | some entry => entry.1

/-- `get_used_size_per_tenant`. -/
def getUsedSizePerTenant (S : TenantTree) : Option (DashMap String Nat) := do
  let nodes ← S.allNodes
  pure (nodes.foldl (fun used n =>
    (S.nodes n).tenantLastAccessTime.keys.foldl (fun used tenant =>
      used.insert tenant ((used.lookup tenant).getD 0 + (S.nodes n).text.length)) used) ∅)

end TenantTree

end FastPP
