import Mathlib.Algebra.Order.Ring.Rat
import Mathlib.Logic.Function.Basic

namespace FastPP

/-- `TreeNode`: an object of the heap of nodes, whose `children` are the items of the
dictionary in their order. -/
structure TreeNode where
  children : List (Nat × Nat)
  parent : Option Nat
  key : List Nat
  value : List Nat
  lockRef : Int
  lastAccessTime : Rat
  deriving DecidableEq

/-- `TreeNode()` at a given time. -/
def TreeNode.new (time : Rat) : TreeNode := ⟨[], none, [], [], 0, time⟩

/-- A `RadixCache` that is not disabled. Node 0 is `root_node`, the first `nextNode` nodes
exist, and `reads` counts the calls of `time.time()`. -/
structure RadixCache where
  nodes : Nat → TreeNode
  nextNode : Nat
  evictableSize : Int
  reads : Nat

/-- `heapq.heappop`: some least item, with the rest of the heap. -/
structure Heapq where
  pop : (Nat → Rat) → List Nat → Option (Nat × List Nat)
  pop_nil : ∀ time, pop time [] = none
  pop_cons : ∀ time x xs, ∃ y rest, pop time (x :: xs) = some (y, rest) ∧
    (y :: rest).Perm (x :: xs) ∧ ∀ z ∈ rest, time y ≤ time z

/-- `d[k] = v`. -/
def setItem (items : List (Nat × Nat)) (k v : Nat) : List (Nat × Nat) :=
  match items with
  | [] => [(k, v)]
  | item :: rest => if item.1 = k then (k, v) :: rest else item :: setItem rest k v

/-- `_key_match`. -/
def keyMatch : List Nat → List Nat → Nat
  | k0 :: key0, k1 :: key1 => if k0 ≠ k1 then 0 else keyMatch key0 key1 + 1
  | _, _ => 0

namespace RadixCache

variable (clock : Nat → Rat)

def setNode (S : RadixCache) (n : Nat) (node : TreeNode) : RadixCache :=
  { S with nodes := Function.update S.nodes n node }

/-- `TreeNode()`; the new object is node `nextNode`. -/
def allocNode (S : RadixCache) : RadixCache :=
  { S with
    nodes := Function.update S.nodes S.nextNode (.new (clock S.reads))
    nextNode := S.nextNode + 1
    reads := S.reads + 1 }

/-- `node.last_access_time = time.time()`. -/
def touch (S : RadixCache) (n : Nat) : RadixCache :=
  { S.setNode n { S.nodes n with lastAccessTime := clock S.reads } with reads := S.reads + 1 }

/-- `reset` of a new cache. -/
def reset : RadixCache where
  nodes := Function.update (fun _ => .new 0) 0 { TreeNode.new (clock 0) with lockRef := 1 }
  nextNode := 1
  evictableSize := 0
  reads := 1

/-- `_split_node(child.key, child, split_len)`; `none` is an exception. -/
def splitNode (S : RadixCache) (child splitLen : Nat) : Option (RadixCache × Nat) := do
  let newNode := S.nextNode
  let S := S.allocNode clock
  let splitToken ← (S.nodes child).key[splitLen]?
  let firstToken ← (S.nodes child).key[0]?
  let parent ← (S.nodes child).parent
  let S := S.setNode newNode { S.nodes newNode with
    children := [(splitToken, child)]
    parent := some parent
    lockRef := (S.nodes child).lockRef
    key := (S.nodes child).key.take splitLen
    value := (S.nodes child).value.take splitLen }
  let S := S.setNode child { S.nodes child with
    parent := some newNode
    key := (S.nodes child).key.drop splitLen
    value := (S.nodes child).value.drop splitLen }
  let S := S.setNode parent { S.nodes parent with
    children := setItem (S.nodes parent).children firstToken newNode }
  pure (S, newNode)

/-- `_match_prefix_helper` with the value collected and the last node so far; it gives up
after `fuel` calls. -/
def matchPrefixHelper : Nat → RadixCache → Nat → List Nat → List Nat → Nat →
    Option (RadixCache × List Nat × Nat)
  | 0, _, _, _, _, _ => none
  | fuel + 1, S, node, key, value, lastNode =>
    let S := S.touch clock node
    match key with
    | [] => some (S, value, lastNode)
    | token :: _ =>
      match (S.nodes node).children.lookup token with
      | none => some (S, value, lastNode)
      | some child =>
        let prefixLen := keyMatch (S.nodes child).key key
        if prefixLen < (S.nodes child).key.length then do
          let (S, newNode) ← S.splitNode clock child prefixLen
          pure (S, value ++ (S.nodes newNode).value, newNode)
        else
          matchPrefixHelper fuel S child (key.drop prefixLen) (value ++ (S.nodes child).value) child

/-- `match_prefix`: the matched slots and the last node. -/
def matchPrefix (S : RadixCache) (key : List Nat) : Option (RadixCache × List Nat × Nat) :=
  matchPrefixHelper clock (key.length + 1) S 0 key [] 0

/-- The end of `_insert_helper`: a new leaf for what is left of the key. -/
def addLeaf (S : RadixCache) (node : Nat) (token : Nat) (key value : List Nat) : RadixCache :=
  let newNode := S.nextNode
  let S := S.allocNode clock
  let S := S.setNode newNode { S.nodes newNode with parent := some node, key, value }
  let S := S.setNode node { S.nodes node with
    children := setItem (S.nodes node).children token newNode }
  { S with evictableSize := S.evictableSize + value.length }

/-- `_insert_helper`; it gives up after `fuel` calls. -/
def insertHelper : Nat → RadixCache → Nat → List Nat → List Nat → Option (RadixCache × Nat)
  | 0, _, _, _, _ => none
  | fuel + 1, S, node, key, value =>
    let S := S.touch clock node
    match key with
    | [] => some (S, 0)
    | token :: _ =>
      match (S.nodes node).children.lookup token with
      | none => some (S.addLeaf clock node token key value, 0)
      | some child =>
        let prefixLen := keyMatch (S.nodes child).key key
        if prefixLen = (S.nodes child).key.length then
          if prefixLen = key.length then some (S, prefixLen)
          else do
            let (S, len) ← insertHelper fuel S child (key.drop prefixLen) (value.drop prefixLen)
            pure (S, prefixLen + len)
        else do
          let (S, newNode) ← S.splitNode clock child prefixLen
          let (S, len) ← insertHelper fuel S newNode (key.drop prefixLen) (value.drop prefixLen)
          pure (S, prefixLen + len)

/-- `insert`: the length of the prefix that was there before. -/
def insert (S : RadixCache) (key value : List Nat) : Option (RadixCache × Nat) :=
  insertHelper clock (key.length + 1) S 0 key value

/-- The loop of `inc_lock_ref` and `dec_lock_ref`: `change` is added to each count up to the
root, and a count that is `before` moves the node's tokens out of or into the evictable
size. It gives up after `fuel` rounds. -/
def changeLockRef (before change : Int) : Nat → RadixCache → Nat → Int →
    Option (RadixCache × Int)
  | 0, _, _, _ => none
  | fuel + 1, S, node, delta =>
    if node = 0 then some (S, delta)
    else
      let moved := if (S.nodes node).lockRef = before then -change * (S.nodes node).value.length
        else 0
      match (S.nodes node).parent with
      | none => none
      | some parent =>
        changeLockRef before change fuel
          { S.setNode node { S.nodes node with lockRef := (S.nodes node).lockRef + change } with
            evictableSize := S.evictableSize + moved } parent (delta + moved)

def incLockRef (S : RadixCache) (node : Nat) : Option (RadixCache × Int) :=
  changeLockRef 0 1 (S.nextNode + 1) S node 0

def decLockRef (S : RadixCache) (node : Nat) : Option (RadixCache × Int) :=
  changeLockRef 1 (-1) (S.nextNode + 1) S node 0

/-- `_collect_leaves`, whose stack goes through the last child first; the depth is bounded
by `fuel`. -/
def collectLeaves (S : RadixCache) : Nat → Nat → List Nat
  | 0, _ => []
  | fuel + 1, node =>
    if (S.nodes node).children = [] then [node]
    else (S.nodes node).children.reverse.flatMap fun child => collectLeaves S fuel child.2

/-- `_delete_leaf`: the item of the parent that holds the node is deleted. -/
def deleteLeaf (S : RadixCache) (node parent : Nat) : RadixCache :=
  let S' := S.setNode parent { S.nodes parent with
    children := (S.nodes parent).children.eraseP fun child => child.2 = node }
  { S' with evictableSize := S.evictableSize - (S.nodes node).key.length }

/-- The loop of `evict`, with the values given to the callback; it gives up after `fuel`
rounds. -/
def evictLoop (heapq : Heapq) (numTokens : Nat) : Nat → RadixCache → List Nat → Nat →
    List (List Nat) → Option (RadixCache × List (List Nat))
  | 0, _, _, _, _ => none
  | fuel + 1, S, leaves, numEvicted, evicted =>
    if numEvicted < numTokens then
      match heapq.pop (fun n => (S.nodes n).lastAccessTime) leaves with
      | none => some (S, evicted)
      | some (x, leaves) =>
        if x = 0 then some (S, evicted)
        else if 0 < (S.nodes x).lockRef then
          evictLoop heapq numTokens fuel S leaves numEvicted evicted
        else
          match (S.nodes x).parent with
          | none => none
          | some parent =>
            let value := (S.nodes x).value
            let S := S.deleteLeaf x parent
            evictLoop heapq numTokens fuel S
              (if (S.nodes parent).children = [] then parent :: leaves else leaves)
              (numEvicted + value.length) (evicted ++ [value])
    else some (S, evicted)

/-- `evict`: the cache and the values given to the callback. -/
def evict (heapq : Heapq) (S : RadixCache) (numTokens : Nat) :
    Option (RadixCache × List (List Nat)) :=
  evictLoop heapq numTokens (2 * S.nextNode + 1) S (S.collectLeaves S.nextNode 0) 0 []

end RadixCache

end FastPP
