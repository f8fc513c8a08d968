import FastPP.Lib.StableSort
import FastPP.Radix.Cache
import FastPP.State
import FastPP.Radix.Refinement
import Mathlib.Algebra.Order.Monoid.Unbundled.WithTop

namespace FastPP

/-- The thresholds of in-batch prefix caching, the clocks of the two trees and
`random.shuffle`. -/
structure PolicyEnv where
  checkThreshold : Int
  deprioritizeThreshold : Int
  treeClock : Nat → Rat
  queueClock : Nat → Rat
  shuffle : List Nat → List Nat
  shuffle_perm : ∀ queue, (shuffle queue).Perm queue

/-- A request with the slots and the node that the last match gave it. -/
structure TreeReq where
  req : Req
  prefixIndices : List Nat
  lastNode : Nat

/-- `adjust_max_prefix_ids`. -/
def TreeReq.prefixIds (r : TreeReq) : List Nat :=
  (r.req.originInputIds ++ r.req.outputIds).take r.req.maxPrefixLen

def TreeReq.setMatch (r : TreeReq) (prefixIndices : List Nat) (lastNode : Nat) : TreeReq where
  req := { r.req with
    fillIds := r.req.originInputIds ++ r.req.outputIds
    prefixLen := prefixIndices.length }
  prefixIndices
  lastNode

namespace RadixCache

/-- `calc_weight`; it gives up after `fuel` levels. -/
def calcWeight (S : RadixCache) : Nat → Nat → (Nat → Nat) → Option (Nat → Nat)
  | 0, _, _ => none
  | fuel + 1, curNode, nodeToWeight =>
    ((S.nodes curNode).children.map Prod.snd).foldlM (fun nodeToWeight child => do
      let nodeToWeight ← calcWeight S fuel child nodeToWeight
      pure (Function.update nodeToWeight curNode
        (nodeToWeight curNode + nodeToWeight child))) nodeToWeight

/-- `get_dfs_priority`; it gives up after `fuel` levels. -/
def getDfsPriority (S : RadixCache) (nodeToPriority : Nat → Nat)
    (lastNodeToReqs : Nat → List Nat) : Nat → Nat → List Nat → Option (List Nat)
  | 0, _, _ => none
  | fuel + 1, curNode, q => do
    let childs := sortByKey (fun child => -(nodeToPriority child : Int))
      ((S.nodes curNode).children.map Prod.snd)
    let q ← childs.foldlM (fun q child =>
      getDfsPriority S nodeToPriority lastNodeToReqs fuel child q) q
    pure (q ++ lastNodeToReqs curNode)

end RadixCache

/-- The loop of `calc_priority` over the queue; `heap` has the requests and
`temporaryDeprioritized` their rids. -/
structure Matching where
  treeCache : RadixCache
  waitingQueueRadixTree : RadixCache
  heap : Nat → TreeReq
  temporaryDeprioritized : List Nat

namespace Matching

/-- The in-batch check of a request with a short match. Of the values that are inserted only
the number matters. -/
def checkInBatch (env : PolicyEnv) (m : Matching) (rid : Nat) (prefixIds : List Nat) :
    Option Matching := do
  let (queueTree, inBatch, _) ← m.waitingQueueRadixTree.matchPrefix env.queueClock prefixIds
  if env.deprioritizeThreshold ≤ inBatch.length then
    pure { m with
      waitingQueueRadixTree := queueTree
      temporaryDeprioritized := rid :: m.temporaryDeprioritized }
  else do
    let (queueTree, _) ← queueTree.insert env.queueClock prefixIds
      (List.replicate prefixIds.length 0)
    pure { m with waitingQueueRadixTree := queueTree }

/-- One round of the loop. -/
def matchReq (env : PolicyEnv) (m : Matching) (q : Nat) : Option Matching := do
  let prefixIds := (m.heap q).prefixIds
  let (treeCache, prefixIndices, lastNode) ← m.treeCache.matchPrefix env.treeClock prefixIds
  let m := { m with
    treeCache
    heap := Function.update m.heap q ((m.heap q).setMatch prefixIndices lastNode) }
  if (prefixIndices.length : Int) ≤ env.checkThreshold then
    m.checkInBatch env (m.heap q).req.rid prefixIds
  else pure m

/-- The sort key of `lpm`. -/
def lpmKey (m : Matching) (q : Nat) : WithTop Int :=
  if (m.heap q).req.rid ∉ m.temporaryDeprioritized then
    ((-((m.heap q).prefixIndices.length : Int) : Int) : WithTop Int)
  else ⊤

/-- `last_node_to_reqs` of the queue. -/
def lastNodeToReqs (m : Matching) (waitingQueue : List Nat) : Nat → List Nat :=
  waitingQueue.foldl (fun reqs q =>
    Function.update reqs (m.heap q).lastNode (reqs (m.heap q).lastNode ++ [q])) fun _ => []

/-- The queue of `dfs-weight`. -/
def dfsQueue (m : Matching) (waitingQueue : List Nat) : Option (List Nat) := do
  let lastNodeToReqs := m.lastNodeToReqs waitingQueue
  let nodeToWeight ← m.treeCache.calcWeight (m.treeCache.nextNode + 1) 0
    fun node => (lastNodeToReqs node).length
  m.treeCache.getDfsPriority nodeToWeight lastNodeToReqs (m.treeCache.nextNode + 1) 0 []

end Matching

/-- The class `SchedulePolicy`; a cache that is disabled is absent. -/
structure QueuePolicy where
  policy : SchedulePolicy
  treeCache : Option RadixCache
  waitingQueueRadixTree : RadixCache
  enabled : policy = .lpm ∨ policy = .dfsWeight → treeCache.isSome

/-- What `calc_priority` leaves behind, and the flag it returns. -/
structure Prioritized where
  queuePolicy : QueuePolicy
  heap : Nat → TreeReq
  waitingQueue : List Nat
  prefixComputed : Bool

namespace QueuePolicy

/-- `__init__`. -/
def init (env : PolicyEnv) (policy : SchedulePolicy) (treeCache : Option RadixCache) :
    QueuePolicy where
  policy := if treeCache.isNone ∧ (policy = .lpm ∨ policy = .dfsWeight) then .fcfs else policy
  treeCache
  waitingQueueRadixTree := .reset env.queueClock
  enabled := by
    intro h
    split at h
    next => simp at h
    next hno =>
      rw [not_and', Option.isNone_iff_eq_none, ← ne_eq, Option.ne_none_iff_isSome] at hno
      exact hno h

/-- The matching loop over the queue. -/
def matchQueue (env : PolicyEnv) (P : QueuePolicy) (heap : Nat → TreeReq)
    (waitingQueue : List Nat) : Option Matching := do
  let treeCache ← P.treeCache
  waitingQueue.foldlM (Matching.matchReq env)
    { treeCache
      waitingQueueRadixTree := .reset env.queueClock
      heap
      temporaryDeprioritized := [] }

def keep (P : QueuePolicy) (m : Matching) : QueuePolicy where
  policy := P.policy
  treeCache := some m.treeCache
  waitingQueueRadixTree := m.waitingQueueRadixTree
  enabled _ := rfl

/-- The policy for a queue: `lpm` is given up for a long one. -/
def policyFor (P : QueuePolicy) (waitingQueue : List Nat) : SchedulePolicy :=
  if 128 < waitingQueue.length ∧ P.policy = .lpm then .fcfs else P.policy

/-- `calc_priority`. -/
def calcPriority (env : PolicyEnv) (P : QueuePolicy) (heap : Nat → TreeReq)
    (waitingQueue : List Nat) : Option Prioritized :=
  match P.policyFor waitingQueue with
  | .lpm => do
    let m ← P.matchQueue env heap waitingQueue
    pure ⟨P.keep m, m.heap, sortByKey m.lpmKey waitingQueue, true⟩
  | .fcfs => some ⟨P, heap, waitingQueue, false⟩
  | .lof => some ⟨P, heap, sortByKey (fun q => -((heap q).req.samplingParams.maxNewTokens : Int))
      waitingQueue, false⟩
  | .random => some ⟨P, heap, env.shuffle waitingQueue, false⟩
  | .dfsWeight => do
    let m ← P.matchQueue env heap waitingQueue
    let queue ← m.dfsQueue waitingQueue
    pure ⟨P.keep m, m.heap, queue, true⟩

end QueuePolicy

variable {S treeCache : RadixCache} {heap heap' : Nat → TreeReq} {locks before : List Nat} {q : Nat}

/-- How many tokens of its prefix the cache has for a request. -/
noncomputable def RadixCache.cachedLen (S : RadixCache) (r : TreeReq) : Nat :=
  (S.tokenMap.matched r.prefixIds).length

/-- The node ends the match of the request. -/
structure EndsMatch (S : RadixCache) (tree : Finset Nat) (spell slots : Nat → List Nat)
    (r : TreeReq) (node : Nat) : Prop where
  mem : node ∈ tree
  spell : spell node = r.prefixIds.take (S.cachedLen r)
  slots : slots node = S.tokenMap.matched r.prefixIds

theorem EndsMatch.keep {tree tree' : Finset Nat} {spell slots spell' slots' : Nat → List Nat}
    {r : TreeReq} {node : Nat} (h : EndsMatch S tree spell slots r node)
    (hkeeps : RadixCache.Keeps tree spell slots tree' spell' slots') :
    EndsMatch S tree' spell' slots' r node where
  mem := hkeeps.mem node h.mem
  spell := (hkeeps.spell node h.mem).trans h.spell
  slots := (hkeeps.slots node h.mem).trans h.slots

/-- The requests `before` have been matched with the cache. -/
structure CacheProgress (S : RadixCache) (heap : Nat → TreeReq) (locks before : List Nat)
    (treeCache : RadixCache) (heap' : Nat → TreeReq) : Prop where
  cache : ∃ tree spell slots, treeCache.Locked tree spell slots locks ∧
    treeCache.tokenMap = S.tokenMap ∧
    ∀ p ∈ before, EndsMatch S tree spell slots (heap p) (heap' p).lastNode
  matched : ∀ p ∈ before, ∃ node,
    heap' p = (heap p).setMatch (S.tokenMap.matched (heap p).prefixIds) node
  others : ∀ p, p ∉ before → heap' p = heap p

/-- The requests come past keep their nodes while the tree is split further. -/
theorem CacheProgress.matchPrefix (h : CacheProgress S heap locks before treeCache heap')
    (hq : q ∉ before) (clock : Nat → Rat) :
    ∃ treeCache' node, treeCache.matchPrefix clock (heap q).prefixIds =
        some (treeCache', S.tokenMap.matched (heap q).prefixIds, node) ∧
      CacheProgress S heap locks (before ++ [q]) treeCache' (Function.update heap' q
        ((heap q).setMatch (S.tokenMap.matched (heap q).prefixIds) node)) := by
  obtain ⟨tree, spell, slots, hl, hsame, hnodes⟩ := h.cache
  obtain ⟨S', found, last, tree', spell', slots', hrun, hl', hmap, hlast, hf, _⟩ :=
    RadixCache.matchPrefix_spec clock hl (heap q).prefixIds
  have hmatched := hf.matched hl.shape hl'.shape hmap hlast
  rw [hsame] at hmatched
  have hspell := hf.spell
  have hslots := hf.slots
  rw [hl.shape.root_spell, List.nil_append, ← hmatched] at hspell
  rw [hl.shape.root_slots, List.nil_append, ← hmatched] at hslots
  have hold : ∀ p ∈ before, p ≠ q := fun p hp heq => hq (heq ▸ hp)
  refine ⟨S', last, by rw [hrun, hmatched], ⟨tree', spell', slots', hl', ?_, ?_⟩, ?_, ?_⟩
  · rw [hmap.tokenMap_eq hl.shape hl'.shape, hsame]
  · intro p hp
    rcases List.mem_append.mp hp with hp | hp
    · rw [Function.update_of_ne (hold p hp)]
      exact (hnodes p hp).keep hmap.keeps
    · obtain rfl := List.mem_singleton.mp hp
      rw [Function.update_self]
      exact ⟨hlast, hspell, hslots⟩
  · intro p hp
    rcases List.mem_append.mp hp with hp | hp
    · rw [Function.update_of_ne (hold p hp)]
      exact h.matched p hp
    · obtain rfl := List.mem_singleton.mp hp
      exact ⟨last, Function.update_self ..⟩
  · intro p hp
    rw [List.mem_append, not_or, List.mem_singleton] at hp
    rw [Function.update_of_ne hp.2]
    exact h.others p hp.1

end FastPP
