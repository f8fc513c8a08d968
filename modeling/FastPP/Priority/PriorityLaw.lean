import FastPP.Priority.DfsOrder
import FastPP.Priority.InBatch

namespace FastPP

variable {env : PolicyEnv} {P : QueuePolicy} {S : RadixCache} {heap : Nat → TreeReq}
  {queue locks : List Nat} {m : Matching} {r : Prioritized} {clock : Nat → Rat} {heapq : Heapq}

/-- The requests differ at most in what a match sets. -/
def SameRequest (r r' : TreeReq) : Prop :=
  r'.req = { r.req with fillIds := r'.req.fillIds, prefixLen := r'.req.prefixLen }

theorem SameRequest.refl (r : TreeReq) : SameRequest r r := rfl

theorem SameRequest.setMatch (r : TreeReq) (prefixIndices : List Nat) (lastNode : Nat) :
    SameRequest r (r.setMatch prefixIndices lastNode) := rfl

/-- The last nodes of the requests end their matches with the cache as it was. -/
def EndsMatches (S S' : RadixCache) (heap heap' : Nat → TreeReq) (queue : List Nat) : Prop :=
  ∀ q ∈ queue, S'.Path (heap' q).lastNode ((heap q).prefixIds.take (S.cachedLen (heap q)))
    (S.tokenMap.matched (heap q).prefixIds)

/-- `calc_priority` only reorders the queue, and this is the order. -/
structure Reorders (env : PolicyEnv) (P : QueuePolicy) (heap : Nat → TreeReq) (queue : List Nat)
    (r : Prioritized) : Prop where
  perm : r.waitingQueue.Perm queue
  requests : ∀ q, SameRequest (heap q) (r.heap q)
  lpm : ∀ S, P.treeCache = some S → P.policy = .lpm → queue.length ≤ 128 →
    ∃ rids, LongestPrefixFirst env S heap queue r.waitingQueue rids
  lpm_long : P.policy = .lpm → 128 < queue.length → r.waitingQueue = queue
  dfs_weight : ∀ S, P.treeCache = some S → P.policy = .dfsWeight →
    ∃ S', r.queuePolicy.treeCache = some S' ∧ EndsMatches S S' heap r.heap queue ∧
      HeavyFirst S' (fun q => (r.heap q).lastNode) queue r.waitingQueue

namespace Matching.Progress

theorem requests (h : Progress env S heap locks queue m) (q : Nat) :
    SameRequest (heap q) (m.heap q) := by
  by_cases hq : q ∈ queue
  · obtain ⟨node, heq⟩ := h.toCacheProgress.matched q hq
    rw [heq]
    exact .setMatch ..
  · rw [h.toCacheProgress.others q hq]
    exact .refl _

theorem endsMatches (h : Progress env S heap locks queue m) :
    EndsMatches S m.treeCache heap m.heap queue := by
  obtain ⟨tree, spell, slots, hl, _, hnodes⟩ := h.toCacheProgress.cache
  intro q hq
  have hpath := hl.shape.path (hnodes q hq).mem
  rw [(hnodes q hq).spell, (hnodes q hq).slots] at hpath
  exact hpath

end Matching.Progress

namespace QueuePolicy

/-- Only a policy that needs the cache is turned into `fcfs` for want of one. -/
theorem init_policy (env : PolicyEnv) (policy : SchedulePolicy) (treeCache : Option RadixCache) :
    (init env policy treeCache).policy = policy ↔
      treeCache.isSome ∨ policy ≠ .lpm ∧ policy ≠ .dfsWeight := by
  cases treeCache <;> cases policy <;> simp [init]

/-- The policies that do not match. -/
theorem calcPriority_unmatched {policy : SchedulePolicy} (hpolicy : P.policyFor queue = policy)
    (hlpm : policy ≠ .lpm) (hdfs : policy ≠ .dfsWeight) :
    ∃ r, P.calcPriority env heap queue = some r ∧ r.waitingQueue.Perm queue ∧
      r.heap = heap := by
  unfold calcPriority
  rw [hpolicy]
  cases policy with
  | lpm => exact absurd rfl hlpm
  | dfsWeight => exact absurd rfl hdfs
  | fcfs => exact ⟨_, rfl, .refl _, rfl⟩
  | lof => exact ⟨_, rfl, sortByKey_perm _ _, rfl⟩
  | random => exact ⟨_, rfl, env.shuffle_perm queue, rfl⟩

theorem calcPriority_long (hlong : 128 < queue.length ∧ P.policy = .lpm) :
    P.calcPriority env heap queue = some ⟨P, heap, queue, false⟩ := by
  have hpolicy : P.policyFor queue = .fcfs := if_pos hlong
  unfold calcPriority
  rw [hpolicy]

theorem calcPriority_lpm (hpolicy : P.policyFor queue = .lpm)
    (hrun : P.matchQueue env heap queue = some m) :
    P.calcPriority env heap queue =
      some ⟨P.keep m, m.heap, sortByKey m.lpmKey queue, true⟩ := by
  unfold calcPriority
  rw [hpolicy]
  simp only [hrun, Option.bind_eq_bind, Option.bind_some, Option.pure_def]

theorem calcPriority_dfsWeight {out : List Nat} (hpolicy : P.policyFor queue = .dfsWeight)
    (hrun : P.matchQueue env heap queue = some m) (hout : m.dfsQueue queue = some out) :
    P.calcPriority env heap queue = some ⟨P.keep m, m.heap, out, true⟩ := by
  unfold calcPriority
  rw [hpolicy]
  simp only [hrun, hout, Option.bind_eq_bind, Option.bind_some, Option.pure_def]

theorem calcPriority_reorders
    (hcache : ∀ S, P.treeCache = some S → ∃ clock heapq returned locks,
      RadixCache.Reached clock heapq True S returned locks)
    (hdistinct : (queue.map fun q => (heap q).req.rid).Nodup) :
    ∃ r, P.calcPriority env heap queue = some r ∧ Reorders env P heap queue r := by
  have hmatch : P.policy = .lpm ∨ P.policy = .dfsWeight → ∃ S m locks, P.treeCache = some S ∧
      P.matchQueue env heap queue = some m ∧ m.Progress env S heap locks queue := by
    intro hpolicy
    obtain ⟨S, hS⟩ := Option.isSome_iff_exists.mp (P.enabled hpolicy)
    obtain ⟨clock, heapq, returned, locks, hreached⟩ := hcache S hS
    obtain ⟨tree, spell, slots, hl⟩ := hreached.locked
    obtain ⟨m, hrun, hm⟩ := P.matchQueue_progress env hS hl hdistinct
    exact ⟨S, m, locks, hS, hrun, hm⟩
  by_cases hlong : 128 < queue.length ∧ P.policy = .lpm
  · -- the queue is too long for `lpm`
    refine ⟨_, calcPriority_long hlong, .refl _, fun q => .refl _, ?_, fun _ _ => rfl, ?_⟩
    · intro _ _ _ hshort
      omega
    · intro _ _ hdfs
      rw [hlong.2] at hdfs
      nomatch hdfs
  · have hpolicy : P.policyFor queue = P.policy := if_neg hlong
    by_cases hlpm : P.policy = .lpm
    · obtain ⟨S, m, locks, hS, hrun, hm⟩ := hmatch (.inl hlpm)
      refine ⟨_, calcPriority_lpm (hpolicy.trans hlpm) hrun, sortByKey_perm _ _, hm.requests, ?_,
        fun _ hlen => absurd ⟨hlen, hlpm⟩ hlong, ?_⟩
      · intro S' hS' _ _
        obtain rfl := Option.some.inj (hS.symm.trans hS')
        exact ⟨_, hm.longestPrefixFirst⟩
      · intro _ _ hdfs
        rw [hlpm] at hdfs
        nomatch hdfs
    · by_cases hdfs : P.policy = .dfsWeight
      · obtain ⟨S, m, locks, hS, hrun, hm⟩ := hmatch (.inr hdfs)
        obtain ⟨out, hout, hperm, horder⟩ := hm.dfsQueue
        refine ⟨_, calcPriority_dfsWeight (hpolicy.trans hdfs) hrun hout, hperm, hm.requests,
          fun _ _ h => absurd h hlpm, fun h => absurd h hlpm, ?_⟩
        intro S' hS' _
        obtain rfl := Option.some.inj (hS.symm.trans hS')
        exact ⟨_, rfl, hm.endsMatches, horder⟩
      · obtain ⟨r, hrun, hperm, hheap⟩ := calcPriority_unmatched hpolicy hlpm hdfs
        exact ⟨r, hrun, hperm, fun q => hheap ▸ .refl _, fun _ _ h => absurd h hlpm,
          fun h => absurd h hlpm, fun _ _ h => absurd h hdfs⟩

end QueuePolicy

def policyEnv (deprioritizeThreshold : Int) : PolicyEnv where
  checkThreshold := 32
  deprioritizeThreshold
  treeClock _ := 0
  queueClock _ := 0
  shuffle := id
  shuffle_perm _ := .refl _

/-- Request 1 starts with the token 5, the others with the token 6. -/
def shortPrompts (q : Nat) : TreeReq where
  req := { Req.blank with rid := q, originInputIds := [if q = 1 then 5 else 6, 0] }
  prefixIndices := []
  lastNode := 0

/-- A cache with the token 5. -/
def fiveCached : RadixCache :=
  ((RadixCache.reset fun _ => 0).touch (fun _ => 0) 0).addLeaf (fun _ => 0) 0 5 [5] [9]

theorem fiveCached_reached : RadixCache.Reached (fun _ => 0) .list True fiveCached [] [] := by
  have hempty : RadixCache.Reached (fun _ => 0) .list True (.reset fun _ => 0) [] [] := .reset
  have hrun : (RadixCache.reset fun _ => 0).insert (fun _ => 0) [5] [9] = some (fiveCached, 0) :=
    rfl
  exact hempty.insert (fun _ => by rfl) hrun

theorem fiveCached_cachedLen {r : TreeReq} {n : Nat}
    (h : (fiveCached.matchPrefix (fun _ => 0) r.prefixIds).map (fun found => found.2.1.length) =
      some n) : fiveCached.cachedLen r = n := by
  obtain ⟨_, _, hrun, _⟩ := (RadixCache.reached_refines fiveCached_reached).2.1 r.prefixIds
  rw [hrun] at h
  exact Option.some.inj h

/-- Only request 1 has a cached token, so that request 0 does not stand before it. -/
theorem fiveCached_one_first {rest out rids : List Nat}
    (h : LongestPrefixFirst (policyEnv 32) fiveCached shortPrompts ([0] ++ 1 :: rest) (0 :: out)
      rids) : 1 ∉ out := by
  intro hone
  rcases List.rel_of_pairwise_cons h.sorted hone with hlast | ⟨_, hle⟩
  · obtain ⟨_, hzero | ⟨p, hp, _, _, hshares⟩⟩ := (h.deprioritizes [0] 1 rest rfl).mp hlast
    · exact absurd hzero (by decide)
    · obtain rfl := List.mem_singleton.mp hp
      exact absurd hshares (by decide)
  · rw [fiveCached_cachedLen (n := 1) rfl, fiveCached_cachedLen (n := 0) rfl] at hle
    exact absurd hle (by decide)

/-- A cache with the tokens 5 and 6. -/
def siblingsCached : RadixCache :=
  (fiveCached.touch (fun _ => 0) 0).addLeaf (fun _ => 0) 0 6 [6] [8]

theorem siblingsCached_reached :
    RadixCache.Reached (fun _ => 0) .list True siblingsCached [] [] := by
  have hrun : fiveCached.insert (fun _ => 0) [6] [8] = some (siblingsCached, 0) := rfl
  exact fiveCached_reached.insert (fun _ => by rfl) hrun

/-- Three requests at two siblings under `dfs-weight`, and under `lpm` one with a cached token,
which goes first. -/
theorem calcPriority_reorders_cached :
    (∃ r, (QueuePolicy.init (policyEnv 32) .dfsWeight (some siblingsCached)).calcPriority
        (policyEnv 32) shortPrompts [1, 0, 2] = some r ∧
      Reorders (policyEnv 32) (.init (policyEnv 32) .dfsWeight (some siblingsCached)) shortPrompts
        [1, 0, 2] r) ∧
    ∃ r, (QueuePolicy.init (policyEnv 32) .lpm (some fiveCached)).calcPriority
        (policyEnv 32) shortPrompts [0, 1] = some r ∧ r.waitingQueue = [1, 0] ∧
      Reorders (policyEnv 32) (.init (policyEnv 32) .lpm (some fiveCached)) shortPrompts
        [0, 1] r := by
  constructor
  · refine QueuePolicy.calcPriority_reorders (fun S hS => ?_) (by decide)
    obtain rfl := Option.some.inj hS
    exact ⟨_, _, _, _, siblingsCached_reached⟩
  · obtain ⟨r, hrun, horder⟩ := @QueuePolicy.calcPriority_reorders (policyEnv 32)
      (.init (policyEnv 32) .lpm (some fiveCached)) shortPrompts [0, 1] (fun S hS => by
        obtain rfl := Option.some.inj hS
        exact ⟨_, _, _, _, fiveCached_reached⟩) (by decide)
    obtain ⟨rids, hlongest⟩ := horder.lpm fiveCached rfl rfl (by decide)
    have hperm : r.waitingQueue ∈ [0, 1].permutations := List.mem_permutations.mpr horder.perm
    have hcases : r.waitingQueue = [0, 1] ∨ r.waitingQueue = [1, 0] := by
      simpa [List.permutations] using hperm
    refine ⟨r, hrun, hcases.resolve_left fun hsame => ?_, horder⟩
    rw [hsame] at hlongest
    exact fiveCached_one_first hlongest List.mem_cons_self

/-- A queue of 129 requests stays as it is although the second one has a longer cached prefix
than the first, and a threshold of 0 deprioritizes a request that is alone. -/
theorem lpm_gives_up : (∃ r, RadixCache.Reached (fun _ => 0) .list True fiveCached [] [] ∧
    ((List.range 129).map fun q => (shortPrompts q).req.rid).Nodup ∧
    (QueuePolicy.init (policyEnv 32) .lpm (some fiveCached)).calcPriority (policyEnv 32)
      shortPrompts (List.range 129) = some r ∧
    ¬ ∃ rids, LongestPrefixFirst (policyEnv 32) fiveCached shortPrompts (List.range 129)
      r.waitingQueue rids) ∧
    ((QueuePolicy.init (policyEnv 0) .lpm (some (.reset fun _ => 0))).matchQueue (policyEnv 0)
      shortPrompts [0]).map Matching.temporaryDeprioritized = some [0] := by
  have hqueue : List.range 129 = [0] ++ 1 :: (List.range 129).drop 2 := by decide +kernel
  have hpolicy : (QueuePolicy.init (policyEnv 32) .lpm (some fiveCached)).policy = .lpm :=
    (QueuePolicy.init_policy ..).mpr (.inl rfl)
  have hlong : 128 < (List.range 129).length := by
    rw [List.length_range]
    omega
  refine ⟨⟨_, fiveCached_reached, by decide +kernel,
    QueuePolicy.calcPriority_long ⟨hlong, hpolicy⟩, ?_⟩, rfl⟩
  intro ⟨rids, h⟩
  rw [hqueue] at h
  exact fiveCached_one_first h List.mem_cons_self

end FastPP
