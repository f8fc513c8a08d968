import FastPP.Radix.Refinement
import FastPP.Priority.Policy
import Mathlib

namespace FastPP

/-- `_key_match` reaches `n` if the first `n` tokens are the same. -/
theorem le_keyMatch_iff {key other : List Nat} {n : Nat} :
    n ≤ keyMatch other key ↔ n ≤ key.length ∧ key.take n <+: other := by
  constructor
  · intro h
    refine ⟨h.trans (keyMatch_le_right other key), ?_⟩
    have htake := congrArg (List.take n) (keyMatch_take other key)
    rw [List.take_take, List.take_take, Nat.min_eq_left h] at htake
    rw [← htake]
    exact List.take_prefix n other
  · intro ⟨hle, hpre⟩
    by_contra hlt
    have hidx : keyMatch other key < key.length := by omega
    have hkey : key[keyMatch other key]? = some key[keyMatch other key] :=
      List.getElem?_eq_getElem hidx
    have hother := List.prefix_iff_getElem?.mp hpre (keyMatch other key) (by
      rw [List.length_take]
      omega)
    rw [List.getElem_take] at hother
    exact keyMatch_ne hother hkey rfl

namespace RadixCache

variable {S : RadixCache} {keys : List (List Nat)} {key value : List Nat}

/-- The tree has the prefixes of the keys. -/
structure Holds (S : RadixCache) (keys : List (List Nat)) : Prop where
  locked : ∃ tree spell slots, S.Locked tree spell slots []
  present : ∀ q, (S.tokenMap.get q).isSome ↔ q ≠ [] ∧ ∃ key ∈ keys, q <+: key

theorem reset_holds (clock : Nat → Rat) : (reset clock).Holds [] := by
  refine ⟨⟨_, _, _, reset_locked clock⟩, ?_⟩
  intro q
  have hnone : (reset clock).tokenMap.get q = none := by
    apply (reset_locked clock).shape.get_none.mpr
    intro s ⟨_, _, hq, hpre, _⟩
    exact hq (List.prefix_nil.mp hpre)
  rw [hnone]
  simp

/-- The match reaches `n` tokens if one of the keys shares them. -/
theorem Holds.matchPrefix (h : S.Holds keys) (clock : Nat → Rat) (key : List Nat) :
    ∃ S' found node, S.matchPrefix clock key = some (S', found, node) ∧ S'.Holds keys ∧
      ∀ n, 0 < n → (n ≤ found.length ↔ ∃ other ∈ keys, n ≤ keyMatch other key) := by
  obtain ⟨tree, spell, slots, hl⟩ := h.locked
  obtain ⟨S', found, last, tree', spell', slots', hrun, hl', hmap, hlast, hf, _⟩ :=
    matchPrefix_spec clock hl key
  have hsame := hmap.tokenMap_eq hl.shape hl'.shape
  have hmatched := hf.matched hl.shape hl'.shape hmap hlast
  refine ⟨S', found, last, hrun, ⟨⟨_, _, _, hl'⟩, ?_⟩, ?_⟩
  · rw [hsame]
    exact h.present
  · intro n hn
    by_cases hle : n ≤ key.length
    · have hlongest := S.tokenMap.matched_longest hle
      rw [hmatched, h.present] at hlongest
      have hne : key.take n ≠ [] := by
        rw [← List.length_pos_iff, List.length_take]
        omega
      have hkeys : (∃ other ∈ keys, key.take n <+: other) ↔ n ≤ found.length := by
        rw [and_iff_right hne, and_iff_right hn] at hlongest
        exact hlongest
      rw [← hkeys]
      simp only [le_keyMatch_iff, and_iff_right hle]
    · have hfound := hf.le
      apply iff_of_false (by omega)
      intro ⟨other, _, hother⟩
      exact hle (le_keyMatch_iff.mp hother).1

theorem Holds.insert (h : S.Holds keys) (clock : Nat → Rat) (hlen : value.length = key.length) :
    ∃ S' len, S.insert clock key value = some (S', len) ∧ S'.Holds (keys ++ [key]) := by
  obtain ⟨tree, spell, slots, hl⟩ := h.locked
  obtain ⟨S', len, tree', spell', slots', hrun, hl', hi⟩ := insert_spec clock hl hlen
  obtain ⟨_, hmap⟩ := hi.extend hl.shape hl'.shape
  refine ⟨S', len, hrun, ⟨⟨_, _, _, hl'⟩, ?_⟩⟩
  intro q
  rw [hmap, PrefixMap.extend_isSome _ hlen, h.present]
  constructor
  · intro hq
    rcases hq with ⟨hq, other, hother, hpre⟩ | ⟨hpre, hq⟩
    · exact ⟨hq, other, List.mem_append_left _ hother, hpre⟩
    · exact ⟨hq, key, List.mem_append_right _ (List.mem_singleton_self key), hpre⟩
  · intro ⟨hq, other, hother, hpre⟩
    rcases List.mem_append.mp hother with hother | hother
    · exact .inl ⟨hq, other, hother, hpre⟩
    · exact .inr ⟨List.mem_singleton.mp hother ▸ hpre, hq⟩

end RadixCache

variable {env : PolicyEnv} {S : RadixCache} {heap : Nat → TreeReq} {before rids : List Nat}
  {m : Matching} {q : Nat}

def ShortMatch (env : PolicyEnv) (S : RadixCache) (r : TreeReq) : Prop :=
  (S.cachedLen r : Int) ≤ env.checkThreshold

/-- One of the requests has a short match, is not deprioritized itself and shares enough of
its prefix. -/
def SharesPrefix (env : PolicyEnv) (S : RadixCache) (heap : Nat → TreeReq)
    (before rids : List Nat) (q : Nat) : Prop :=
  ∃ p ∈ before, ShortMatch env S (heap p) ∧ (heap p).req.rid ∉ rids ∧
    env.deprioritizeThreshold ≤ keyMatch (heap p).prefixIds (heap q).prefixIds

/-- The rule by which the requests of the queue are deprioritized. A threshold that is not
positive asks for no other request. -/
def Deprioritizes (env : PolicyEnv) (S : RadixCache) (heap : Nat → TreeReq)
    (queue rids : List Nat) : Prop :=
  ∀ before q after, queue = before ++ q :: after → ((heap q).req.rid ∈ rids ↔
    ShortMatch env S (heap q) ∧
      (env.deprioritizeThreshold ≤ 0 ∨ SharesPrefix env S heap before rids q))

theorem SharesPrefix.congr {rids' : List Nat}
    (h : ∀ p ∈ before, (heap p).req.rid ∈ rids' ↔ (heap p).req.rid ∈ rids) :
    SharesPrefix env S heap before rids' q ↔ SharesPrefix env S heap before rids q := by
  apply exists_congr
  intro p
  apply and_congr_right
  intro hp
  rw [h p hp]

theorem Deprioritizes.snoc {rids' : List Nat} (h : Deprioritizes env S heap before rids)
    (hold : ∀ p ∈ before, (heap p).req.rid ∈ rids' ↔ (heap p).req.rid ∈ rids)
    (hnew : (heap q).req.rid ∈ rids' ↔ ShortMatch env S (heap q) ∧
      (env.deprioritizeThreshold ≤ 0 ∨ SharesPrefix env S heap before rids q)) :
    Deprioritizes env S heap (before ++ [q]) rids' := by
  intro left p right hsplit
  rcases List.eq_nil_or_concat right with rfl | ⟨right, last, rfl⟩
  · obtain ⟨rfl, hq⟩ := List.append_inj' hsplit rfl
    obtain rfl : q = p := List.head_eq_of_cons_eq hq
    rw [hnew, SharesPrefix.congr hold]
  · rw [List.concat_eq_append, ← List.cons_append, ← List.append_assoc] at hsplit
    obtain ⟨rfl, _⟩ := List.append_inj' hsplit rfl
    rw [hold p (by simp), h left p right rfl,
      SharesPrefix.congr fun x hx => hold x (List.mem_append_left _ hx)]

namespace Matching

/-- What the check within the queue does for a request with a short match. -/
structure Checked (env : PolicyEnv) (m : Matching) (keys : List (List Nat)) (rid : Nat)
    (prefixIds : List Nat) (m' : Matching) : Prop where
  treeCache : m'.treeCache = m.treeCache
  heap : m'.heap = m.heap
  outcome : ((env.deprioritizeThreshold ≤ 0 ∨
        ∃ key ∈ keys, env.deprioritizeThreshold ≤ keyMatch key prefixIds) ∧
      m'.temporaryDeprioritized = rid :: m.temporaryDeprioritized ∧
      m'.waitingQueueRadixTree.Holds keys) ∨
    (¬ (env.deprioritizeThreshold ≤ 0 ∨
        ∃ key ∈ keys, env.deprioritizeThreshold ≤ keyMatch key prefixIds) ∧
      m'.temporaryDeprioritized = m.temporaryDeprioritized ∧
      m'.waitingQueueRadixTree.Holds (keys ++ [prefixIds]))

theorem checkInBatch_spec (env : PolicyEnv) {keys : List (List Nat)}
    (h : m.waitingQueueRadixTree.Holds keys) (rid : Nat) (prefixIds : List Nat) :
    ∃ m', m.checkInBatch env rid prefixIds = some m' ∧ Checked env m keys rid prefixIds m' := by
  obtain ⟨tree, found, node, hmatch, htree, hfound⟩ := h.matchPrefix env.queueClock prefixIds
  have hcond : env.deprioritizeThreshold ≤ found.length ↔ env.deprioritizeThreshold ≤ 0 ∨
      ∃ key ∈ keys, env.deprioritizeThreshold ≤ keyMatch key prefixIds := by
    by_cases hpos : env.deprioritizeThreshold ≤ 0
    · exact iff_of_true (by omega) (.inl hpos)
    · have hn := hfound env.deprioritizeThreshold.toNat (by omega)
      rw [or_iff_right hpos]
      have hcast : ∀ k : Nat, env.deprioritizeThreshold ≤ k ↔
          env.deprioritizeThreshold.toNat ≤ k := fun k => by omega
      simp only [hcast]
      exact hn
  unfold checkInBatch
  rw [hmatch]
  simp only [Option.bind_eq_bind, Option.bind_some]
  split
  next hle =>
    exact ⟨_, rfl, rfl, rfl, .inl ⟨hcond.mp hle, rfl, htree⟩⟩
  next hlt =>
    have hlen : (List.replicate prefixIds.length 0).length = prefixIds.length :=
      List.length_replicate
    obtain ⟨tree', len, hinsert, htree'⟩ := htree.insert env.queueClock hlen
    rw [hinsert]
    exact ⟨_, rfl, rfl, rfl, .inr ⟨fun hc => hlt (hcond.mpr hc), rfl, htree'⟩⟩

/-- The requests `before` have been checked with each other. -/
structure QueueProgress (env : PolicyEnv) (S : RadixCache) (heap : Nat → TreeReq)
    (before : List Nat) (m : Matching) : Prop where
  queueTree : ∃ keys, m.waitingQueueRadixTree.Holds keys ∧ ∀ key, key ∈ keys ↔
    ∃ p ∈ before, ShortMatch env S (heap p) ∧ (heap p).req.rid ∉ m.temporaryDeprioritized ∧
      (heap p).prefixIds = key
  rids : ∀ rid ∈ m.temporaryDeprioritized, ∃ p ∈ before, (heap p).req.rid = rid
  deprioritizes : Deprioritizes env S heap before m.temporaryDeprioritized

/-- The keys of the second tree are those of the requests that can deprioritize another. -/
theorem sharesPrefix_iff {keys : List (List Nat)}
    (h : ∀ key, key ∈ keys ↔ ∃ p ∈ before, ShortMatch env S (heap p) ∧ (heap p).req.rid ∉ rids ∧
      (heap p).prefixIds = key) :
    (∃ key ∈ keys, env.deprioritizeThreshold ≤ keyMatch key (heap q).prefixIds) ↔
      SharesPrefix env S heap before rids q := by
  constructor
  · intro ⟨key, hkey, hle⟩
    obtain ⟨p, hp, hshort, hrid, rfl⟩ := (h key).mp hkey
    exact ⟨p, hp, hshort, hrid, hle⟩
  · intro ⟨p, hp, hshort, hrid, hle⟩
    exact ⟨_, (h _).mpr ⟨p, hp, hshort, hrid, rfl⟩, hle⟩

/-- A request with a long match is not checked. -/
theorem QueueProgress.skip (h : QueueProgress env S heap before m)
    (hq : ∀ p ∈ before, (heap p).req.rid ≠ (heap q).req.rid)
    (hlong : ¬ ShortMatch env S (heap q)) : QueueProgress env S heap (before ++ [q]) m := by
  obtain ⟨keys, hkeys, hmem⟩ := h.queueTree
  refine ⟨⟨keys, hkeys, ?_⟩, ?_, h.deprioritizes.snoc (fun _ _ => Iff.rfl) ?_⟩
  · intro key
    rw [hmem]
    constructor
    · intro ⟨p, hp, hkey⟩
      exact ⟨p, List.mem_append_left _ hp, hkey⟩
    · intro ⟨p, hp, hshort, hkey⟩
      rcases List.mem_append.mp hp with hp | hp
      · exact ⟨p, hp, hshort, hkey⟩
      · exact absurd (List.mem_singleton.mp hp ▸ hshort) hlong
  · intro rid hrid
    obtain ⟨p, hp, heq⟩ := h.rids rid hrid
    exact ⟨p, List.mem_append_left _ hp, heq⟩
  · apply iff_of_false
    · intro hrid
      obtain ⟨p, hp, heq⟩ := h.rids _ hrid
      exact hq p hp heq
    · exact fun hshort => hlong hshort.1

theorem QueueProgress.checkInBatch (h : QueueProgress env S heap before m)
    (hq : ∀ p ∈ before, (heap p).req.rid ≠ (heap q).req.rid)
    (hshort : ShortMatch env S (heap q)) :
    ∃ m', m.checkInBatch env (heap q).req.rid (heap q).prefixIds = some m' ∧
      m'.treeCache = m.treeCache ∧ m'.heap = m.heap ∧
      QueueProgress env S heap (before ++ [q]) m' := by
  obtain ⟨keys, hkeys, hmem⟩ := h.queueTree
  obtain ⟨m', hrun, hc⟩ := checkInBatch_spec env hkeys (heap q).req.rid
    (heap q).prefixIds
  refine ⟨m', hrun, hc.treeCache, hc.heap, ?_⟩
  have hnew : (heap q).req.rid ∉ m.temporaryDeprioritized := by
    intro hrid
    obtain ⟨p, hp, heq⟩ := h.rids _ hrid
    exact hq p hp heq
  have houtcome := hc.outcome
  rw [sharesPrefix_iff hmem] at houtcome
  rcases houtcome with ⟨hdep, hrids, htree⟩ | ⟨hkeep, hrids, htree⟩
  · -- the request is deprioritized and the second tree stays
    have hold : ∀ p ∈ before, (heap p).req.rid ∈ m'.temporaryDeprioritized ↔
        (heap p).req.rid ∈ m.temporaryDeprioritized := by
      intro p hp
      rw [hrids, List.mem_cons, or_iff_right (hq p hp)]
    refine ⟨⟨keys, htree, ?_⟩, ?_, h.deprioritizes.snoc hold ?_⟩
    · intro key
      rw [hmem]
      constructor
      · intro ⟨p, hp, hp', hrid, hkey⟩
        exact ⟨p, List.mem_append_left _ hp, hp', fun hr => hrid ((hold p hp).mp hr), hkey⟩
      · intro ⟨p, hp, hp', hrid, hkey⟩
        rcases List.mem_append.mp hp with hp | hp
        · exact ⟨p, hp, hp', fun hr => hrid ((hold p hp).mpr hr), hkey⟩
        · obtain rfl := List.mem_singleton.mp hp
          rw [hrids] at hrid
          exact absurd List.mem_cons_self hrid
    · intro rid hrid
      rw [hrids] at hrid
      rcases List.mem_cons.mp hrid with rfl | hrid
      · exact ⟨q, by simp, rfl⟩
      · obtain ⟨p, hp, heq⟩ := h.rids rid hrid
        exact ⟨p, List.mem_append_left _ hp, heq⟩
    · rw [hrids]
      exact iff_of_true List.mem_cons_self ⟨hshort, hdep⟩
  · -- the request's prefix joins the second tree
    refine ⟨⟨_, htree, ?_⟩, ?_, h.deprioritizes.snoc (fun p _ => by rw [hrids]) ?_⟩
    · intro key
      rw [List.mem_append, hmem, List.mem_singleton, hrids]
      constructor
      · intro hkey
        rcases hkey with ⟨p, hp, hkey⟩ | rfl
        · exact ⟨p, List.mem_append_left _ hp, hkey⟩
        · exact ⟨q, by simp, hshort, hnew, rfl⟩
      · intro ⟨p, hp, hp', hrid, hkey⟩
        rcases List.mem_append.mp hp with hp | hp
        · exact .inl ⟨p, hp, hp', hrid, hkey⟩
        · obtain rfl := List.mem_singleton.mp hp
          exact .inr hkey.symm
    · intro rid hrid
      rw [hrids] at hrid
      obtain ⟨p, hp, heq⟩ := h.rids rid hrid
      exact ⟨p, List.mem_append_left _ hp, heq⟩
    · rw [hrids]
      exact iff_of_false hnew fun hdep => hkeep hdep.2

end Matching

end FastPP

namespace FastPP

section Matched

variable {env : PolicyEnv} {S : RadixCache} {heap : Nat → TreeReq} {locks before : List Nat}
  {m : Matching} {q : Nat}

namespace Matching

/-- The loop has come past the requests `before` of the queue. -/
structure Progress (env : PolicyEnv) (S : RadixCache) (heap : Nat → TreeReq)
    (locks before : List Nat) (m : Matching) : Prop where
  toCacheProgress : CacheProgress S heap locks before m.treeCache m.heap
  toQueueProgress : QueueProgress env S heap before m

theorem Progress.matchReq (h : Progress env S heap locks before m)
    (hq : ∀ p ∈ before, (heap p).req.rid ≠ (heap q).req.rid) :
    ∃ m', m.matchReq env q = some m' ∧ Progress env S heap locks (before ++ [q]) m' := by
  have hnew : q ∉ before := fun hmem => hq q hmem rfl
  obtain ⟨treeCache, node, hmatch, hcache⟩ :=
    h.toCacheProgress.matchPrefix hnew env.treeClock
  have hqueue : QueueProgress env S heap before { m with
      treeCache
      heap := Function.update m.heap q
        ((heap q).setMatch (S.tokenMap.matched (heap q).prefixIds) node) } :=
    ⟨h.toQueueProgress.queueTree, h.toQueueProgress.rids, h.toQueueProgress.deprioritizes⟩
  unfold Matching.matchReq
  rw [h.toCacheProgress.others q hnew]
  simp only [hmatch, Option.bind_eq_bind, Option.bind_some]
  split
  next hshort =>
    obtain ⟨m', hrun, htree, hheap, hqueue'⟩ := hqueue.checkInBatch hq hshort
    rw [Function.update_self]
    refine ⟨m', hrun, ?_, hqueue'⟩
    rw [htree, hheap]
    exact hcache
  next hlong => exact ⟨_, rfl, hcache, hqueue.skip hq hlong⟩

theorem Progress.run {after : List Nat} (h : Progress env S heap locks before m)
    (hdistinct : ((before ++ after).map fun q => (heap q).req.rid).Nodup) :
    ∃ m', after.foldlM (Matching.matchReq env) m = some m' ∧
      Progress env S heap locks (before ++ after) m' := by
  induction after generalizing before m with
  | nil => exact ⟨m, rfl, by rwa [List.append_nil]⟩
  | cons q after ih =>
    have hq : ∀ p ∈ before, (heap p).req.rid ≠ (heap q).req.rid := by
      intro p hp
      rw [List.map_append, List.nodup_append] at hdistinct
      exact hdistinct.2.2 _ (List.mem_map_of_mem hp) _ (by simp)
    obtain ⟨m₁, hstep, h₁⟩ := h.matchReq hq
    rw [List.append_cons] at hdistinct ⊢
    obtain ⟨m', hrun, h'⟩ := ih h₁ hdistinct
    refine ⟨m', ?_, h'⟩
    rw [List.foldlM_cons, hstep]
    exact hrun

end Matching

/-- The loop of `calc_priority` from the start. -/
theorem QueuePolicy.matchQueue_progress (P : QueuePolicy) (env : PolicyEnv) {queue : List Nat}
    {tree : Finset Nat} {spell slots : Nat → List Nat} (hP : P.treeCache = some S)
    (hl : S.Locked tree spell slots locks)
    (hdistinct : (queue.map fun q => (heap q).req.rid).Nodup) :
    ∃ m, P.matchQueue env heap queue = some m ∧ m.Progress env S heap locks queue := by
  have h₀ : Matching.Progress env S heap locks []
      ⟨S, .reset env.queueClock, heap, []⟩ := by
    refine ⟨⟨⟨tree, spell, slots, hl, rfl, ?_⟩, ?_, fun _ _ => rfl⟩,
      ⟨⟨[], RadixCache.reset_holds _, ?_⟩, ?_, ?_⟩⟩
    · exact fun p hp => absurd hp List.not_mem_nil
    · exact fun p hp => absurd hp List.not_mem_nil
    · simp
    · exact fun rid hrid => absurd hrid List.not_mem_nil
    · intro left q right hsplit
      simp at hsplit
  unfold QueuePolicy.matchQueue
  rw [hP]
  exact h₀.run hdistinct

end Matched

variable {env : PolicyEnv} {S : RadixCache} {heap : Nat → TreeReq} {locks queue : List Nat}
  {m : Matching} {p q : Nat}

/-- The order of `lpm`: the longest cached prefixes come first, the deprioritized requests last,
and requests that are equal in this stay in their order. -/
structure LongestPrefixFirst (env : PolicyEnv) (S : RadixCache) (heap : Nat → TreeReq)
    (queue out rids : List Nat) : Prop where
  deprioritizes : Deprioritizes env S heap queue rids
  sorted : out.Pairwise fun p q => (heap q).req.rid ∈ rids ∨
    (heap p).req.rid ∉ rids ∧ S.cachedLen (heap q) ≤ S.cachedLen (heap p)
  stable : ∀ n, out.filter (fun q =>
      decide ((heap q).req.rid ∉ rids ∧ S.cachedLen (heap q) = n)) =
    queue.filter fun q => decide ((heap q).req.rid ∉ rids ∧ S.cachedLen (heap q) = n)
  stable_last : out.filter (fun q => decide ((heap q).req.rid ∈ rids)) =
    queue.filter fun q => decide ((heap q).req.rid ∈ rids)

namespace Matching.Progress

variable (h : Progress env S heap locks queue m)

include h

theorem lpmKey_kept (hq : q ∈ queue) (hrid : (heap q).req.rid ∉ m.temporaryDeprioritized) :
    m.lpmKey q = ((-(S.cachedLen (heap q) : Int) : Int) : WithTop Int) := by
  obtain ⟨node, heq⟩ := h.toCacheProgress.matched q hq
  unfold lpmKey
  rw [heq]
  exact if_pos hrid

theorem lpmKey_last (hq : q ∈ queue) (hrid : (heap q).req.rid ∈ m.temporaryDeprioritized) :
    m.lpmKey q = ⊤ := by
  obtain ⟨node, heq⟩ := h.toCacheProgress.matched q hq
  unfold lpmKey
  rw [heq]
  exact if_neg (not_not.mpr hrid)

theorem lpmKey_eq_top (hq : q ∈ queue) :
    m.lpmKey q = ⊤ ↔ (heap q).req.rid ∈ m.temporaryDeprioritized := by
  by_cases hrid : (heap q).req.rid ∈ m.temporaryDeprioritized
  · exact iff_of_true (h.lpmKey_last hq hrid) hrid
  · rw [h.lpmKey_kept hq hrid]
    exact iff_of_false (WithTop.coe_ne_top) hrid

theorem lpmKey_eq_coe {n : Nat} (hq : q ∈ queue) :
    m.lpmKey q = ((-(n : Int) : Int) : WithTop Int) ↔
      (heap q).req.rid ∉ m.temporaryDeprioritized ∧ S.cachedLen (heap q) = n := by
  by_cases hrid : (heap q).req.rid ∈ m.temporaryDeprioritized
  · rw [h.lpmKey_last hq hrid]
    exact iff_of_false WithTop.top_ne_coe fun hkept => hkept.1 hrid
  · rw [h.lpmKey_kept hq hrid, WithTop.coe_inj, and_iff_right hrid]
    omega

theorem lpmKey_le (hp : p ∈ queue) (hq : q ∈ queue) (hle : m.lpmKey p ≤ m.lpmKey q) :
    (heap q).req.rid ∈ m.temporaryDeprioritized ∨
      (heap p).req.rid ∉ m.temporaryDeprioritized ∧
        S.cachedLen (heap q) ≤ S.cachedLen (heap p) := by
  by_cases hqr : (heap q).req.rid ∈ m.temporaryDeprioritized
  · exact .inl hqr
  · right
    rw [h.lpmKey_kept hq hqr] at hle
    have hpr : (heap p).req.rid ∉ m.temporaryDeprioritized := by
      intro hpr
      rw [h.lpmKey_last hp hpr, top_le_iff] at hle
      exact WithTop.coe_ne_top hle
    rw [h.lpmKey_kept hp hpr, WithTop.coe_le_coe] at hle
    exact ⟨hpr, by omega⟩

theorem longestPrefixFirst :
    LongestPrefixFirst env S heap queue (sortByKey m.lpmKey queue) m.temporaryDeprioritized := by
  have hperm := sortByKey_perm m.lpmKey queue
  refine ⟨h.toQueueProgress.deprioritizes, ?_, ?_, ?_⟩
  · apply (sortByKey_sorted m.lpmKey queue).imp_of_mem
    intro p q hp hq hle
    exact h.lpmKey_le (hperm.mem_iff.mp hp) (hperm.mem_iff.mp hq) hle
  · intro n
    have hkey : ∀ q ∈ queue,
        decide (m.lpmKey q = ((-(n : Int) : Int) : WithTop Int)) =
          decide ((heap q).req.rid ∉ m.temporaryDeprioritized ∧ S.cachedLen (heap q) = n) :=
      fun q hq => decide_eq_decide.mpr (h.lpmKey_eq_coe hq)
    rw [← List.filter_congr hkey,
      ← List.filter_congr fun q hq => hkey q (hperm.mem_iff.mp hq)]
    exact sortByKey_stable m.lpmKey queue _
  · have hkey : ∀ q ∈ queue, decide (m.lpmKey q = ⊤) =
        decide ((heap q).req.rid ∈ m.temporaryDeprioritized) :=
      fun q hq => decide_eq_decide.mpr (h.lpmKey_eq_top hq)
    rw [← List.filter_congr hkey,
      ← List.filter_congr fun q hq => hkey q (hperm.mem_iff.mp hq)]
    exact sortByKey_stable m.lpmKey queue _

end Matching.Progress

end FastPP
