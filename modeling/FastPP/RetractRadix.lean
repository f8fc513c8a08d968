import FastPP.RetractStops
import FastPP.Radix.Accounting

namespace FastPP

namespace TokenToKVPool

theorem free_available {pool : TokenToKVPool} (h : pool.isNotInFreeGroup = true)
    (freeIndex : List Nat) :
    (pool.free freeIndex).isNotInFreeGroup = true ∧
      (pool.free freeIndex).availableSize = pool.availableSize + freeIndex.length := by
  unfold free availableSize
  split
  next hempty => exact ⟨h, by omega⟩
  next => exact ⟨h, List.length_append⟩

theorem free_all_available {pool : TokenToKVPool} (h : pool.isNotInFreeGroup = true)
    (values : List (List Nat)) :
    (values.foldl free pool).isNotInFreeGroup = true ∧
      (values.foldl free pool).availableSize =
        pool.availableSize + (values.map List.length).sum := by
  induction values generalizing pool with
  | nil => exact ⟨h, rfl⟩
  | cons value values ih =>
    obtain ⟨hflag, hsize⟩ := free_available h value
    obtain ⟨hflag', hsize'⟩ := ih hflag
    refine ⟨hflag', ?_⟩
    rw [List.foldl_cons, hsize', hsize, List.map_cons, List.sum_cons]
    omega

end TokenToKVPool

/-- The slots of a request that its prefix does not cover. -/
def DecodeReq.privateLen (req : DecodeReq) : Nat := req.seqLen - req.prefixLen

namespace DecodeMemory

open RadixCache (Trimmed)

variable {heapq : Heapq} {steps k : Nat} {order : List DecodeReq} {m m' : DecodeMemory}
  {req : DecodeReq} {disable : Bool} {U S : RadixCache} {locks : List Nat}

/-- The memory over a radix cache that is `U` after evictions; of a disabled cache nothing is
known. -/
structure Over (m : DecodeMemory) (disable : Bool) (U S : RadixCache) (locks : List Nat) : Prop where
  flag : m.tokenToKVPool.isNotInFreeGroup = true
  cache : m.treeCache = .radix disable S
  trimmed : disable = false → Trimmed U S locks

theorem Over.evictable_eq (h : Over m disable U S locks) :
    m.evictableSize = if disable then 0 else S.evictableSize := by
  unfold evictableSize
  rw [h.cache]

theorem Over.evictable_nonneg (h : Over m disable U S locks) : 0 ≤ m.evictableSize := by
  rw [h.evictable_eq]
  cases disable with
  | true => exact Int.le_refl 0
  | false =>
    obtain ⟨_, _, _, _, _, hS, _⟩ := h.trimmed rfl
    exact hS.represented.size_nonneg

/-- An eviction frees what it was asked for, or all that is evictable. -/
theorem Over.evict (h : Over m disable U S locks) (heapq : Heapq) (numTokens : Nat) :
    ∃ m' S', m.evict heapq numTokens = some m' ∧ Over m' disable U S' locks ∧
      (m'.availableSize : Int) + m'.evictableSize = m.availableSize + m.evictableSize ∧
      m.availableSize ≤ m'.availableSize ∧
      (numTokens + m.availableSize ≤ m'.availableSize ∨ m'.evictableSize = 0) := by
  have hev := h.evictable_eq
  unfold DecodeMemory.evict
  rw [h.cache]
  cases disable with
  | true => exact ⟨m, S, rfl, h, rfl, Nat.le_refl _, .inr hev⟩
  | false =>
    obtain ⟨S', removed, evicted, hrun, hfrees, htrimmed⟩ := (h.trimmed rfl).evict heapq numTokens
    have hsize := hfrees.steps.size
    have henough := hfrees.enough
    have hfreed : (evicted.map List.length).sum = S.freed removed := by
      rw [hfrees.values, List.map_map]
      rfl
    obtain ⟨hflag, havail⟩ := TokenToKVPool.free_all_available h.flag evicted
    obtain ⟨m', hm'⟩ : ∃ m' : DecodeMemory, m' =
      { m with treeCache := .radix false S'
               tokenToKVPool := evicted.foldl TokenToKVPool.free m.tokenToKVPool } := ⟨_, rfl⟩
    have hover : Over m' false U S' locks := by
      rw [hm']
      exact ⟨hflag, rfl, fun _ => htrimmed⟩
    have hev' : m'.evictableSize = S'.evictableSize := hover.evictable_eq
    have havail' : m'.availableSize = m.availableSize + S.freed removed := by
      rw [hm', ← hfreed]
      exact havail
    have hev : m.evictableSize = S.evictableSize := hev
    refine ⟨m', S', ?_, hover, by omega, by omega, by omega⟩
    simp only [Bool.false_eq_true, if_false, hrun, Option.bind_eq_bind, Option.bind_some]
    rw [hm']
    rfl

/-- The slots that could be free once the requests have let go of theirs, with all that is then
evictable. -/
def reclaimable (m : DecodeMemory) (disable : Bool) (tree : RadixCache) (reqs : List DecodeReq) :
    Option Int := do
  let tree ← reqs.foldlM (unlock disable) tree
  pure (m.availableSize + ((reqs.map DecodeReq.privateLen).sum : Nat) +
    if disable then 0 else tree.evictableSize)

/-- The lock of a request is released in both. -/
theorem Over.unlock (h : Over m disable U S locks)
    (hlock : disable = false → req.lastNode ∈ locks) :
    ∃ U' S', DecodeMemory.unlock disable U req = some U' ∧ DecodeMemory.unlock disable S req = some S' ∧
      (disable = false → Trimmed U' S' (locks.erase req.lastNode)) ∧
      (if disable then 0 else S'.evictableSize) - (if disable then 0 else U'.evictableSize) =
        (if disable then 0 else S.evictableSize) - (if disable then 0 else U.evictableSize) := by
  unfold DecodeMemory.unlock
  cases disable with
  | true => exact ⟨U, S, rfl, rfl, Bool.noConfusion, rfl⟩
  | false =>
    obtain ⟨U', S', delta, hU, hS, htrimmed, hsizeU, hsizeS⟩ :=
      (h.trimmed rfl).decLockRef (hlock rfl)
    refine ⟨U', S', ?_, ?_, fun _ => htrimmed, ?_⟩
    · rw [if_neg (by decide), hU]
      rfl
    · rw [if_neg (by decide), hS]
      rfl
    · simp only [Bool.false_eq_true, if_false]
      omega

/-- One request lets go of its slots and its lock. -/
theorem Over.retractReq (h : Over m disable U S locks) (heapq : Heapq) (steps remaining : Nat)
    (available : Int) (hlock : disable = false → req.lastNode ∈ locks) :
    ∃ m' U' S', m.retractReq heapq steps req remaining available = some (m', available) ∧
      DecodeMemory.unlock disable U req = some U' ∧ Over m' disable U' S' (locks.erase req.lastNode) ∧
      (m'.availableSize : Int) + m'.evictableSize - (if disable then 0 else U'.evictableSize) =
        m.availableSize + m.evictableSize + req.privateLen -
          (if disable then 0 else U.evictableSize) ∧
      m.availableSize ≤ m'.availableSize ∧
      (remaining * steps ≤ m'.availableSize ∨ m'.evictableSize = 0) := by
  obtain ⟨U', S', hU, hS, htrimmed, hsize⟩ := h.unlock hlock
  obtain ⟨indices, hindices⟩ : ∃ indices,
    indices = (m.reqToTokenPool.read req.reqPoolIdx req.seqLen).drop req.prefixLen := ⟨_, rfl⟩
  have hlen : indices.length = req.privateLen := by
    rw [hindices, List.length_drop]
    unfold ReqToTokenPool.read DecodeReq.privateLen
    rw [List.length_map, List.length_range]
  obtain ⟨hflag, havail⟩ := TokenToKVPool.free_available h.flag indices
  obtain ⟨m₁, hm₁⟩ : ∃ m₁ : DecodeMemory,
    m₁ = { m.freeReq req indices with treeCache := .radix disable S' } := ⟨_, rfl⟩
  have hover₁ : Over m₁ disable U' S' (locks.erase req.lastNode) := by
    rw [hm₁]
    exact ⟨hflag, rfl, htrimmed⟩
  have havail₁ : m₁.availableSize = m.availableSize + req.privateLen := by
    rw [hm₁, ← hlen]
    exact havail
  have hmid : (m.freeReq req indices).availableSize = m₁.availableSize := by
    rw [hm₁]
    rfl
  obtain ⟨m', S'', hevict, hover, hsum, hle, henough⟩ := hover₁.evict heapq
    (max 0 (((remaining * steps : Nat) : Int) - m₁.availableSize)).toNat
  have hev := h.evictable_eq
  have hev₁ := hover₁.evictable_eq
  refine ⟨m', U', S'', ?_, hU, hover, by omega, by omega, by omega⟩
  unfold DecodeMemory.retractReq
  rw [h.cache]
  simp only [← hindices, hS, hmid, Option.bind_eq_bind, Option.bind_some, ← hm₁, hevict]
  rfl

/-- The first requests of the order let go, one after the other. -/
theorem Over.retractFirst (h : Over m disable U S locks) (heapq : Heapq) (steps : Nat) {k : Nat}
    (hk : k ≤ order.length)
    (hlocks : disable = false →
      ∃ others, locks.Perm (order.map DecodeReq.lastNode ++ others)) :
    ∃ m' U' S' locks', retractFirst heapq steps k order m = some m' ∧
      (order.take k).foldlM (DecodeMemory.unlock disable) U = some U' ∧
      Over m' disable U' S' locks' ∧
      (m'.availableSize : Int) + m'.evictableSize - (if disable then 0 else U'.evictableSize) =
        m.availableSize + m.evictableSize + ((order.take k).map DecodeReq.privateLen).sum -
          (if disable then 0 else U.evictableSize) ∧
      (1 ≤ k → (order.length - k) * steps ≤ m'.availableSize ∨ m'.evictableSize = 0) ∧
      (disable = false →
        ∃ others, locks'.Perm ((order.drop k).map DecodeReq.lastNode ++ others)) := by
  induction k generalizing m U S locks order with
  | zero =>
    refine ⟨m, U, S, locks, rfl, rfl, h, ?_, fun h0 => absurd h0 (by omega), hlocks⟩
    simp
  | succ k ih =>
    cases order with
    | nil => exact absurd hk (Nat.not_succ_le_zero _)
    | cons req order =>
      have hmem : disable = false → req.lastNode ∈ locks := by
        intro hd
        obtain ⟨others, hperm⟩ := hlocks hd
        exact hperm.symm.subset List.mem_cons_self
      have hlocks' : disable = false →
          ∃ others, (locks.erase req.lastNode).Perm (order.map DecodeReq.lastNode ++ others) := by
        intro hd
        obtain ⟨others, hperm⟩ := hlocks hd
        refine ⟨others, ?_⟩
        have herase := hperm.erase req.lastNode
        simpa using herase
      obtain ⟨m₁, U₁, S₁, hreq, hunlock, hover, hsum, hle, henough⟩ :=
        h.retractReq heapq steps order.length 0 hmem
      obtain ⟨m', U', S', locks', hrest, hfold, hover', hsum', henough', hleft⟩ :=
        ih hover (Nat.le_of_succ_le_succ hk) hlocks'
      refine ⟨m', U', S', locks', ?_, ?_, hover', ?_, ?_, hleft⟩
      · rw [DecodeMemory.retractFirst, hreq]
        exact hrest
      · rw [List.take_succ_cons, List.foldlM_cons, hunlock]
        exact hfold
      · rw [List.take_succ_cons, List.map_cons, List.sum_cons]
        push_cast at hsum' ⊢
        omega
      · intro _
        rw [List.length_cons, Nat.add_sub_add_right]
        cases k with
        | zero =>
          cases Option.some.inj (hrest.symm.trans rfl)
          exact henough
        | succ k => exact henough' (by omega)

end DecodeMemory

end FastPP
