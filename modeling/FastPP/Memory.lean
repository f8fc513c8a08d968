import FastPP.Lib.FreeList
import Mathlib.Logic.Function.Basic

namespace FastPP

/-- `ReqToTokenPool`: one row of token slots for each request slot. -/
structure ReqToTokenPool where
  size : Nat
  freeSlots : List Nat
  reqToToken : Nat → Nat → Nat

/-- The first `n` elements and the rest, when there are that many. -/
def takeFirst {α : Type} (n : Nat) (free : List α) : Option (List α × List α) :=
  if free.length < n then none else some (free.take n, free.drop n)

theorem takeFirst_eq {α : Type} {n : Nat} {free slots rest : List α}
    (h : takeFirst n free = some (slots, rest)) : free = slots ++ rest ∧ slots.length = n := by
  unfold takeFirst at h
  split at h
  next => simp at h
  next hlen =>
    obtain ⟨rfl, rfl⟩ := Prod.mk.inj (Option.some.inj h)
    exact ⟨(List.take_append_drop n free).symm, by simp; omega⟩

namespace ReqToTokenPool

def clear (size : Nat) : ReqToTokenPool := ⟨size, List.range size, fun _ _ => 0⟩

def alloc (pool : ReqToTokenPool) (needSize : Nat) : Option (List Nat × ReqToTokenPool) := do
  let (selectIndex, freeSlots) ← takeFirst needSize pool.freeSlots
  pure (selectIndex, { pool with freeSlots })

def free (pool : ReqToTokenPool) (freeIndex : Nat) : ReqToTokenPool :=
  { pool with freeSlots := pool.freeSlots ++ [freeIndex] }

/-- `req_to_token[row, :len]`. -/
def read (pool : ReqToTokenPool) (row len : Nat) : List Nat :=
  (List.range len).map (pool.reqToToken row)

/-- `req_to_token[row, start : start + len(values)] = values`. -/
def writeSlice (pool : ReqToTokenPool) (row start : Nat) (values : List Nat) : ReqToTokenPool :=
  { pool with reqToToken := fun r c =>
      if r = row ∧ start ≤ c ∧ c < start + values.length then values.getD (c - start) 0
      else pool.reqToToken r c }

def writeCells (pool : ReqToTokenPool) : List (Nat × Nat × Nat) → ReqToTokenPool
  | [] => pool
  | (row, col, value) :: cells =>
    { pool with reqToToken := fun r c =>
        if r = row ∧ c = col then value else pool.reqToToken r c }.writeCells cells

/-- `req_to_token[rows, cols] = values` on index tensors; one value is broadcast
and other mismatched shapes raise. -/
def writeIndexed (pool : ReqToTokenPool) (rows cols values : List Nat) : Option ReqToTokenPool :=
  if rows.length ≠ cols.length then none
  else if values.length = rows.length then some (pool.writeCells (rows.zip (cols.zip values)))
  else match values with
    | [value] => some (pool.writeCells (rows.zip (cols.map fun c => (c, value))))
    | _ => none

@[simp] theorem writeSlice_freeSlots (pool : ReqToTokenPool) (row start : Nat)
    (values : List Nat) : (pool.writeSlice row start values).freeSlots = pool.freeSlots := rfl

@[simp] theorem writeCells_freeSlots (pool : ReqToTokenPool) (cells : List (Nat × Nat × Nat)) :
    (pool.writeCells cells).freeSlots = pool.freeSlots := by
  induction cells generalizing pool with
  | nil => rfl
  | cons cell cells ih => rw [writeCells, ih]

theorem writeIndexed_freeSlots {pool pool' : ReqToTokenPool} {rows cols values : List Nat}
    (h : pool.writeIndexed rows cols values = some pool') : pool'.freeSlots = pool.freeSlots := by
  unfold writeIndexed at h
  split at h
  next => simp at h
  next =>
    split at h
    next => cases Option.some.inj h; simp
    next =>
      split at h
      next => cases Option.some.inj h; simp
      next => simp at h

theorem alloc_eq {pool pool' : ReqToTokenPool} {n : Nat} {slots : List Nat}
    (h : pool.alloc n = some (slots, pool')) :
    pool.freeSlots = slots ++ pool'.freeSlots ∧ slots.length = n := by
  obtain ⟨⟨select, rest⟩, htake, hpool⟩ := Option.bind_eq_some_iff.mp h
  obtain ⟨rfl, rfl⟩ := Prod.mk.inj (Option.some.inj hpool)
  exact takeFirst_eq htake

end ReqToTokenPool

/-- `BaseTokenToKVPool` with its group of delayed frees. -/
structure TokenToKVPool where
  size : Nat
  freeSlots : List Nat
  isNotInFreeGroup : Bool
  freeGroup : List (List Nat)

namespace TokenToKVPool

def clear (size : Nat) : TokenToKVPool := ⟨size, List.range' 1 size, true, []⟩

def availableSize (pool : TokenToKVPool) : Nat := pool.freeSlots.length

def alloc (pool : TokenToKVPool) (needSize : Nat) : Option (List Nat × TokenToKVPool) := do
  let (selectIndex, freeSlots) ← takeFirst needSize pool.freeSlots
  pure (selectIndex, { pool with freeSlots })

def free (pool : TokenToKVPool) (freeIndex : List Nat) : TokenToKVPool :=
  if freeIndex.length = 0 then pool
  else if pool.isNotInFreeGroup then { pool with freeSlots := pool.freeSlots ++ freeIndex }
  else { pool with freeGroup := pool.freeGroup ++ [freeIndex] }

def freeGroupBegin (pool : TokenToKVPool) : TokenToKVPool :=
  { pool with isNotInFreeGroup := false, freeGroup := [] }

def freeGroupEnd (pool : TokenToKVPool) : TokenToKVPool :=
  let pool := { pool with isNotInFreeGroup := true }
  if pool.freeGroup = [] then pool else pool.free pool.freeGroup.flatten

theorem alloc_eq {pool pool' : TokenToKVPool} {n : Nat} {slots : List Nat}
    (h : pool.alloc n = some (slots, pool')) :
    pool.freeSlots = slots ++ pool'.freeSlots ∧ slots.length = n := by
  obtain ⟨⟨select, rest⟩, htake, hpool⟩ := Option.bind_eq_some_iff.mp h
  obtain ⟨rfl, rfl⟩ := Prod.mk.inj (Option.some.inj hpool)
  exact takeFirst_eq htake

end TokenToKVPool

/-- The operations on the two pools that the scheduler performs for its requests.
Requests are named by their index; `none` is a raised exception. -/
class MemoryPools (M : Type) where
  availableSize : M → Nat
  reqPoolIdx : M → Nat → Option Nat
  freeReqSlot : M → Nat → Option M
  cacheUnfinishedReq : M → Nat → Option (Nat × M)
  cacheFinishedReq : M → Nat → Nat → Option M
  retractReq : M → Nat → Nat → Option M
  viewPrefix : M → Nat → Nat → M
  allocReqSlots : M → Nat → Option (List Nat × M)
  allocTokenSlots : M → Nat → Option (List Nat × M)
  placeReq : M → Nat → Nat → Nat → M
  writeExtend : M → List Nat → List Nat → List Nat → List Int → List Nat → Option M
  writeDecode : M → List Nat → List Nat → List Nat → Option M
  freeGroupBegin : M → M
  freeGroupEnd : M → M
  allocReqSlots_length : ∀ {m n slots m'}, allocReqSlots m n = some (slots, m') → slots.length = n
  allocTokenSlots_length :
    ∀ {m n slots m'}, allocTokenSlots m n = some (slots, m') → slots.length = n

/-- The pools and what the requests hold of them: `req_pool_idx` and the row that
the view `prefix_indices` reads. -/
structure Memory where
  reqToTokenPool : ReqToTokenPool
  tokenToKVPool : TokenToKVPool
  reqPoolIdx : Nat → Option Nat
  prefixRow : Nat → Nat

namespace Memory

/-- The pools of a new scheduler. -/
def clear (reqSlots tokenSlots : Nat) : Memory where
  reqToTokenPool := .clear reqSlots
  tokenToKVPool := .clear tokenSlots
  reqPoolIdx := fun _ => none
  prefixRow := fun _ => 0

/-- `req_to_token_pool.free(req.req_pool_idx)`. -/
def freeReqSlot (m : Memory) (q : Nat) : Option Memory := do
  let row ← m.reqPoolIdx q
  pure { m with reqToTokenPool := m.reqToTokenPool.free row }

/-- `req.prefix_indices = kv_indices`, a view of the row of the request. -/
def cacheUnfinishedReq (m : Memory) (q : Nat) : Option (Nat × Memory) := do
  let row ← m.reqPoolIdx q
  pure (row, { m with prefixRow := Function.update m.prefixRow q row })

/-- The two frees of `ChunkCache.cache_finished_req`. -/
def cacheFinishedReq (m : Memory) (q tokenIdLen : Nat) : Option Memory := do
  let row ← m.reqPoolIdx q
  let kvIndices := m.reqToTokenPool.read row tokenIdLen
  pure { m with
    reqToTokenPool := m.reqToTokenPool.free row
    tokenToKVPool := m.tokenToKVPool.free kvIndices }

/-- The two frees of `retract_decode` for one request. -/
def retractReq (m : Memory) (q seqLen : Nat) : Option Memory := do
  let row ← m.reqPoolIdx q
  let tokenIndices := m.reqToTokenPool.read row seqLen
  pure { m with
    tokenToKVPool := m.tokenToKVPool.free tokenIndices
    reqToTokenPool := m.reqToTokenPool.free row }

/-- `req.prefix_indices = entry.value[:n]`, a view of the row of the entry. -/
def viewPrefix (m : Memory) (q row : Nat) : Memory :=
  { m with prefixRow := Function.update m.prefixRow q row }

def allocReqSlots (m : Memory) (numReqs : Nat) : Option (List Nat × Memory) := do
  let slots ← m.reqToTokenPool.alloc numReqs
  pure (slots.1, { m with reqToTokenPool := slots.2 })

/-- `alloc_token_slots`; `ChunkCache.evict` does nothing. -/
def allocTokenSlots (m : Memory) (numTokens : Nat) : Option (List Nat × Memory) := do
  let slots ← m.tokenToKVPool.alloc numTokens
  pure (slots.1, { m with tokenToKVPool := slots.2 })

/-- Give the request its row and write its `prefix_indices` there. -/
def placeReq (m : Memory) (q row preLen : Nat) : Memory :=
  { m with
    reqPoolIdx := Function.update m.reqPoolIdx q (some row)
    reqToTokenPool :=
      m.reqToTokenPool.writeSlice row 0 (m.reqToTokenPool.read (m.prefixRow q) preLen) }

/-- `write_req_to_token_pool_triton` from one request on; a read outside of
`out_cache_loc` is undefined. -/
def writeExtendFrom (outCacheLoc : List Nat) (cumsumStart : Int) (pool : ReqToTokenPool) :
    List (Nat × Nat × Nat × Int) → Option ReqToTokenPool
  | [] => some pool
  | (row, preLen, seqLen, extendLen) :: rest =>
    let count := seqLen - preLen
    if count = 0 then writeExtendFrom outCacheLoc (cumsumStart + extendLen) pool rest
    else if cumsumStart < 0 ∨ (outCacheLoc.length : Int) < cumsumStart + count then none
    else writeExtendFrom outCacheLoc (cumsumStart + extendLen)
      (pool.writeSlice row preLen ((outCacheLoc.drop cumsumStart.toNat).take count)) rest

def writeExtend (m : Memory) (rows preLens seqLens : List Nat) (extendLens : List Int)
    (outCacheLoc : List Nat) : Option Memory := do
  let pool ← writeExtendFrom outCacheLoc 0 m.reqToTokenPool
    (rows.zip (preLens.zip (seqLens.zip extendLens)))
  pure { m with reqToTokenPool := pool }

def writeDecode (m : Memory) (rows locs outCacheLoc : List Nat) : Option Memory := do
  let pool ← m.reqToTokenPool.writeIndexed rows locs outCacheLoc
  pure { m with reqToTokenPool := pool }

instance : MemoryPools Memory where
  availableSize m := m.tokenToKVPool.availableSize
  reqPoolIdx := Memory.reqPoolIdx
  freeReqSlot := freeReqSlot
  cacheUnfinishedReq := cacheUnfinishedReq
  cacheFinishedReq := cacheFinishedReq
  retractReq := retractReq
  viewPrefix := viewPrefix
  allocReqSlots := allocReqSlots
  allocTokenSlots := allocTokenSlots
  placeReq := placeReq
  writeExtend := writeExtend
  writeDecode := writeDecode
  freeGroupBegin m := { m with tokenToKVPool := m.tokenToKVPool.freeGroupBegin }
  freeGroupEnd m := { m with tokenToKVPool := m.tokenToKVPool.freeGroupEnd }
  allocReqSlots_length h := by
    obtain ⟨⟨slots, pool⟩, halloc, h⟩ := Option.bind_eq_some_iff.mp h
    obtain ⟨rfl, _⟩ := Prod.mk.inj (Option.some.inj h)
    exact (ReqToTokenPool.alloc_eq halloc).2
  allocTokenSlots_length h := by
    obtain ⟨⟨slots, pool⟩, halloc, h⟩ := Option.bind_eq_some_iff.mp h
    obtain ⟨rfl, _⟩ := Prod.mk.inj (Option.some.inj h)
    exact (TokenToKVPool.alloc_eq halloc).2

end Memory

/-- The decision machine: pools that never fail and hand out only slot zero, with
a reading of `available_size`. -/
structure Ghost where
  available : Nat
  deriving DecidableEq

instance : MemoryPools Ghost where
  availableSize := Ghost.available
  reqPoolIdx _ _ := some 0
  freeReqSlot m _ := some m
  cacheUnfinishedReq m _ := some (0, m)
  cacheFinishedReq m _ _ := some m
  retractReq m _ _ := some m
  viewPrefix m _ _ := m
  allocReqSlots m n := some (List.replicate n 0, m)
  allocTokenSlots m n := some (List.replicate n 0, m)
  placeReq m _ _ _ := m
  writeExtend m _ _ _ _ _ := some m
  writeDecode m _ _ _ := some m
  freeGroupBegin m := m
  freeGroupEnd m := m
  allocReqSlots_length h := by
    obtain ⟨rfl, _⟩ := Prod.mk.inj (Option.some.inj h)
    exact List.length_replicate
  allocTokenSlots_length h := by
    obtain ⟨rfl, _⟩ := Prod.mk.inj (Option.some.inj h)
    exact List.length_replicate

end FastPP
