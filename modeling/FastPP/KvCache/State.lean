import FastPP.Admission
import FastPP.Lib.CausalStates
import FastPP.Priority.Policy

namespace FastPP

/-- Where a request is between two operations of the scheduler; a request whose `fill_ids` were
cut to a chunk is `truncated`. -/
inductive KvPhase
  | waiting
  | matched
  | canRun (truncated : Bool)
  | extend (truncated : Bool)
  | beingChunked
  | running
  | decode
  | finished
  deriving DecidableEq

/-- A request with its row and its part of the batch: `seqLen` tokens have a slot, `kvLen` of
them have their KV data, and `outCacheLoc` are the slots of the others. -/
structure KvReq extends TreeReq where
  reqPoolIdx : Nat
  seqLen : Nat
  kvLen : Nat
  outCacheLoc : List Nat
  phase : KvPhase

namespace KvReq

def new (req : Req) : KvReq where
  req
  prefixIndices := []
  lastNode := 0
  reqPoolIdx := 0
  seqLen := 0
  kvLen := 0
  outCacheLoc := []
  phase := .waiting

/-- `origin_input_ids + output_ids`. -/
def tokens (r : KvReq) : List Nat := r.req.originInputIds ++ r.req.outputIds

/-- The request's part of the `input_ids` of `prepare_for_extend`. -/
def inputIds (r : KvReq) : List Nat := r.req.fillIds.drop r.prefixIndices.length

/-- The next token that the batch feeds to the model for the request. -/
def nextInput (r : KvReq) : Nat :=
  match r.phase with
  | .extend _ => r.req.fillIds.getD r.kvLen 0
  | _ => r.tokens.getLastD 0

end KvReq

/-- What the memory system takes from outside: the clock and the heap of the cache, the
tokenizer, and the KV data of a token for the KV data of the tokens before it. -/
structure KvEnv (κ : Type) where
  clock : Nat → Rat
  heapq : Heapq
  tokenizer : Option Tokenizer
  attend : List κ → Nat → κ

/-- One rank without pipelining: the two pools, the radix cache, the requests so far and the
buffer with the KV data of each slot. -/
structure KvSystem (κ : Type) where
  reqToTokenPool : ReqToTokenPool
  tokenToKVPool : TokenToKVPool
  treeCache : RadixCache
  reqs : Nat → KvReq
  numReqs : Nat
  kvBuffer : Nat → κ

namespace KvSystem

variable {κ : Type} (env : KvEnv κ)

def init (reqSlots tokenSlots : Nat) (kvBuffer : Nat → κ) : KvSystem κ where
  reqToTokenPool := .clear reqSlots
  tokenToKVPool := .clear tokenSlots
  treeCache := .reset env.clock
  reqs := fun _ => { KvReq.new .blank with phase := .finished }
  numReqs := 0
  kvBuffer

def setReq (σ : KvSystem κ) (q : Nat) (r : KvReq) : KvSystem κ :=
  { σ with reqs := Function.update σ.reqs q r }

def setPhase (σ : KvSystem κ) (q : Nat) (phase : KvPhase) : KvSystem κ :=
  σ.setReq q { σ.reqs q with phase }

/-- `req_to_token[req.req_pool_idx, :len]`. -/
def kvIndices (σ : KvSystem κ) (r : KvReq) (len : Nat) : List Nat :=
  σ.reqToTokenPool.read r.reqPoolIdx len

/-- The admission loop is over: no request has a match that it is not yet locked for. -/
def NoneMatched (σ : KvSystem κ) : Prop := ∀ q < σ.numReqs, (σ.reqs q).phase ≠ .matched

instance (σ : KvSystem κ) : Decidable σ.NoneMatched :=
  inferInstanceAs (Decidable (∀ q < σ.numReqs, _))

/-- A request arrives. -/
def submit (σ : KvSystem κ) (req : Req) : KvSystem κ :=
  { σ.setReq σ.numReqs (.new req) with numReqs := σ.numReqs + 1 }

/-- `match_prefix` for a request of the waiting queue. -/
def lookup (σ : KvSystem κ) (q : Nat) : Option (KvSystem κ) := do
  let r := σ.reqs q
  if r.phase ≠ .waiting ∧ r.phase ≠ .matched then none else do
    let (treeCache, prefixIndices, lastNode) ← σ.treeCache.matchPrefix env.clock r.prefixIds
    pure ({ σ with treeCache }.setReq q
      { r with toTreeReq := r.toTreeReq.setMatch prefixIndices lastNode, phase := .matched })

/-- The request stays in the waiting queue. -/
def pass (σ : KvSystem κ) (q : Nat) : Option (KvSystem κ) :=
  if (σ.reqs q).phase ≠ .matched then none else some (σ.setPhase q .waiting)

def incLockRef (σ : KvSystem κ) (node : Nat) : Option (KvSystem κ) := do
  let (treeCache, _) ← σ.treeCache.incLockRef node
  pure { σ with treeCache }

def decLockRef (σ : KvSystem κ) (node : Nat) : Option (KvSystem κ) := do
  let (treeCache, _) ← σ.treeCache.decLockRef node
  pure { σ with treeCache }

/-- `_lock_node` around a refusal. -/
def refuse (σ : KvSystem κ) (q : Nat) : Option (KvSystem κ) := do
  let r := σ.reqs q
  if r.phase ≠ .matched then none else do
    let σ ← σ.incLockRef r.lastNode
    σ.decLockRef r.lastNode

/-- `init_next_round_input` and `add_one_req` of a request that is taken, whole or as a chunk. -/
def admitReq (σ : KvSystem κ) (q : Nat) (truncLen : Option Int) : Option (KvSystem κ) := do
  let r := σ.reqs q
  if r.phase ≠ .matched then none else do
    let req := r.req.initNextRoundInput none
    let σ ← σ.incLockRef r.lastNode
    let σ ← σ.incLockRef r.lastNode
    let σ ← σ.decLockRef r.lastNode
    let req := match truncLen with
      | none => req
      | some n => PrefillAdder.truncate req n
    pure (σ.setReq q { r with req, phase := .canRun truncLen.isSome })

/-- `init_next_round_input` and `add_being_chunked_req`. -/
def addBeingChunkedReq (σ : KvSystem κ) (q : Nat) (remChunkTokens : Int) :
    Option (KvSystem κ) :=
  let r := σ.reqs q
  if r.phase ≠ .beingChunked then none
  else
    let req := r.req.initNextRoundInput none
    let truncated := decide (remChunkTokens < req.extendInputLen)
    some (σ.setReq q { r with
      req := PrefillAdder.truncate req (min req.extendInputLen remChunkTokens)
      phase := .canRun truncated })

/-- `evict` with the callback `token_to_kv_pool.free`. -/
def evict (σ : KvSystem κ) (numTokens : Nat) : Option (KvSystem κ) := do
  let (treeCache, evicted) ← σ.treeCache.evict env.heapq numTokens
  pure { σ with treeCache, tokenToKVPool := evicted.foldl TokenToKVPool.free σ.tokenToKVPool }

def takeSlots (σ : KvSystem κ) (numTokens : Nat) : Option (List Nat × KvSystem κ) := do
  let (outCacheLoc, tokenToKVPool) ← σ.tokenToKVPool.alloc numTokens
  pure (outCacheLoc, { σ with tokenToKVPool })

/-- `alloc_token_slots`. -/
def allocTokenSlots (σ : KvSystem κ) (numTokens : Nat) : Option (List Nat × KvSystem κ) :=
  match σ.takeSlots numTokens with
  | some taken => some taken
  | none => do
    let σ ← σ.evict env numTokens
    σ.takeSlots numTokens

/-- `alloc_req_slots`. -/
def allocReqSlots (σ : KvSystem κ) (numReqs : Nat) : Option (List Nat × KvSystem κ) := do
  let (rows, reqToTokenPool) ← σ.reqToTokenPool.alloc numReqs
  pure (rows, { σ with reqToTokenPool })

/-- The fields of a request after `prepare_for_extend`. -/
def placed (r : KvReq) (row : Nat) (outCacheLoc : List Nat) : KvReq :=
  { r with
    reqPoolIdx := row
    seqLen := r.req.fillIds.length
    kvLen := min r.prefixIndices.length r.req.fillIds.length
    outCacheLoc
    phase := match r.phase with
      | .canRun truncated => .extend truncated
      | phase => phase }

/-- Each request with its row gets its part of `out_cache_loc`. -/
def placeReqs (reqs : Nat → KvReq) : List (Nat × Nat) → List Nat → Nat → KvReq
  | [], _ => reqs
  | (q, row) :: items, outCacheLoc =>
    let n := (reqs q).inputIds.length
    placeReqs (Function.update reqs q (placed (reqs q) row (outCacheLoc.take n))) items
      (outCacheLoc.drop n)

/-- The row of a request with what `write_req_to_token_pool_triton` reads. -/
def extendEntry (reqs : Nat → KvReq) (item : Nat × Nat) : Nat × Nat × Nat × Int :=
  let r := reqs item.1
  (item.2, r.prefixIndices.length, r.req.fillIds.length, r.req.extendInputLen)

/-- `prepare_for_extend`. The chunk budget is spent after the first request of a batch, so no
other one has a negative `extend_input_len`. -/
def prepareForExtend (σ : KvSystem κ) (qs : List Nat) : Option (KvSystem κ) :=
  if ¬ (qs.Nodup ∧ σ.NoneMatched ∧
      (∀ q ∈ qs, (σ.reqs q).phase = .canRun true ∨ (σ.reqs q).phase = .canRun false) ∧
      ∀ q ∈ qs.tail, 0 ≤ (σ.reqs q).req.extendInputLen) then none
  else do
    let (rows, σ) ← σ.allocReqSlots qs.length
    let (outCacheLoc, σ) ←
      σ.allocTokenSlots env (qs.map fun q => (σ.reqs q).inputIds.length).sum
    if ¬ ∀ q ∈ qs, ((σ.reqs q).req.fillIds.length : Int) - (σ.reqs q).prefixIndices.length =
        (σ.reqs q).req.extendInputLen then none
    else do
      let items := qs.zip rows
      let pool := items.foldl (fun pool item =>
        pool.writeSlice item.2 0 (σ.reqs item.1).prefixIndices) σ.reqToTokenPool
      let pool ← Memory.writeExtendFrom outCacheLoc 0 pool (items.map (extendEntry σ.reqs))
      pure { σ with reqToTokenPool := pool, reqs := placeReqs σ.reqs items outCacheLoc }

/-- Each request of a decode batch gets its slot. -/
def stepReqs (reqs : Nat → KvReq) : List (Nat × Nat) → Nat → KvReq
  | [] => reqs
  | (q, loc) :: items =>
    stepReqs (Function.update reqs q { reqs q with
      seqLen := (reqs q).seqLen + 1
      outCacheLoc := [loc]
      phase := .decode }) items

/-- `prepare_for_decode`. -/
def prepareForDecode (σ : KvSystem κ) (qs : List Nat) : Option (KvSystem κ) :=
  if ¬ (qs.Nodup ∧ σ.NoneMatched ∧ ∀ q ∈ qs, (σ.reqs q).phase = .running) then none
  else do
    let (outCacheLoc, σ) ← σ.allocTokenSlots env qs.length
    let reqToTokenPool ← σ.reqToTokenPool.writeIndexed (qs.map fun q => (σ.reqs q).reqPoolIdx)
      (qs.map fun q => (σ.reqs q).seqLen) outCacheLoc
    pure { σ with reqToTokenPool, reqs := stepReqs σ.reqs (qs.zip outCacheLoc) }

/-- The KV data of the next token of a request, from those read along its row. -/
def computeToken (q : Nat) (σ : KvSystem κ) (loc : Nat) : KvSystem κ :=
  let r := σ.reqs q
  { σ.setReq q { r with kvLen := r.kvLen + 1, outCacheLoc := r.outCacheLoc.tail } with
    kvBuffer := Function.update σ.kvBuffer loc
      (env.attend ((σ.kvIndices r r.kvLen).map σ.kvBuffer) r.nextInput) }

def computeReq (σ : KvSystem κ) (q : Nat) : KvSystem κ :=
  (σ.reqs q).outCacheLoc.foldl (computeToken env q) σ

/-- The forward pass of a batch; without new tokens it is skipped, and a negative
`extend_input_len` in a batch with new tokens is undefined. -/
def forwardBatch (σ : KvSystem κ) (qs : List Nat) : Option (KvSystem κ) :=
  if ¬ ∀ q ∈ qs, (σ.reqs q).phase = .extend true ∨ (σ.reqs q).phase = .extend false ∨
      (σ.reqs q).phase = .decode then none
  else if (∃ q ∈ qs, (σ.reqs q).seqLen < (σ.reqs q).prefixIndices.length) ∧
      ∃ q ∈ qs, (σ.reqs q).outCacheLoc ≠ [] then none
  else some (qs.foldl (computeReq env) σ)

/-- The part of `cache_finished_req` and `cache_unfinished_req` in which the cache takes over
the slots of a row; those that it had already are freed. -/
def insertRow (σ : KvSystem κ) (r : KvReq) (tokenIds : List Nat) : Option (KvSystem κ) := do
  let kvIndices := σ.kvIndices r tokenIds.length
  let (treeCache, newPrefixLen) ← σ.treeCache.insert env.clock tokenIds kvIndices
  pure { σ with
    treeCache
    tokenToKVPool :=
      σ.tokenToKVPool.free ((kvIndices.take newPrefixLen).drop r.prefixIndices.length) }

def freeRow (σ : KvSystem κ) (r : KvReq) : KvSystem κ :=
  { σ with reqToTokenPool := σ.reqToTokenPool.free r.reqPoolIdx }

/-- `RadixCache.cache_finished_req`. -/
def cacheFinishedReq (σ : KvSystem κ) (q : Nat) : Option (KvSystem κ) := do
  let r := σ.reqs q
  let σ ← σ.insertRow env r r.tokens.dropLast
  (σ.freeRow r).decLockRef r.lastNode

/-- `RadixCache.cache_unfinished_req`. -/
def cacheUnfinishedReq (σ : KvSystem κ) (q : Nat) : Option (KvSystem κ) := do
  let r := σ.reqs q
  let tokenIds := r.req.fillIds
  let σ ← σ.insertRow env r tokenIds
  let (treeCache, newIndices, newLastNode) ← σ.treeCache.matchPrefix env.clock tokenIds
  if newIndices.length ≠ tokenIds.length then none else do
    let σ := { σ with
      treeCache
      reqToTokenPool := σ.reqToTokenPool.writeSlice r.reqPoolIdx r.prefixIndices.length
        (newIndices.drop r.prefixIndices.length) }
    let σ ← σ.decLockRef r.lastNode
    let σ ← σ.incLockRef newLastNode
    pure (σ.setReq q { r with
      req := { r.req with prefixLen := newIndices.length }
      prefixIndices := newIndices
      lastNode := newLastNode })

/-- One round of `process_batch_result_prefill`. -/
def processPrefillReq (σ : KvSystem κ) (q token : Nat) : Option (KvSystem κ) := do
  let r := σ.reqs q
  if r.phase ≠ .extend false ∨ r.kvLen ≠ r.seqLen then none else do
    let req ← r.req.appendToken env.tokenizer token
    let σ := σ.setReq q { r with req }
    if req.finished then do
      let σ ← σ.cacheFinishedReq env q
      pure (σ.setPhase q .finished)
    else do
      let σ ← σ.cacheUnfinishedReq env q
      pure (σ.setPhase q .running)

/-- The chunked request leaves its batch: it is cached and its row is freed. -/
def cacheChunk (σ : KvSystem κ) (q : Nat) : Option (KvSystem κ) := do
  let r := σ.reqs q
  if r.phase ≠ .extend true ∨ r.kvLen ≠ r.seqLen then none else do
    let σ ← σ.cacheUnfinishedReq env q
    pure ((σ.freeRow (σ.reqs q)).setPhase q .beingChunked)

/-- One round of `process_batch_result_decode`, and of the prefill handler for a request of
`decoding_reqs`. -/
def processDecodeReq (σ : KvSystem κ) (item : Nat × Nat) : Option (KvSystem κ) := do
  let (q, token) := item
  let r := σ.reqs q
  if r.phase ≠ .decode ∨ r.kvLen ≠ r.seqLen then none else do
    let req ← r.req.appendToken env.tokenizer token
    let σ := σ.setReq q { r with req }
    if req.finished then do
      let σ ← σ.cacheFinishedReq env q
      pure (σ.setPhase q .finished)
    else pure (σ.setPhase q .running)

/-- `process_batch_result_decode`. -/
def processDecode (σ : KvSystem κ) (items : List (Nat × Nat)) : Option (KvSystem κ) := do
  let σ := { σ with tokenToKVPool := σ.tokenToKVPool.freeGroupBegin }
  let σ ← items.foldlM (processDecodeReq env) σ
  pure { σ with tokenToKVPool := σ.tokenToKVPool.freeGroupEnd }

/-- One round of `retract_decode`, with its `residual_size`. -/
def retractReq (σ : KvSystem κ) (q residualSize : Nat) : Option (KvSystem κ) := do
  let r := σ.reqs q
  if r.phase ≠ .running ∨ ¬ σ.NoneMatched then none else do
    let tokenIndices := (σ.kvIndices r r.seqLen).drop r.prefixIndices.length
    let σ := { σ with tokenToKVPool := σ.tokenToKVPool.free tokenIndices }
    let σ ← (σ.freeRow r).decLockRef r.lastNode
    let σ ← σ.evict env residualSize
    pure (σ.setReq q { r with
      req := r.req.resetForRetract, prefixIndices := [], phase := .waiting })

/-- `abort_request`. -/
def abort (σ : KvSystem κ) (q : Nat) : KvSystem κ :=
  let r := σ.reqs q
  if σ.numReqs ≤ q then σ
  else if r.phase = .waiting then σ.setPhase q .finished
  else σ.setReq q { r with req := { r.req with toAbort := true } }

end KvSystem

/-- The operations of the scheduler on the memory system. -/
inductive KvOp
  | submit (req : Req)
  | lookup (q : Nat)
  | pass (q : Nat)
  | refuse (q : Nat)
  | admitReq (q : Nat) (truncLen : Option Int)
  | addBeingChunkedReq (q : Nat) (remChunkTokens : Int)
  | prepareForExtend (qs : List Nat)
  | prepareForDecode (qs : List Nat)
  | forwardBatch (qs : List Nat)
  | processPrefill (q token : Nat)
  | processMixed (q token : Nat)
  | processDecode (items : List (Nat × Nat))
  | cacheChunk (q : Nat)
  | retract (q residualSize : Nat)
  | evict (numTokens : Nat)
  | abort (q : Nat)

namespace KvSystem

variable {κ : Type} (env : KvEnv κ)

def step (σ : KvSystem κ) : KvOp → Option (KvSystem κ)
  | .submit req => some (σ.submit req)
  | .lookup q => σ.lookup env q
  | .pass q => σ.pass q
  | .refuse q => σ.refuse q
  | .admitReq q truncLen => σ.admitReq q truncLen
  | .addBeingChunkedReq q remChunkTokens => σ.addBeingChunkedReq q remChunkTokens
  | .prepareForExtend qs => σ.prepareForExtend env qs
  | .prepareForDecode qs => σ.prepareForDecode env qs
  | .forwardBatch qs => σ.forwardBatch env qs
  | .processPrefill q token => σ.processPrefillReq env q token
  | .processMixed q token => σ.processDecodeReq env (q, token)
  | .processDecode items => σ.processDecode env items
  | .cacheChunk q => σ.cacheChunk env q
  | .retract q residualSize => σ.retractReq env q residualSize
  | .evict numTokens => if σ.NoneMatched then σ.evict env numTokens else none
  | .abort q => some (σ.abort q)

def run (σ : KvSystem κ) (ops : List KvOp) : Option (KvSystem κ) := ops.foldlM (step env) σ

end KvSystem

end FastPP
