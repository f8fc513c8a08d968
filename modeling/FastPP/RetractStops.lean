import FastPP.Memory
import FastPP.Radix.Cache
import Mathlib.Data.List.Basic

namespace FastPP

/-- `tree_cache`: the entries of a `ChunkCache` by `rid`, or a `RadixCache`. -/
inductive TreeCache
  | chunk (entries : Nat → Option (List Nat))
  | radix (disable : Bool) (tree : RadixCache)

/-- What the retraction reads and changes of the memory. -/
structure DecodeMemory where
  reqToTokenPool : ReqToTokenPool
  tokenToKVPool : TokenToKVPool
  treeCache : TreeCache

/-- What the retraction reads of a request and of its row of the batch; `lastNode` is not
used for a `ChunkCache`. -/
structure DecodeReq where
  rid : Nat
  reqPoolIdx : Nat
  seqLen : Nat
  prefixLen : Nat
  lastNode : Nat
  outputIdsLen : Nat
  originInputIdsLen : Nat

/-- How the loop of `retract_decode` ends: with the retracted requests and those that stay, or
in the failed assertion. -/
inductive RetractEnd
  | kept (m : DecodeMemory) (retracted kept : List DecodeReq)
  | noSpace (m : DecodeMemory)

namespace DecodeMemory

def availableSize (m : DecodeMemory) : Nat := m.tokenToKVPool.availableSize

/-- `tree_cache.evictable_size()`. -/
def evictableSize (m : DecodeMemory) : Int :=
  match m.treeCache with
  | .chunk _ => 0
  | .radix disable tree => if disable then 0 else tree.evictableSize

/-- `tree_cache.evict(num_tokens, token_to_kv_pool.free)`. -/
def evict (heapq : Heapq) (m : DecodeMemory) (numTokens : Nat) : Option DecodeMemory :=
  match m.treeCache with
  | .chunk _ => some m
  | .radix disable tree =>
    if disable then some m
    else do
      let (tree, evicted) ← tree.evict heapq numTokens
      pure { m with
        treeCache := .radix disable tree
        tokenToKVPool := evicted.foldl TokenToKVPool.free m.tokenToKVPool }

/-- `check_decode_mem` for a batch of `bs` requests. -/
def checkDecodeMem (heapq : Heapq) (m : DecodeMemory) (bs : Nat) (availableSize : Int) :
    Option (Bool × DecodeMemory) :=
  if bs ≤ availableSize then some (true, m)
  else do
    let m ← m.evict heapq bs
    pure (decide (bs ≤ availableSize), m)

/-- The frees of one retraction. -/
def freeReq (m : DecodeMemory) (req : DecodeReq) (tokenIndices : List Nat) : DecodeMemory :=
  { m with
    tokenToKVPool := m.tokenToKVPool.free tokenIndices
    reqToTokenPool := m.reqToTokenPool.free req.reqPoolIdx }

/-- `tree_cache.dec_lock_ref(req.last_node)`. -/
def unlock (disable : Bool) (tree : RadixCache) (req : DecodeReq) : Option RadixCache :=
  if disable then some tree else (tree.decLockRef req.lastNode).map Prod.fst

/-- One round of the loop of `retract_decode`, with the number of requests that remain. -/
def retractReq (heapq : Heapq) (retractDecodeSteps : Nat) (m : DecodeMemory) (req : DecodeReq)
    (remaining : Nat) (availableSize : Int) : Option (DecodeMemory × Int) :=
  match m.treeCache with
  | .chunk entries => do
    let tokenIndices := m.reqToTokenPool.read req.reqPoolIdx req.seqLen
    let _ ← entries req.rid
    pure ({ m.freeReq req tokenIndices with
      treeCache := .chunk (Function.update entries req.rid none) },
      availableSize + tokenIndices.length)
  | .radix disable tree => do
    let tokenIndices := (m.reqToTokenPool.read req.reqPoolIdx req.seqLen).drop req.prefixLen
    let m := m.freeReq req tokenIndices
    let tree ← unlock disable tree req
    let residualSize : Int := (remaining * retractDecodeSteps : Nat) - m.availableSize
    let m ← { m with treeCache := .radix disable tree }.evict heapq (max 0 residualSize).toNat
    pure (m, availableSize)

end DecodeMemory

/-- One more request was retracted before. -/
def RetractEnd.after (req : DecodeReq) : RetractEnd → RetractEnd
  | .kept m retracted rest => .kept m (req :: retracted) rest
  | .noSpace m => .noSpace m

/-- The free slots at the failed assertion. -/
def RetractEnd.slotsLeft : RetractEnd → Option Nat
  | .kept _ _ _ => none
  | .noSpace m => some m.availableSize

/-- The sort key of `retract_decode`, in the order in which requests are popped. -/
def DecodeReq.popsBefore (a b : DecodeReq) : Prop :=
  a.outputIdsLen < b.outputIdsLen ∨
    a.outputIdsLen = b.outputIdsLen ∧ b.originInputIdsLen ≤ a.originInputIdsLen

instance (a b : DecodeReq) : Decidable (a.popsBefore b) := inferInstanceAs (Decidable (_ ∨ _))

/-- `sorted_indices`, from the one that is popped first. -/
def popOrder (reqs : List DecodeReq) : List DecodeReq :=
  (reqs.mergeSort fun a b => decide (b.popsBefore a)).reverse

/-- The loop of `retract_decode`; to pop from an empty list is an error. -/
def retractFrom (heapq : Heapq) (retractDecodeSteps : Nat) :
    List DecodeReq → Bool → Int → DecodeMemory → Option RetractEnd
  | [], firstIter, availableSize, m =>
    if availableSize < 0 ∨ firstIter then none else some (.kept m [] [])
  | req :: order, firstIter, availableSize, m =>
    if availableSize < ((order.length + 1) * retractDecodeSteps : Nat) ∨ firstIter then
      if order = [] then
        if 0 < availableSize then some (.kept m [] [req]) else some (.noSpace m)
      else do
        let (m, availableSize) ← m.retractReq heapq retractDecodeSteps req order.length availableSize
        let rest ← retractFrom heapq retractDecodeSteps order false availableSize m
        pure (rest.after req)
    else some (.kept m [] (req :: order))

/-- The loop of `retract_decode` on the requests of a batch. -/
def retractDecodeLoop (heapq : Heapq) (retractDecodeSteps : Nat) (m : DecodeMemory)
    (reqs : List DecodeReq) (availableSize : Int) : Option RetractEnd :=
  retractFrom heapq retractDecodeSteps (popOrder reqs) true availableSize m

namespace DecodeMemory

variable {heapq : Heapq} {steps k : Nat} {order : List DecodeReq} {m m' : DecodeMemory}
  {req : DecodeReq} {available available' : Int} {remaining : Nat}

/-- The first `k` requests of the order are retracted. -/
def retractFirst (heapq : Heapq) (retractDecodeSteps : Nat) :
    Nat → List DecodeReq → DecodeMemory → Option DecodeMemory
  | 0, _, m => some m
  | _ + 1, [], _ => none
  | k + 1, req :: order, m => do
    let (m, _) ← m.retractReq heapq retractDecodeSteps req order.length 0
    retractFirst heapq retractDecodeSteps k order m

/-- The available size is only added to. -/
theorem retractReq_available (h : m.retractReq heapq steps req remaining available =
    some (m', available')) :
    m.retractReq heapq steps req remaining 0 = some (m', available' - available) := by
  unfold retractReq at h ⊢
  split at h
  next entries =>
    obtain ⟨entry, hentry, h⟩ := Option.bind_eq_some_iff.mp h
    obtain ⟨rfl, rfl⟩ := Prod.mk.inj (Option.some.inj h)
    rw [hentry]
    simp
  next disable tree =>
    obtain ⟨tree', htree, h⟩ := Option.bind_eq_some_iff.mp h
    obtain ⟨m₁, hevict, h⟩ := Option.bind_eq_some_iff.mp h
    obtain ⟨rfl, rfl⟩ := Prod.mk.inj (Option.some.inj h)
    simp only [htree, hevict, Option.bind_eq_bind, Option.bind_some, sub_self]
    rfl

theorem retractFirst_succ (heapq : Heapq) (steps j : Nat) (order : List DecodeReq)
    (m : DecodeMemory) :
    retractFirst heapq steps (j + 1) order m = (retractFirst heapq steps j order m).bind fun m₁ =>
      (order[j]?).bind fun req =>
        (m₁.retractReq heapq steps req (order.length - j - 1) 0).map Prod.fst := by
  induction j generalizing order m with
  | zero =>
    cases order with
    | nil => rfl
    | cons req order =>
      show (m.retractReq heapq steps req order.length 0).bind _ =
        (m.retractReq heapq steps req ((req :: order).length - 0 - 1) 0).map Prod.fst
      rw [Option.map_eq_bind]
      rfl
  | succ j ih =>
    cases order with
    | nil => rfl
    | cons req order =>
      have hunfold : ∀ k, retractFirst heapq steps (k + 1) (req :: order) m =
          (m.retractReq heapq steps req order.length 0).bind fun r =>
            retractFirst heapq steps k order r.1 := fun _ => rfl
      rw [hunfold, hunfold, Option.bind_assoc]
      congr 1
      funext r
      rw [ih]
      simp only [List.getElem?_cons_succ, List.length_cons, Nat.add_sub_add_right]

/-- The loop pops the first `k` requests, as long as its own count of the slots is too small;
the last request is not popped. -/
structure Pops (heapq : Heapq) (steps : Nat) (order : List DecodeReq) (first : Bool)
    (avail : Nat → Int) (m : DecodeMemory) (k : Nat) (m' : DecodeMemory) : Prop where
  lt : k < order.length
  run : retractFirst heapq steps k order m = some m'
  short : ∀ j < k, avail j < ((order.length - j) * steps : Nat) ∨ first = true ∧ j = 0

/-- The end of the loop after `k` requests. -/
def endAfter (steps : Nat) (order : List DecodeReq) (first : Bool) (available : Int) (k : Nat)
    (m' : DecodeMemory) : RetractEnd :=
  if (available < ((order.length - k) * steps : Nat) ∨ first = true ∧ k = 0) ∧ available ≤ 0 then
    .noSpace m'
  else .kept m' (order.take k) (order.drop k)

theorem retractFrom_pops (heapq : Heapq) (steps : Nat) {first : Bool} {avail : Nat → Int}
    (hne : order ≠ [])
    (hrun : ∀ j m₁ req, j + 1 < order.length → retractFirst heapq steps j order m = some m₁ →
      order[j]? = some req → ∃ m₂,
        m₁.retractReq heapq steps req (order.length - j - 1) (avail j) = some (m₂, avail (j + 1))) :
    ∃ k m', Pops heapq steps order first avail m k m' ∧
      retractFrom heapq steps order first (avail 0) m =
        some (endAfter steps order first (avail k) k m') ∧
      (k + 1 = order.length ∨
        ¬ (avail k < ((order.length - k) * steps : Nat) ∨ first = true ∧ k = 0)) := by
  induction order generalizing first avail m with
  | nil => exact absurd rfl hne
  | cons req order ih =>
    have hlen : (req :: order).length - 0 = order.length + 1 := rfl
    unfold retractFrom
    split
    next hgo =>
      split
      next hlast =>
        refine ⟨0, m, ⟨Nat.succ_pos _, rfl, fun j hj => absurd hj (Nat.not_lt_zero _)⟩, ?_, .inl ?_⟩
        · unfold endAfter
          rw [hlen]
          split
          next hpos =>
            rw [if_neg (by omega), hlast]
            rfl
          next hnone =>
            have hshort : avail 0 < ((order.length + 1) * steps : Nat) ∨ first = true ∧ 0 = 0 := by
              rcases hgo with e | e
              · exact .inl e
              · exact .inr ⟨e, rfl⟩
            rw [if_pos ⟨hshort, by omega⟩]
        · rw [hlast]
          rfl
      next hrest =>
        have hpos := List.length_pos_iff.mpr hrest
        obtain ⟨m₁, hreq⟩ := hrun 0 m req (by simp only [List.length_cons]; omega) rfl rfl
        simp only [List.length_cons, Nat.sub_zero, Nat.add_sub_cancel] at hreq
        have hfirst := retractReq_available hreq
        have hstep : ∀ j, retractFirst heapq steps (j + 1) (req :: order) m =
            retractFirst heapq steps j order m₁ := by
          intro j
          rw [retractFirst]
          simp only [hfirst, Option.bind_eq_bind, Option.bind_some]
        obtain ⟨k, m', hpops, hloop, hstop⟩ := @ih m₁ false (fun j => avail (j + 1)) hrest (by
          intro j m₂ r hj hm₂ hr
          obtain ⟨m₃, hm₃⟩ := hrun (j + 1) m₂ r (by simp only [List.length_cons]; omega)
            (by rw [hstep]; exact hm₂) hr
          refine ⟨m₃, ?_⟩
          rw [← hm₃]
          congr 1
          simp only [List.length_cons]
          omega)
        have hsub : ∀ j, (req :: order).length - (j + 1) = order.length - j := by
          intro j
          simp only [List.length_cons]
          omega
        refine ⟨k + 1, m', ⟨?_, ?_, ?_⟩, ?_, ?_⟩
        · simp only [List.length_cons]
          have hlt := hpops.lt
          omega
        · rw [hstep]
          exact hpops.run
        · intro j hj
          cases j with
          | zero =>
            rcases hgo with e | e
            · exact .inl e
            · exact .inr ⟨e, rfl⟩
          | succ j =>
            rw [hsub]
            rcases hpops.short j (by omega) with e | e
            · exact .inl e
            · cases e.1
        · simp only [hreq, hloop, Option.bind_eq_bind, Option.bind_some, Option.pure_def]
          congr 1
          unfold endAfter
          rw [hsub]
          simp only [Bool.false_eq_true, false_and, or_false, Nat.add_one_ne_zero, and_false]
          split
          next => rfl
          next => rfl
        · rw [hsub]
          rcases hstop with e | e
          · left
            simp only [List.length_cons]
            omega
          · right
            simpa using e
    next hstay =>
      refine ⟨0, m, ⟨Nat.succ_pos _, rfl, fun j hj => absurd hj (Nat.not_lt_zero _)⟩, ?_, .inr ?_⟩
      · unfold endAfter
        rw [hlen, if_neg]
        · rfl
        · rintro ⟨e | e, _⟩
          · exact hstay (.inl e)
          · exact hstay (.inr e.1)
      · rw [hlen]
        rintro (e | e)
        · exact hstay (.inl e)
        · exact hstay (.inr e.1)

end DecodeMemory

end FastPP
