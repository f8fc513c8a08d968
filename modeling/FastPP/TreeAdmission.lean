import FastPP.Admission
import FastPP.Radix.Cache
import FastPP.Radix.Accounting
import Mathlib.Algebra.Order.Field.Rat
import Mathlib.Tactic.Linarith
import Mathlib.Tactic.Ring

namespace FastPP

/-- What the admission uses of `tree_cache`; a length stands for the matched indices. -/
structure PrefixCache (T Node : Type) where
  disable : Bool
  matchPrefix : T → Nat → List Nat → Option (T × Nat × Node)
  incLockRef : T → Node → Option (T × Int)
  decLockRef : T → Node → Option (T × Int)

/-- `RadixCache`; one that is disabled matches nothing and locks nothing. -/
def radixPrefixCache (disable : Bool) (clock : Nat → Rat) : PrefixCache RadixCache Nat where
  disable
  matchPrefix S _ key :=
    if disable then some (S, 0, 0)
    else (S.matchPrefix clock key).map fun found => (found.1, found.2.1.length, found.2.2)
  incLockRef S node := if disable then some (S, 0) else S.incLockRef node
  decLockRef S node := if disable then some (S, 0) else S.decLockRef node

/-- `ChunkCache`, by the lengths of its entries; its lock operations do nothing. -/
def chunkPrefixCache : PrefixCache (Nat → Nat) Unit where
  disable := true
  matchPrefix entries rid key := some (entries, min (entries rid) key.length, ())
  incLockRef entries _ := some (entries, 0)
  decLockRef entries _ := some (entries, 0)

namespace PrefillAdder

/-- `PrefillAdder.__init__`. -/
def new (cfg : Config) (heap : Nat → Req) (runningReqs : List Nat) (newTokenRatio : Rat)
    (remTotalTokens : Int) (remInputTokens : Nat) (remChunkTokens : Option Nat)
    (mixedWithDecodeTokens : Nat) : PrefillAdder :=
  let future := runningReqs.map fun q =>
    (min (((heap q).samplingParams.maxNewTokens : Int) - (heap q).outputIdsLen)
      cfg.clipMaxNewTokens : Rat) * newTokenRatio
  { runningReqs
    newTokenRatio
    remTotalTokens := (remTotalTokens - mixedWithDecodeTokens : Int) - future.sum
    remInputTokens := remInputTokens - mixedWithDecodeTokens
    remChunkTokens := remChunkTokens.map fun size => (size : Int) - mixedWithDecodeTokens
    curRemTokens := remTotalTokens - mixedWithDecodeTokens
    reqStates := none
    canRunList := []
    newBeingChunkedReq := none }

@[simp] theorem new_canRunList (cfg : Config) (heap : Nat → Req) (runningReqs : List Nat)
    (newTokenRatio : Rat) (remTotalTokens : Int) (remInputTokens : Nat)
    (remChunkTokens : Option Nat) (mixedWithDecodeTokens : Nat) :
    (new cfg heap runningReqs newTokenRatio remTotalTokens remInputTokens remChunkTokens
      mixedWithDecodeTokens).canRunList = [] := rfl

/-- `init` is the constructor over a cache without evictable tokens. -/
theorem init_eq_new {M : Type} (cfg : Config) (S : Sched M) (mixedWithDecodeTokens : Nat) :
    init cfg S mixedWithDecodeTokens = new cfg S.heap (S.allRunningReqs cfg) S.newTokenRatio
      S.availableSize S.maxPrefillTokens S.chunkedPrefillSize mixedWithDecodeTokens := rfl

/-- A request that may not be chunked because of its input logprobs. -/
def needsWhole (req : Req) : Bool :=
  req.returnLogprob && !req.hasNormalizedPromptLogprob &&
    decide (req.logprobStartLen ≠ (req.originInputIds.length : Int) - 1)

/-- `rem_total_tokens += delta`. -/
def addDelta (adder : PrefillAdder) (delta : Int) : PrefillAdder :=
  { adder with remTotalTokens := adder.remTotalTokens + delta }

/-- `add_one_req` over any cache, for a request with its `last_node`; the tokens that its
locks take out of the evictable ones leave the budget while `_lock_node` is on. -/
def addOneReqIn {T Node : Type} (cache : PrefixCache T Node) (cfg : Config) (heap : Nat → Req)
    (adder : PrefillAdder) (tree : T) (q : Nat) (req : Req) (lastNode : Node) :
    Option (AddReqResult × PrefillAdder × Req × T) :=
  if req.samplingParams.ignoreEos && cache.disable then
    let added := adder.addOneReqIgnoreEosSafe cfg heap q req
    some (added.1, added.2.1, added.2.2, tree)
  else
    let totalTokens : Int := req.extendInputLen + clippedMaxNewTokens cfg req
    if adder.remTotalTokens ≤ totalTokens then some (.noToken, adder, req, tree)
    else if adder.remInputTokens < req.extendInputLen ∧ adder.canRunList ≠ [] then
      some (.other, adder, req, tree)
    else do
      let (tree, delta) ← cache.incLockRef tree lastNode
      let adder := adder.addDelta delta
      let whole := adder.remChunkTokens.all (req.extendInputLen ≤ ·) || needsWhole req
      let (result, adder, req, tree) ←
        if adder.remTotalTokens < totalTokens then some (some AddReqResult.noToken, adder, req, tree)
        else if ¬ whole ∧ adder.remChunkTokens.getD 0 = 0 then
          some (some AddReqResult.other, adder, req, tree)
        else do
          let (tree, _) ← cache.incLockRef tree lastNode
          let added := adder.addOrTruncate cfg q req whole
          pure (none, added.2.1, added.2.2, tree)
      let (tree, delta) ← cache.decLockRef tree lastNode
      let adder := adder.addDelta delta
      pure (result.getD adder.budgetState, adder, req, tree)

theorem addDelta_zero (adder : PrefillAdder) : adder.addDelta 0 = adder := by
  unfold addDelta
  rw [Int.cast_zero, add_zero]

/-- What `addOrTruncate` does with a request that it does not refuse. -/
theorem addOrTruncate_cases (cfg : Config) (adder : PrefillAdder) (q : Nat) (req : Req)
    {whole : Bool} (h : ¬ (¬ whole ∧ adder.remChunkTokens.getD 0 = 0)) :
    (adder.addOrTruncate cfg q req whole).1 =
        (adder.addOrTruncate cfg q req whole).2.1.budgetState ∧
      (whole = true ∧ (adder.addOrTruncate cfg q req whole).2 =
          ({ adder with canRunList := adder.canRunList ++ [q] }.prefillOneReq req.extendInputLen
            (clippedMaxNewTokens cfg req), req) ∨
        whole = false ∧ (adder.addOrTruncate cfg q req whole).2 =
          ({ adder with canRunList := adder.canRunList ++ [q]
                        newBeingChunkedReq := some q }.prefillOneReq
              (adder.remChunkTokens.getD 0) 0,
            truncate req (adder.remChunkTokens.getD 0))) := by
  unfold addOrTruncate
  cases whole with
  | true => exact ⟨rfl, .inl ⟨rfl, rfl⟩⟩
  | false =>
    have hne : ¬ adder.remChunkTokens.getD 0 = 0 := fun h0 => h ⟨by simp, h0⟩
    simp only [Bool.false_eq_true, if_false, if_neg hne]
    exact ⟨trivial, .inr ⟨trivial, trivial⟩⟩

/-- Over `ChunkCache` nothing is locked. -/
theorem addOneReqIn_chunk (cfg : Config) (heap : Nat → Req) (adder : PrefillAdder)
    (entries : Nat → Nat) (q : Nat) (req : Req) :
    adder.addOneReqIn chunkPrefixCache cfg heap entries q req () =
      some ((adder.addOneReq cfg heap q req).1, (adder.addOneReq cfg heap q req).2.1,
        (adder.addOneReq cfg heap q req).2.2, entries) := by
  unfold addOneReqIn addOneReq
  have hdisable : chunkPrefixCache.disable = true := rfl
  have hinc : chunkPrefixCache.incLockRef entries () = some (entries, 0) := rfl
  have hdec : chunkPrefixCache.decLockRef entries () = some (entries, 0) := rfl
  by_cases heos : req.samplingParams.ignoreEos
  · simp only [heos, hdisable, Bool.and_self, if_true]
  · simp only [heos, hdisable, Bool.false_and, Bool.false_eq_true, if_false, hinc, hdec,
      addDelta_zero, Option.bind_eq_bind, Option.bind_some]
    split
    next => rfl
    next =>
      split
      next => rfl
      next =>
        split
        next => rfl
        next =>
          have hwhole : (adder.remChunkTokens.all (req.extendInputLen ≤ ·) || needsWhole req) =
              (adder.remChunkTokens.all (req.extendInputLen ≤ ·) ||
                (req.returnLogprob && !req.hasNormalizedPromptLogprob &&
                  decide (req.logprobStartLen ≠ (req.originInputIds.length : Int) - 1))) := rfl
          rw [← hwhole]
          split
          next hrefused =>
            unfold addOrTruncate
            rw [if_neg hrefused.1]
            simp only [hrefused.2, if_true]
            rfl
          next hadmitted =>
            have hresult := (addOrTruncate_cases cfg adder q req hadmitted).1
            simp only [hdec, Option.bind_some, Option.pure_def, Option.getD_none, addDelta_zero]
            rw [← hresult]

end PrefillAdder

/-- The state of `get_new_batch_prefill` while it fills the `can_run_list`. -/
structure Selecting (T Node : Type) where
  tree : T
  heap : Nat → Req
  lastNode : Nat → Node
  adder : PrefillAdder
  beingChunkedReq : Option Nat
  batchIsFull : Bool

namespace Selecting

variable {T Node : Type}

def setReq (s : Selecting T Node) (q : Nat) (req : Req) : Selecting T Node :=
  { s with heap := Function.update s.heap q req }

/-- The continued chunk, if any, comes first. -/
def addCarriedChunk (cfg : Config) (s : Selecting T Node) : Option (Selecting T Node) :=
  match s.beingChunkedReq with
  | none => some s
  | some q => do
    let (adder, req, truncated) ←
      s.adder.addBeingChunkedReq cfg q ((s.heap q).initNextRoundInput none)
    pure { s.setReq q req with adder, beingChunkedReq := if truncated then some q else none }

/-- `req.init_next_round_input(None if prefix_computed else self.tree_cache)`. -/
def initNextRoundInput (cache : PrefixCache T Node) (prefixComputed : Bool)
    (s : Selecting T Node) (q : Nat) : Option (Selecting T Node) :=
  let req := s.heap q
  if prefixComputed then some (s.setReq q (req.initNextRoundInput none))
  else do
    let key := (req.originInputIds ++ req.outputIds).take req.maxPrefixLen
    let (tree, len, node) ← cache.matchPrefix s.tree req.rid key
    pure { s.setReq q (req.initNextRoundInput (some fun _ => len)) with
      tree, lastNode := Function.update s.lastNode q node }

/-- Admitting the request would use too many adapters. -/
def loraFull (cfg : Config) (s : Selecting T Node) (runningReqs : List Nat) (q : Nat) : Prop :=
  cfg.loraPaths ∧ cfg.maxLorasPerBatch <
    ((runningReqs ++ s.adder.canRunList ++ [q]).map fun r => (s.heap r).loraPath).dedup.length

instance (cfg : Config) (s : Selecting T Node) (runningReqs : List Nat) (q : Nat) :
    Decidable (s.loraFull cfg runningReqs q) :=
  inferInstanceAs (Decidable (_ ∧ _))

/-- The admission loop over the waiting queue. -/
def addWaitingReqs (cache : PrefixCache T Node) (cfg : Config) (prefixComputed : Bool)
    (runningReqs : List Nat) : List Nat → Selecting T Node → Option (Selecting T Node)
  | [], s => some s
  | q :: queue, s =>
    if s.loraFull cfg runningReqs q then some { s with batchIsFull := true }
    else if cfg.maxRunningRequests ≤ runningReqs.length + s.adder.canRunList.length then
      some { s with batchIsFull := true }
    else do
      let s ← s.initNextRoundInput cache prefixComputed q
      let (result, adder, req, tree) ←
        s.adder.addOneReqIn cache cfg s.heap s.tree q (s.heap q) (s.lastNode q)
      let s := { s.setReq q req with adder, tree }
      match result with
      | .continue => addWaitingReqs cache cfg prefixComputed runningReqs queue s
      | .noToken => some { s with batchIsFull := true }
      | .other => some s

/-- The chunked request that is recorded in the end; a second one fails the assertion. -/
def recordChunked (s : Selecting T Node) : Option (Selecting T Node) :=
  match s.adder.newBeingChunkedReq with
  | none => some s
  | some q =>
    if s.adder.canRunList = [] then some s
    else if s.beingChunkedReq = none then some { s with beingChunkedReq := some q }
    else none

/-- `get_new_batch_prefill` up to the list of requests that run, after `calc_priority`. -/
def fill (cache : PrefixCache T Node) (cfg : Config) (prefixComputed : Bool)
    (runningReqs waitingQueue : List Nat) (s : Selecting T Node) : Option (Selecting T Node) := do
  let s ← s.addCarriedChunk cfg
  let s ← addWaitingReqs cache cfg prefixComputed runningReqs waitingQueue s
  s.recordChunked

end Selecting

namespace PrefillAdder

open RadixCache (Relocked)

/-- The tokens that an admission takes from the budget: a request that is cut to a chunk does
not decode yet. -/
def admittedTokens (cfg : Config) (req req' : Req) : Int :=
  req'.extendInputLen +
    if req'.extendInputLen = req.extendInputLen then (clippedMaxNewTokens cfg req : Int) else 0

variable {S S' : RadixCache} {tree : Finset Nat} {spell slots : Nat → List Nat}
  {locks : List Nat} {node q : Nat} {adder adder' : PrefillAdder} {req req' : Req}
  {cfg : Config} {heap : Nat → Req} {clock : Nat → Rat} {result : AddReqResult}

/-- The request was refused, and nothing changed. -/
structure Refusal (S S' : RadixCache) (tree : Finset Nat) (spell slots : Nat → List Nat)
    (locks : List Nat) (adder adder' : PrefillAdder) (req req' : Req) (result : AddReqResult) :
    Prop where
  relocked : Relocked S S' tree spell slots locks
  result : result ≠ .continue
  adder : adder' = adder
  req : req' = req

/-- The request was admitted and holds one more lock. -/
structure Admission (S S' : RadixCache) (tree : Finset Nat) (spell slots : Nat → List Nat)
    (locks : List Nat) (adder adder' : PrefillAdder) (cfg : Config) (q node : Nat)
    (req req' : Req) : Prop where
  relocked : Relocked S S' tree spell slots (node :: locks)
  canRunList : adder'.canRunList = adder.canRunList ++ [q]
  budget : adder'.remTotalTokens = adder.remTotalTokens +
    (S'.evictableSize - S.evictableSize : Int) - admittedTokens cfg req req'
  nonneg : 0 ≤ adder'.remTotalTokens

theorem addDelta_addDelta (adder : PrefillAdder) (delta delta' : Int) :
    (adder.addDelta delta).addDelta delta' = adder.addDelta (delta + delta') := by
  unfold addDelta
  simp only [Int.cast_add, add_assoc]

/-- A disabled cache has no node but the root, whose lock is no lock on any other node. -/
theorem relocked_root (h : S.Locked tree spell slots locks) :
    Relocked S S tree spell slots (0 :: locks) := by
  refine ⟨⟨h.shape, ?_, ?_, h.size⟩, fun _ => .rfl, rfl⟩
  · intro l hl
    rcases List.mem_cons.mp hl with e | e
    · exact e ▸ h.shape.root_mem
    · exact h.locks_mem l e
  · intro n hn h0
    have hne : ¬ spell n <+: spell 0 := by
      rw [h.shape.root_spell, List.prefix_nil]
      intro e
      exact h0 (h.shape.spell_inj hn h.shape.root_mem (e.trans h.shape.root_spell.symm))
    rw [h.lockRef n hn h0]
    unfold RadixCache.locksUnder
    rw [List.countP_cons]
    simp [hne]

/-- What the tree has after the locks of an admission, and after those of a refusal. -/
theorem lock_unlock (h : S.Locked tree spell slots locks) (hn : node ∈ tree) {disable : Bool}
    (hroot : disable = true → node = 0) (clock : Nat → Rat) :
    let cache := radixPrefixCache disable clock
    ∃ S₁ delta₁, cache.incLockRef S node = some (S₁, delta₁) ∧
      (∃ S' delta', cache.decLockRef S₁ node = some (S', delta') ∧
        Relocked S S' tree spell slots locks ∧ delta₁ + delta' = 0) ∧
      ∃ S₂ delta₂ S' delta', cache.incLockRef S₁ node = some (S₂, delta₂) ∧
        cache.decLockRef S₂ node = some (S', delta') ∧
        Relocked S S' tree spell slots (node :: locks) ∧
        delta' = 0 ∧ delta₁ = S'.evictableSize - S.evictableSize := by
  intro cache
  have h₀ := Relocked.refl h
  cases disable with
  | true =>
    refine ⟨S, 0, rfl, ⟨S, 0, rfl, h₀, rfl⟩, S, 0, S, 0, rfl, rfl, ?_, rfl, by omega⟩
    rw [hroot rfl]
    exact relocked_root h
  | false =>
    show ∃ S₁ delta₁, S.incLockRef node = some (S₁, delta₁) ∧
      (∃ S' delta', S₁.decLockRef node = some (S', delta') ∧
        Relocked S S' tree spell slots locks ∧ delta₁ + delta' = 0) ∧
      ∃ S₂ delta₂ S' delta', S₁.incLockRef node = some (S₂, delta₂) ∧
        S₂.decLockRef node = some (S', delta') ∧ Relocked S S' tree spell slots (node :: locks) ∧
        delta' = 0 ∧ delta₁ = S'.evictableSize - S.evictableSize
    obtain ⟨S₁, delta₁, hrun₁, h₁, hdelta₁⟩ := h₀.incLockRef hn
    refine ⟨S₁, delta₁, hrun₁, ?_, ?_⟩
    · obtain ⟨S', delta', hrun, h', hdelta⟩ := h₁.decLockRef List.mem_cons_self
      rw [List.erase_cons_head] at h'
      have hsize := h'.evictableSize_eq h
      exact ⟨S', delta', hrun, h', by omega⟩
    · obtain ⟨S₂, delta₂, hrun₂, h₂, hdelta₂⟩ := h₁.incLockRef hn
      obtain ⟨S', delta', hrun, h', hdelta⟩ := h₂.decLockRef List.mem_cons_self
      rw [List.erase_cons_head] at h'
      -- the second lock on a path leaves nothing to take out
      have hsame : ∀ {T}, Relocked S T tree spell slots (node :: locks) →
          S₂.evictableSize = T.evictableSize := by
        intro T hT
        apply hT.locked.size_congr h₂.locked
        · intro n
          exact (hT.same n).symm.trans (h₂.same n)
        · exact RadixCache.locksUnder_twice spell locks node
      have hsize₁ := hsame h₁
      have hsize' := hsame h'
      exact ⟨S₂, delta₂, S', delta', hrun₂, hrun, h', by omega, by omega⟩

/-- What is added within the budget is an admission. -/
theorem admission_of_fits {delta : Int}
    (hadmitted : Relocked S S' tree spell slots (node :: locks))
    (hdelta : delta = S'.evictableSize - S.evictableSize)
    (hroom : ¬ (adder.addDelta delta).remTotalTokens <
      ((req.extendInputLen + clippedMaxNewTokens cfg req : Int) : Rat))
    (hfits : ¬ (¬ ((adder.addDelta delta).remChunkTokens.all (req.extendInputLen ≤ ·) ||
      needsWhole req) ∧ (adder.addDelta delta).remChunkTokens.getD 0 = 0)) :
    let added := (adder.addDelta delta).addOrTruncate cfg q req
      ((adder.addDelta delta).remChunkTokens.all (req.extendInputLen ≤ ·) || needsWhole req)
    Admission S S' tree spell slots locks adder added.2.1 cfg q node req added.2.2 := by
  have hroom' : ((req.extendInputLen + clippedMaxNewTokens cfg req : Int) : Rat) ≤
      adder.remTotalTokens + delta := le_of_not_gt hroom
  obtain ⟨_, ⟨_, hadd⟩ | ⟨hcut, hadd⟩⟩ := addOrTruncate_cases cfg (adder.addDelta delta) q req hfits
  · intro added
    have hadded : added.2 = _ := hadd
    rw [hadded]
    have hcost : admittedTokens cfg req req = req.extendInputLen + clippedMaxNewTokens cfg req := by
      unfold admittedTokens
      rw [if_pos rfl]
    refine ⟨hadmitted, rfl, ?_, ?_⟩
    · rw [hcost, ← hdelta]
      rfl
    · show 0 ≤ adder.remTotalTokens + delta - _
      push_cast at hroom' ⊢
      linarith
  · intro added
    have hadded : added.2 = _ := hadd
    rw [hadded]
    -- the chunk that remains is shorter than the request
    have hlt : (adder.addDelta delta).remChunkTokens.getD 0 < req.extendInputLen := by
      rw [Bool.or_eq_false_iff] at hcut
      cases hrem : (adder.addDelta delta).remChunkTokens with
      | none => simp [hrem] at hcut
      | some rem =>
        have hcut' := hcut.1
        rw [hrem] at hcut'
        simpa using hcut'
    have hcost : admittedTokens cfg req
        (truncate req ((adder.addDelta delta).remChunkTokens.getD 0)) =
          (adder.addDelta delta).remChunkTokens.getD 0 := by
      unfold admittedTokens
      show (adder.addDelta delta).remChunkTokens.getD 0 + _ = _
      rw [if_neg (by show ¬ (adder.addDelta delta).remChunkTokens.getD 0 = _; omega), add_zero]
    have hlt' : (((adder.addDelta delta).remChunkTokens.getD 0 : Int) : Rat) ≤
        req.extendInputLen := by
      exact_mod_cast hlt.le
    refine ⟨hadmitted, rfl, ?_, ?_⟩
    · rw [hcost, ← hdelta]
      show adder.remTotalTokens + delta - _ = _
      push_cast
      ring
    · show 0 ≤ adder.remTotalTokens + delta - _
      push_cast at hroom' ⊢
      have hclip : (0 : Rat) ≤ clippedMaxNewTokens cfg req := Nat.cast_nonneg _
      linarith

/-- `add_one_req` over the radix cache returns, and refuses the request or admits it. -/
theorem addOneReqIn_radix (h : S.Locked tree spell slots locks) (hn : node ∈ tree)
    {disable : Bool} (hroot : disable = true → node = 0) (clock : Nat → Rat) (cfg : Config)
    (heap : Nat → Req) (adder : PrefillAdder) (q : Nat) {req : Req}
    (heos : req.samplingParams.ignoreEos = false) :
    ∃ result adder' req' S',
      adder.addOneReqIn (radixPrefixCache disable clock) cfg heap S q req node =
        some (result, adder', req', S') ∧
      (Refusal S S' tree spell slots locks adder adder' req req' result ∨
        Admission S S' tree spell slots locks adder adder' cfg q node req req') := by
  obtain ⟨S₁, delta₁, hlock, ⟨Sr, deltar, hunlock, hrelocked, hzero⟩,
    S₂, delta₂, Sa, deltaa, hlock₂, hunlock₂, hadmitted, hnone, hdelta⟩ := lock_unlock h hn hroot clock
  have h₀ := Relocked.refl h
  unfold addOneReqIn
  simp only [heos, Bool.false_and, Bool.false_eq_true, if_false, hlock, Option.bind_eq_bind,
    Option.bind_some]
  split
  next => exact ⟨_, _, _, _, rfl, .inl ⟨h₀, by decide, rfl, rfl⟩⟩
  next =>
    split
    next => exact ⟨_, _, _, _, rfl, .inl ⟨h₀, by decide, rfl, rfl⟩⟩
    next =>
      have hback : (adder.addDelta delta₁).addDelta deltar = adder := by
        rw [addDelta_addDelta, hzero, addDelta_zero]
      split
      next =>
        refine ⟨_, _, _, _, by simp only [hunlock, Option.bind_some]; rfl, .inl ?_⟩
        exact ⟨hrelocked, AddReqResult.noConfusion, hback, rfl⟩
      next hroom =>
        split
        next =>
          refine ⟨_, _, _, _, by simp only [hunlock, Option.bind_some]; rfl, .inl ?_⟩
          exact ⟨hrelocked, AddReqResult.noConfusion, hback, rfl⟩
        next hfits =>
          refine ⟨_, _, _, _, by
            simp only [hlock₂, hunlock₂, Option.pure_def, Option.bind_some]; rfl, .inr ?_⟩
          rw [hnone, addDelta_zero]
          exact admission_of_fits hadmitted hdelta hroom hfits

end PrefillAdder

end FastPP
