import FastPP.TreeAdmission
import FastPP.Selection

namespace FastPP

/-- `cache` can be used from every good tree on: nothing fails, the nodes that it returns can
be locked, and a match is no longer than its key. -/
structure PrefixCache.Usable {T Node : Type} (cache : PrefixCache T Node) (good : T → Prop)
    (valid : T → Node → Prop) : Prop where
  matchPrefix : ∀ t rid key, good t → ∃ t' len node,
    cache.matchPrefix t rid key = some (t', len, node) ∧ good t' ∧ len ≤ key.length ∧
      valid t' node ∧ ∀ n, valid t n → valid t' n
  lock : ∀ t node, good t → valid t node → ∃ t₁ delta₁,
    cache.incLockRef t node = some (t₁, delta₁) ∧
      (∃ t' delta', cache.decLockRef t₁ node = some (t', delta') ∧ good t' ∧
        ∀ n, valid t n → valid t' n) ∧
      ∃ t₂ delta₂ t' delta', cache.incLockRef t₁ node = some (t₂, delta₂) ∧
        cache.decLockRef t₂ node = some (t', delta') ∧ good t' ∧ ∀ n, valid t n → valid t' n

namespace PrefillAdder

/-- `add_one_req` may admit a part of the request. -/
def mayBeChunked (disable : Bool) (req : Req) : Bool :=
  !needsWhole req || (req.samplingParams.ignoreEos && disable)

/-- What a call of `add_one_req` does with the list and the chunk budget. -/
inductive Outcome (disable : Bool) (adder adder' : PrefillAdder) (q : Nat) (req req' : Req)
    (result : AddReqResult) : Prop
  | refused (can : adder'.canRunList = adder.canRunList)
      (new : adder'.newBeingChunkedReq = adder.newBeingChunkedReq)
      (rem : adder'.remChunkTokens = adder.remChunkTokens) (same : req' = req)
      (stop : result ≠ .continue)
  | whole (fits : adder.remChunkTokens.all (req.extendInputLen ≤ ·) = true ∨
        mayBeChunked disable req = false)
      (can : adder'.canRunList = adder.canRunList ++ [q])
      (new : adder'.newBeingChunkedReq = adder.newBeingChunkedReq)
      (rem : adder'.remChunkTokens = adder.remChunkTokens.map (· - req.extendInputLen))
      (same : req' = req) (room : result = .continue → adder'.remChunkTokens.all (0 < ·) = true)
  | cut {size : Int} (rem : adder.remChunkTokens = some size) (ne : size ≠ 0)
      (lt : size < req.extendInputLen) (can : adder'.canRunList = adder.canRunList ++ [q])
      (new : adder'.newBeingChunkedReq = some q) (rem' : adder'.remChunkTokens = some 0)
      (short : req' = truncate req size)
      (room : result = .continue → adder'.remChunkTokens.all (0 < ·) = true)

variable {T Node : Type} {cache : PrefixCache T Node} {good : T → Prop}
  {valid : T → Node → Prop} {disable : Bool} {adder adder' : PrefillAdder} {q : Nat}
  {req req' : Req} {result : AddReqResult} {cfg : Config}

theorem budgetState_room (h : adder.budgetState = .continue) :
    adder.remChunkTokens.all (0 < ·) = true := by
  unfold budgetState at h
  split at h
  next => cases h
  next =>
    split at h
    next => cases h
    next hrem =>
      cases hsize : adder.remChunkTokens with
      | none => rfl
      | some size =>
        rw [hsize] at hrem
        simp only [Option.any_some, decide_eq_true_eq, not_or, not_le] at hrem
        simp [hrem.2]

theorem Outcome.listed (h : Outcome disable adder adder' q req req' result) :
    adder'.canRunList = adder.canRunList ∨ adder'.canRunList = adder.canRunList ++ [q] := by
  cases h with
  | refused can => exact .inl can
  | whole _ can => exact .inr can
  | cut _ _ _ can => exact .inr can

theorem Outcome.prepared (h : Outcome disable adder adder' q req req' result) :
    req.Prepared req' := by
  cases h with
  | refused _ _ _ same => exact same ▸ .refl _
  | whole _ _ _ _ same => exact same ▸ .refl _
  | cut _ _ _ _ _ _ short => exact short ▸ prepared_truncate _ _

/-- The locks move `rem_total_tokens` only, and the result is that of the budget after them. -/
theorem Outcome.addDelta {delta delta' : Int}
    (h : Outcome disable (adder.addDelta delta) adder' q req req' result)
    (hcan : adder'.canRunList ≠ adder.canRunList) :
    Outcome disable adder (adder'.addDelta delta') q req req'
      (adder'.addDelta delta').budgetState := by
  cases h with
  | refused can => exact absurd can hcan
  | whole fits can new rem same => exact .whole fits can new rem same budgetState_room
  | cut rem ne lt can new rem' short => exact .cut rem ne lt can new rem' short budgetState_room

/-- The end of an admission, when it is not refused for an empty chunk. -/
theorem addOrTruncate_outcome (disable : Bool) (cfg : Config) (adder : PrefillAdder) (q : Nat)
    (req : Req) (whole : Bool)
    (hwhole : whole = true → adder.remChunkTokens.all (req.extendInputLen ≤ ·) = true ∨
      mayBeChunked disable req = false)
    (hcut : whole = false → adder.remChunkTokens.all (req.extendInputLen ≤ ·) = false) :
    Outcome disable adder (adder.addOrTruncate cfg q req whole).2.1 q req
      (adder.addOrTruncate cfg q req whole).2.2 (adder.addOrTruncate cfg q req whole).1 := by
  by_cases hempty : ¬ whole ∧ adder.remChunkTokens.getD 0 = 0
  · unfold addOrTruncate
    rw [if_neg hempty.1]
    simp only [hempty.2, if_true]
    exact .refused rfl rfl rfl rfl AddReqResult.noConfusion
  · obtain ⟨hresult, ⟨hw, hadd⟩ | ⟨hw, hadd⟩⟩ := addOrTruncate_cases cfg adder q req hempty
    · rw [hresult, hadd]
      exact .whole (hwhole hw) rfl rfl rfl rfl budgetState_room
    · rw [hresult, hadd]
      have hall := hcut hw
      cases hsize : adder.remChunkTokens with
      | none => simp [hsize] at hall
      | some size =>
        rw [hsize] at hall
        have hlt : size < req.extendInputLen := by simpa using hall
        have hne : size ≠ 0 := by
          intro h0
          exact hempty ⟨by simp [hw], by rw [hsize]; exact h0⟩
        exact .cut hsize hne hlt rfl rfl (by show (some size).map (· - size) = some 0; simp) rfl
          budgetState_room

theorem addOrTruncate_admits (cfg : Config) (adder : PrefillAdder) (q : Nat) (req : Req)
    {whole : Bool} (h : ¬ (¬ whole ∧ adder.remChunkTokens.getD 0 = 0)) :
    (adder.addOrTruncate cfg q req whole).2.1.canRunList ≠ adder.canRunList := by
  obtain ⟨_, ⟨_, hadd⟩ | ⟨_, hadd⟩⟩ := addOrTruncate_cases cfg adder q req h
  · rw [hadd]
    show adder.canRunList ++ [q] ≠ _
    simp
  · rw [hadd]
    show adder.canRunList ++ [q] ≠ _
    simp

theorem addOneReqIgnoreEosSafe_outcome (disable : Bool) (cfg : Config) (heap : Nat → Req)
    (adder : PrefillAdder) (q : Nat) (req : Req) :
    Outcome disable adder (adder.addOneReqIgnoreEosSafe cfg heap q req).2.1 q req
      (adder.addOneReqIgnoreEosSafe cfg heap q req).2.2
      (adder.addOneReqIgnoreEosSafe cfg heap q req).1 := by
  unfold addOneReqIgnoreEosSafe
  dsimp only
  split
  next => exact .refused rfl rfl rfl rfl AddReqResult.noConfusion
  next =>
    have h := addOrTruncate_outcome disable cfg
      { adder with reqStates := some (adder.nextReqStates cfg heap req) } q req
      (adder.remChunkTokens.all (req.extendInputLen ≤ ·)) .inl id
    cases h with
    | refused can new rem same stop => exact .refused can new rem same stop
    | whole fits can new rem same room => exact .whole fits can new rem same room
    | cut rem ne lt can new rem' short room => exact .cut rem ne lt can new rem' short room

/-- `add_one_req` returns, with one of the outcomes. -/
theorem addOneReqIn_outcome (hcache : cache.Usable good valid) {t : T} {node : Node}
    (ht : good t) (hn : valid t node) (cfg : Config) (heap : Nat → Req) (adder : PrefillAdder)
    (q : Nat) (req : Req) :
    ∃ result adder' req' t',
      adder.addOneReqIn cache cfg heap t q req node = some (result, adder', req', t') ∧
        good t' ∧ (∀ n, valid t n → valid t' n) ∧
        Outcome cache.disable adder adder' q req req' result := by
  unfold addOneReqIn
  split
  next =>
    exact ⟨_, _, _, _, rfl, ht, fun _ hn => hn,
      addOneReqIgnoreEosSafe_outcome cache.disable cfg heap adder q req⟩
  next heos =>
    obtain ⟨t₁, delta₁, hlock, ⟨tr, deltar, hunlock, hgoodr, hvalidr⟩,
      t₂, delta₂, ta, deltaa, hlock₂, hunlock₂, hgood, hvalid⟩ := hcache.lock t node ht hn
    simp only [hlock, Option.bind_eq_bind, Option.bind_some]
    split
    next =>
      exact ⟨_, _, _, _, rfl, ht, fun _ hn => hn, .refused rfl rfl rfl rfl AddReqResult.noConfusion⟩
    next =>
      split
      next =>
        exact ⟨_, _, _, _, rfl, ht, fun _ hn => hn,
          .refused rfl rfl rfl rfl AddReqResult.noConfusion⟩
      next =>
        split
        next =>
          refine ⟨_, _, _, _, by simp only [hunlock, Option.bind_some]; rfl, hgoodr, hvalidr, ?_⟩
          exact .refused rfl rfl rfl rfl AddReqResult.noConfusion
        next =>
          split
          next =>
            refine ⟨_, _, _, _, by simp only [hunlock, Option.bind_some]; rfl, hgoodr, hvalidr, ?_⟩
            exact .refused rfl rfl rfl rfl AddReqResult.noConfusion
          next hfits =>
            refine ⟨_, _, _, _, by
              simp only [hlock₂, hunlock₂, Option.pure_def, Option.bind_some]; rfl, hgood, hvalid, ?_⟩
            have h := addOrTruncate_outcome cache.disable cfg (adder.addDelta delta₁) q req
              ((adder.addDelta delta₁).remChunkTokens.all (req.extendInputLen ≤ ·) ||
                needsWhole req) ?_ ?_
            · exact h.addDelta (addOrTruncate_admits cfg _ q req hfits)
            · intro hwhole
              rcases Bool.or_eq_true_iff.mp hwhole with e | e
              · exact .inl e
              · right
                unfold mayBeChunked
                rw [e, Bool.eq_false_iff.mpr heos]
                rfl
            · intro hcut
              exact (Bool.or_eq_false_iff.mp hcut).1

end PrefillAdder

end FastPP
