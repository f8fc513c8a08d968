import FastPP.Batch
import Mathlib.Tactic.Tauto

namespace FastPP

/-- The three stop sets a sampled token is compared with. -/
def IsStop (tokenizer : Option Tokenizer) (params : SamplingParams) (token : Nat) : Prop :=
  token ∈ params.stopTokenIds ∨
    ∃ tok, tokenizer = some tok ∧
      (tok.eosTokenId = some token ∨ token ∈ tok.additionalStopTokenIds)

theorem matchedEos_iff {tokenizer : Option Tokenizer} {params : SamplingParams} {token : Nat} :
    matchedEos tokenizer params token = true ↔ IsStop tokenizer params token := by
  cases tokenizer with
  | none => simp [matchedEos, IsStop]
  | some tok => simp [matchedEos, IsStop, eq_comm (a := some token)]

/-- A request as the scheduler receives it, without stop strings. `delayed` is
zero because the overlap loop, the only one that delays, asserts `pp_size <= 1`. -/
structure Req.Fresh (req : Req) : Prop where
  unfinished : req.finishedReason = none
  notAborted : req.toAbort = false
  notDelayed : req.delayed = 0
  noOutput : req.outputIds = []
  noStopStrs : req.samplingParams.stopStrs = []

/-- The request after the first `n` sampled tokens `t 1, ..., t n`. -/
def Req.generate (tokenizer : Option Tokenizer) (req : Req) (t : Nat → Nat) : Nat → Option Req
  | 0 => some req
  | n + 1 => do
    let r ← req.generate tokenizer t n
    r.appendToken tokenizer (t (n + 1))

/-- The condition under which the `n`-th sampled token ends the generation. -/
def StopDue (tokenizer : Option Tokenizer) (params : SamplingParams) (t : Nat → Nat) (n : Nat) :
    Prop :=
  params.maxNewTokens ≤ n ∨ (params.ignoreEos = false ∧ IsStop tokenizer params (t n))

/-- The generation is finished from the first `n` at which a stop is due, and a
stop before the length limit reports the last appended token. -/
def FinishesExactly (tokenizer : Option Tokenizer) (req : Req) (t : Nat → Nat) : Prop :=
  ∀ n, ∃ r, req.generate tokenizer t n = some r ∧
    (r.finished = true ↔ ∃ m, 1 ≤ m ∧ m ≤ n ∧ StopDue tokenizer req.samplingParams t m) ∧
    (1 ≤ n → StopDue tokenizer req.samplingParams t n →
      (∀ k, 1 ≤ k → k < n → ¬ StopDue tokenizer req.samplingParams t k) →
      n < req.samplingParams.maxNewTokens → r.finishedReason = some (.matchedToken (t n)))

/-- The finish reason after one more check of an output of length `len` whose
first token is `first`. -/
def nextReason (tokenizer : Option Tokenizer) (params : SamplingParams) (len first : Nat) :
    Option FinishReason → Option FinishReason
  | some reason => some reason
  | none =>
    if params.maxNewTokens ≤ len then some (.length params.maxNewTokens)
    else if matchedEos tokenizer params first && !params.ignoreEos then
      some (.matchedToken first)
    else none

theorem checkFinished_eq (tokenizer : Option Tokenizer) (req : Req) {first : Nat}
    (habort : req.toAbort = false) (hstrs : req.samplingParams.stopStrs = [])
    (hfirst : req.outputIds[0]? = some first) :
    req.checkFinished tokenizer = some { req with
      delayed := if req.finishedReason.isSome then req.delayed - 1 else req.delayed
      finishedReason := nextReason tokenizer req.samplingParams req.outputIds.length first
        req.finishedReason } := by
  unfold Req.checkFinished
  cases hreason : req.finishedReason with
  | some reason => simp [nextReason]
  | none =>
    simp only [Option.isSome_none, Bool.false_eq_true, if_false, habort, hfirst, nextReason]
    split
    next => rfl
    next =>
      simp only [Option.bind_eq_bind, Option.bind_some, checkStopStrs, hstrs, if_true]
      split
      next => rfl
      next => rw [← hreason, ← habort]

/-- The finish reason recorded after `n` tokens: every check looks at the first
token. -/
def recordedReason (tokenizer : Option Tokenizer) (params : SamplingParams) (t : Nat → Nat) :
    Nat → Option FinishReason
  | 0 => none
  | n + 1 => nextReason tokenizer params (n + 1) (t 1) (recordedReason tokenizer params t n)

/-- The tokens appended after `n` steps. -/
def appended (t : Nat → Nat) (n : Nat) : List Nat := (List.range n).map fun i => t (i + 1)

theorem appended_succ (t : Nat → Nat) (n : Nat) :
    appended t (n + 1) = appended t n ++ [t (n + 1)] := by
  simp [appended, List.range_succ]

theorem appended_head (t : Nat → Nat) (n : Nat) : (appended t (n + 1))[0]? = some (t 1) := by
  simp [appended]

theorem generate_spec {tokenizer : Option Tokenizer} {req : Req} (fresh : req.Fresh)
    (t : Nat → Nat) (n : Nat) :
    ∃ r, req.generate tokenizer t n = some r ∧ r.outputIds = appended t n ∧
      r.samplingParams = req.samplingParams ∧ r.toAbort = false ∧ r.delayed ≤ 0 ∧
      r.finishedReason = recordedReason tokenizer req.samplingParams t n := by
  induction n with
  | zero =>
    exact ⟨req, rfl, by simp [fresh.noOutput, appended], rfl, fresh.notAborted,
      by simp [fresh.notDelayed], fresh.unfinished⟩
  | succ n ih =>
    obtain ⟨r, hr, hout, hpar, habort, hdelay, hreason⟩ := ih
    have hnew : r.outputIds ++ [t (n + 1)] = appended t (n + 1) := by rw [hout, appended_succ]
    have hlen : (appended t (n + 1)).length = n + 1 := by simp [appended]
    have hstrs : r.samplingParams.stopStrs = [] := by rw [hpar, fresh.noStopStrs]
    have hhead : (r.outputIds ++ [t (n + 1)])[0]? = some (t 1) := by
      rw [hnew, appended_head]
    have hcheck := checkFinished_eq tokenizer { r with outputIds := r.outputIds ++ [t (n + 1)] }
      habort hstrs hhead
    have hstep : req.generate tokenizer t (n + 1) = r.appendToken tokenizer (t (n + 1)) := by
      simp [Req.generate, hr]
    refine ⟨_, hstep.trans hcheck, hnew, hpar, habort, ?_, ?_⟩
    · simp only
      split <;> omega
    · simp only [hnew, hlen, hpar, hreason, recordedReason]

theorem nextReason_isSome_iff {tokenizer : Option Tokenizer} {params : SamplingParams}
    {len first : Nat} {prev : Option FinishReason} :
    (nextReason tokenizer params len first prev).isSome = true ↔
      prev.isSome = true ∨ params.maxNewTokens ≤ len ∨
        (params.ignoreEos = false ∧ IsStop tokenizer params first) := by
  cases prev with
  | some reason => simp [nextReason]
  | none =>
    rw [← matchedEos_iff]
    by_cases hmax : params.maxNewTokens ≤ len
    · simp [nextReason, hmax]
    · cases hm : matchedEos tokenizer params first <;> cases hi : params.ignoreEos <;>
        simp [nextReason, hmax, hm, hi]

theorem recordedReason_isSome_iff {tokenizer : Option Tokenizer} {params : SamplingParams}
    {t : Nat → Nat} {n : Nat} :
    (recordedReason tokenizer params t n).isSome = true ↔
      1 ≤ n ∧ (params.maxNewTokens ≤ n ∨
        (params.ignoreEos = false ∧ IsStop tokenizer params (t 1))) := by
  induction n with
  | zero => simp [recordedReason]
  | succ n ih =>
    rw [recordedReason, nextReason_isSome_iff, ih]
    constructor
    · rintro (⟨_, hmax | hstop⟩ | hmax | hstop)
      · exact ⟨by omega, Or.inl (by omega)⟩
      · exact ⟨by omega, Or.inr hstop⟩
      · exact ⟨by omega, Or.inl hmax⟩
      · exact ⟨by omega, Or.inr hstop⟩
    · exact fun h => Or.inr h.2

/-- Before the length limit the recorded reason names the first token. -/
theorem recordedReason_first {tokenizer : Option Tokenizer} {params : SamplingParams}
    {t : Nat → Nat} (hlt : 1 < params.maxNewTokens)
    (hign : params.ignoreEos = false) (hstop : IsStop tokenizer params (t 1)) :
    recordedReason tokenizer params t 1 = some (.matchedToken (t 1)) := by
  simp [recordedReason, nextReason, show ¬ params.maxNewTokens ≤ 1 by omega,
    matchedEos_iff.mpr hstop, hign]

/-- `check_finished` compares `output_ids[0]`, so a whole generation obeys the
stop law exactly when no later token can stop it before the length limit. -/
theorem finishesExactly_iff (tokenizer : Option Tokenizer) (req : Req) (t : Nat → Nat)
    (fresh : req.Fresh) :
    FinishesExactly tokenizer req t ↔
      req.samplingParams.ignoreEos = true ∨ IsStop tokenizer req.samplingParams (t 1) ∨
        ∀ n, 1 < n → n < req.samplingParams.maxNewTokens →
          ¬ IsStop tokenizer req.samplingParams (t n) := by
  have hcode : ∀ n, ∃ r, req.generate tokenizer t n = some r ∧
      (r.finished = true ↔ 1 ≤ n ∧ (req.samplingParams.maxNewTokens ≤ n ∨
        (req.samplingParams.ignoreEos = false ∧ IsStop tokenizer req.samplingParams (t 1)))) ∧
      r.finishedReason = recordedReason tokenizer req.samplingParams t n := by
    intro n
    obtain ⟨r, hr, _, _, _, hdelay, hreason⟩ := generate_spec fresh t n
    refine ⟨r, hr, ?_, hreason⟩
    rw [← recordedReason_isSome_iff, ← hreason, Req.finished, if_neg (by omega)]
  constructor
  · intro law
    by_contra hcon
    simp only [not_or, not_forall, not_not] at hcon
    obtain ⟨hign, hfirst, n, hn, hmax, hstop⟩ := hcon
    obtain ⟨r, hr, hfin, _⟩ := hcode n
    obtain ⟨r', hr', hlaw, _⟩ := law n
    cases Option.some.inj (hr.symm.trans hr')
    have hdue := hfin.mp (hlaw.mpr ⟨n, by omega, le_rfl, Or.inr ⟨by simpa using hign, hstop⟩⟩)
    exact hdue.2.elim (by omega) fun h => hfirst h.2
  · intro hcond n
    obtain ⟨r, hr, hfin, hreason⟩ := hcode n
    refine ⟨r, hr, hfin.trans ⟨?_, ?_⟩, ?_⟩
    · rintro ⟨hpos, hmax | ⟨hign, hstop⟩⟩
      · exact ⟨n, hpos, le_rfl, Or.inl hmax⟩
      · exact ⟨1, le_rfl, hpos, Or.inr ⟨hign, hstop⟩⟩
    · rintro ⟨m, hm, hmn, hmax | ⟨hign, hstop⟩⟩
      · exact ⟨by omega, Or.inl (by omega)⟩
      · refine ⟨by omega, ?_⟩
        rcases hcond with h | h | h
        · simp [h] at hign
        · exact Or.inr ⟨hign, h⟩
        · rcases Nat.lt_or_ge m req.samplingParams.maxNewTokens with hlt | hge
          · rcases Nat.lt_or_ge 1 m with h1 | h1
            · exact absurd hstop (h m h1 hlt)
            · have hm1 : m = 1 := by omega
              subst m
              exact Or.inr ⟨hign, hstop⟩
          · exact Or.inl (by omega)
    · intro hpos hdue hfirst hlt
      obtain ⟨hign, hstop⟩ := hdue.resolve_left (by omega)
      have hone : n = 1 := by
        rcases hcond with h | h | h
        · simp [h] at hign
        · by_contra hne
          exact hfirst 1 le_rfl (by omega) (Or.inr ⟨hign, h⟩)
        · by_contra hne
          exact h n (by omega) hlt hstop
      subst n
      rw [hreason]
      exact recordedReason_first hlt hign hstop

/-- A request whose second token is the end-of-sequence token but not its first. -/
def lateEosReq : Req where
  rid := 0
  originInputIds := [5]
  outputIds := []
  outputIdsLen := 0
  fillIds := []
  samplingParams :=
    { maxNewTokens := 4, ignoreEos := false, stopTokenIds := [], stopStrs := [], stopStrMaxLen := 0,
      temperature := 1, topP := 1, topK := 1, minP := 0 }
  loraPath := none
  finishedReason := none
  toAbort := false
  delayed := 0
  decodedText := ""
  prefixLen := 0
  extendInputLen := 0
  isBeingChunked := 0
  returnLogprob := false
  logprobStartLen := 0
  topLogprobsNum := 0
  hasNormalizedPromptLogprob := false
  cachedTokens := 0
  extendLogprobStartLen := 0
  ppIdx := none

theorem lateEosReq_fresh : lateEosReq.Fresh := ⟨rfl, rfl, rfl, rfl, rfl⟩

/-- A tokenizer whose end-of-sequence token is `2`. -/
def eosTwo : Tokenizer := ⟨some 2, [], fun _ => ""⟩

/-- With outputs `1, 2, 2, ...` the generation runs past its stop token. -/
theorem late_eos_not_detected :
    ¬ FinishesExactly (some eosTwo) lateEosReq (fun n => if n = 1 then 1 else 2) := by
  intro law
  obtain ⟨r, hr, hfin, _⟩ := law 2
  have hcode : lateEosReq.generate (some eosTwo) (fun n => if n = 1 then 1 else 2) 2 =
      some { lateEosReq with outputIds := [1, 2] } := by decide
  cases Option.some.inj (hr.symm.trans hcode)
  have hdue : StopDue (some eosTwo) lateEosReq.samplingParams (fun n => if n = 1 then 1 else 2) 2 :=
    Or.inr ⟨rfl, Or.inr ⟨eosTwo, rfl, Or.inl rfl⟩⟩
  exact absurd (hfin.mpr ⟨2, by omega, le_rfl, hdue⟩) (by decide)

theorem finishesExactly_iff_late_eos :
    FinishesExactly (some eosTwo) lateEosReq (fun n => if n = 1 then 2 else 1) :=
  (finishesExactly_iff (some eosTwo) lateEosReq (fun n => if n = 1 then 2 else 1)
    lateEosReq_fresh).mpr (Or.inr (Or.inl (Or.inr ⟨eosTwo, rfl, Or.inl rfl⟩)))

end FastPP
