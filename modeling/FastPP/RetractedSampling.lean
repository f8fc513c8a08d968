import FastPP.PenalizedLogits
import Mathlib.Tactic.Linarith
import Mathlib.Tactic.NormNum
import Mathlib.Tactic.Positivity
import Mathlib.Tactic.Push

namespace FastPP

variable {V : Nat}

/-- A request in a batch: its output ids at its last prefill, and those sampled since. -/
structure SampledReq (V : Nat) where
  req : PenalizedReq V
  before : List (Fin V)
  since : List (Fin V)

/-- `output_ids`, which `reset_for_retract` leaves as they are. -/
def SampledReq.outputIds (r : SampledReq V) : List (Fin V) := r.before ++ r.since

/-- The request when it is prefilled, for the first time or after a retraction. -/
def SampledReq.prefilled (r : SampledReq V) : SampledReq V := ⟨r.req, r.outputIds, []⟩

/-- What happens to batches: a prefill of requests, some of them retracted before, a decode
step with the ids sampled last, and the filters and merges of `retract_decode` and the
scheduler. -/
inductive SamplingScript (V : Nat)
  | prefill (order : List PenalizerKind) (reqs : List (SampledReq V))
  | decode (script : SamplingScript V) (outputIds : List (Fin V))
  | filter (script : SamplingScript V) (keepIndices : List Nat)
  | merge (script their : SamplingScript V)

namespace SamplingScript

/-- The requests of the batch. -/
def batch : SamplingScript V → List (SampledReq V)
  | prefill _ reqs => reqs.map SampledReq.prefilled
  | decode script outputIds =>
    List.zipWith (fun r token => ⟨r.req, r.before, r.since ++ [token]⟩) script.batch outputIds
  | filter script keepIndices => (gather script.batch keepIndices).getD []
  | merge script their => script.batch ++ their.batch

/-- What the orchestrators see of it: `from_schedule_batch` feeds them the
`origin_input_ids` of the requests, and not their `output_ids`. -/
def penalizerScript : SamplingScript V → PenalizerScript V
  | prefill order reqs => .start order (reqs.map SampledReq.req)
  | decode script outputIds => .cumulate script.penalizerScript outputIds
  | filter script keepIndices => .filter script.penalizerScript keepIndices
  | merge script their => .merge script.penalizerScript their.penalizerScript

end SamplingScript

/-- What one penalizer does to the logits of a row of the batch. -/
def PenalizerOrchestrator.effect (o : PenalizerOrchestrator V) (kind : PenalizerKind) (row : Nat)
    (logits : Fin V → Logit) : Fin V → Logit :=
  match o.penalizers kind with
  | none => logits
  | some rows =>
    match rows[row]? with
    | some penalties => kind.applyRow penalties logits
    | none => logits

/-- Whatever happens around it, a request that was retracted after the outputs `o` and then
went on to sample `s` gets from each penalizer what it gets in a run without the
retraction. -/
def RetractionInvisible (req : PenalizedReq V) (o : List (Fin V)) : Prop :=
  ∀ (kept retracted : SamplingScript V) (unbroken resumed : PenalizerOrchestrator V)
    (i j : Nat) (s : List (Fin V)),
    kept.penalizerScript.WellFormed → retracted.penalizerScript.WellFormed →
    kept.penalizerScript.run = some unbroken → retracted.penalizerScript.run = some resumed →
    kept.batch[i]? = some ⟨req, [], o ++ s⟩ → retracted.batch[j]? = some ⟨req, o, s⟩ →
    ∀ kind logits, resumed.effect kind j logits = unbroken.effect kind i logits

/-- The outputs before the retraction count for no penalizer: there are none, or the
request has no penalty that they could feed. -/
def OutputsDoNotCount (req : PenalizedReq V) (o : List (Fin V)) : Prop :=
  o = [] ∨ (req.frequencyPenalty = 0 ∧ req.presencePenalty = 0 ∧
    (req.repetitionPenalty = 1 ∨ ∀ t ∈ o, t ∈ req.originInputIds) ∧ req.minNewTokens = 0)

namespace SamplingScript

open PenalizerOrchestrator

theorem gather_map {α β : Type} (f : α → β) (xs : List α) (indices : List Nat) :
    gather (xs.map f) indices = (gather xs indices).map (List.map f) := by
  induction indices with
  | nil => rfl
  | cons i indices ih =>
    rw [gather_cons, gather_cons, ih, List.getElem?_map]
    cases xs[i]? with
    | none => rfl
    | some x =>
      cases gather xs indices with
      | none => rfl
      | some rest => rfl

/-- The penalizers know the outputs since the last prefill. -/
theorem history_eq (script : SamplingScript V) :
    script.penalizerScript.history = script.batch.map fun r => (r.req, r.since) := by
  induction script with
  | prefill order reqs =>
    simp only [penalizerScript, PenalizerScript.history, batch, List.map_map]
    rfl
  | decode script outputIds ih =>
    simp only [penalizerScript, PenalizerScript.history, batch, appendOutputs, ih,
      List.zipWith_map_left, List.map_zipWith]
  | filter script keepIndices ih =>
    simp only [penalizerScript, PenalizerScript.history, batch, ih, gather_map]
    cases gather script.batch keepIndices with
    | none => rfl
    | some kept => rfl
  | merge script their ih ih' =>
    simp only [penalizerScript, PenalizerScript.history, batch, ih, ih', List.map_append]

end SamplingScript

namespace PenalizerOrchestrator

/-- The effect on a row is the reference for its request and the outputs since its last
prefill. -/
theorem Fits.effect_eq {o : PenalizerOrchestrator V} {hist : OutputHistory V} (h : o.Fits hist)
    {row : Nat} {entry : PenalizedReq V × List (Fin V)} (hrow : hist[row]? = some entry)
    (kind : PenalizerKind) (logits : Fin V → Logit) :
    o.effect kind row logits = kind.reference entry.1 entry.2 logits := by
  have hfits := h.penalizers kind
  obtain ⟨hlt, hentry⟩ := List.getElem?_eq_some_iff.mp hrow
  unfold PenalizerOrchestrator.effect
  cases hrows : o.penalizers kind with
  | none =>
    rw [hrows] at hfits
    have hmem : entry ∈ hist := List.mem_of_getElem? hrow
    exact (PenalizerKind.reference_of_not_requires (not_requires_of_mem hfits hmem) entry.2
      logits).symm
  | some rows =>
    rw [hrows] at hfits
    have hlt' : row < rows.length := hfits.2.length_eq ▸ hlt
    have hfit := hfits.2.get hlt hlt'
    simp only [List.getElem?_eq_getElem hlt']
    apply PenalizerKind.applyRow_eq
    rw [← hentry]
    exact hfit

end PenalizerOrchestrator

theorem SamplingScript.effect_eq {script : SamplingScript V}
    (hwf : script.penalizerScript.WellFormed) {o : PenalizerOrchestrator V}
    (hrun : script.penalizerScript.run = some o) {row : Nat} {r : SampledReq V}
    (hrow : script.batch[row]? = some r) (kind : PenalizerKind) (logits : Fin V → Logit) :
    o.effect kind row logits = kind.reference r.req r.since logits := by
  obtain ⟨o', hrun', hfits⟩ :=
    PenalizerScript.run_fits hwf (PenalizerScript.noEmptyMerge_of_run hwf hrun)
  rw [hrun] at hrun'
  obtain rfl := Option.some.inj hrun'
  have hentry : script.penalizerScript.history[row]? = some (r.req, r.since) := by
    rw [script.history_eq, List.getElem?_map, hrow]
    rfl
  exact hfits.effect_eq hentry kind logits

/-- Outputs that do not count leave every reference as it is. -/
theorem reference_eq_of_doNotCount {req : PenalizedReq V} {o : List (Fin V)}
    (h : OutputsDoNotCount req o) (s : List (Fin V)) (kind : PenalizerKind)
    (logits : Fin V → Logit) :
    kind.reference req s logits = kind.reference req (o ++ s) logits := by
  rcases h with rfl | ⟨hfreq, hpres, hrep, hmin⟩
  · rfl
  · funext t
    cases kind with
    | frequency => simp [PenalizerKind.reference, hfreq]
    | presence => simp [PenalizerKind.reference, hpres]
    | repetition =>
      simp only [PenalizerKind.reference]
      rcases hrep with hone | hin
      · rw [hone, PenalizerKind.rescale_one]
        simp
      · have hmem : (t ∈ req.originInputIds ∨ t ∈ o ++ s) ↔
            (t ∈ req.originInputIds ∨ t ∈ s) := by
          rw [List.mem_append]
          constructor
          · rintro (h | h | h)
            · exact .inl h
            · exact .inl (hin t h)
            · exact .inr h
          · rintro (h | h)
            · exact .inl h
            · exact .inr (.inr h)
        rw [if_congr hmem rfl rfl]
    | minNewTokens => simp [PenalizerKind.reference, hmin]

/-- A request that is prefilled alone with the outputs `o` and then samples `s`. -/
def sampledAlone (req : PenalizedReq V) (o s : List (Fin V)) : SamplingScript V :=
  s.foldl (fun script token => .decode script [token]) (.prefill PenalizerKind.all [⟨req, o, []⟩])

theorem sampledAlone_snoc (req : PenalizedReq V) (o s : List (Fin V)) (token : Fin V) :
    sampledAlone req o (s ++ [token]) = .decode (sampledAlone req o s) [token] := by
  simp [sampledAlone]

theorem sampledAlone_spec (req : PenalizedReq V) (o s : List (Fin V)) :
    (sampledAlone req o s).batch = [⟨req, o, s⟩] ∧
      (sampledAlone req o s).penalizerScript.WellFormed ∧
      (sampledAlone req o s).penalizerScript.NoEmptyMerge := by
  induction s using List.reverseRecOn with
  | nil =>
    refine ⟨?_, .refl _, trivial⟩
    simp [sampledAlone, SamplingScript.batch, SampledReq.prefilled, SampledReq.outputIds]
  | append_singleton s token ih =>
    obtain ⟨hbatch, hwf, hmerge⟩ := ih
    rw [sampledAlone_snoc]
    refine ⟨?_, ⟨hwf, ?_⟩, hmerge⟩
    · simp [SamplingScript.batch, hbatch]
    · rw [SamplingScript.history_eq, hbatch]
      rfl

/-- An invisible retraction leaves every reference as it is. -/
theorem reference_eq_of_invisible {req : PenalizedReq V} {o : List (Fin V)}
    (h : RetractionInvisible req o) (s : List (Fin V)) (kind : PenalizerKind)
    (logits : Fin V → Logit) :
    kind.reference req s logits = kind.reference req (o ++ s) logits := by
  obtain ⟨hbatch, hwf, hmerge⟩ := sampledAlone_spec req [] (o ++ s)
  obtain ⟨hbatch', hwf', hmerge'⟩ := sampledAlone_spec req o s
  obtain ⟨unbroken, hrun, -⟩ := PenalizerScript.run_fits hwf hmerge
  obtain ⟨resumed, hrun', -⟩ := PenalizerScript.run_fits hwf' hmerge'
  have hrow : (sampledAlone req [] (o ++ s)).batch[0]? = some ⟨req, [], o ++ s⟩ := by
    rw [hbatch]
    rfl
  have hrow' : (sampledAlone req o s).batch[0]? = some ⟨req, o, s⟩ := by
    rw [hbatch']
    rfl
  have heq := h _ _ unbroken resumed 0 0 s hwf hwf' hrun hrun' hrow hrow' kind logits
  rw [SamplingScript.effect_eq hwf' hrun' hrow', SamplingScript.effect_eq hwf hrun hrow] at heq
  exact heq

theorem subtract_injective {p q : Rat}
    (h : PenalizerKind.subtract p 0 = PenalizerKind.subtract q 0) : p = q := by
  have hrat : (0 - p : Rat) = 0 - q := WithBot.coe_injective h
  linarith

theorem rescale_fixes_one {p : Rat} (h : PenalizerKind.rescale p 1 = 1) : p = 1 := by
  have hrat : (if (0 : Rat) < 1 then 1 / p else 1 * p) = 1 := WithBot.coe_injective h
  rw [if_pos (by norm_num), one_div] at hrat
  exact inv_eq_one.mp hrat

/-- Outputs that leave every reference as it is count for no penalizer. -/
theorem doNotCount_of_reference {req : PenalizedReq V} {o : List (Fin V)}
    (h : ∀ s kind logits,
      PenalizerKind.reference kind req s logits = PenalizerKind.reference kind req (o ++ s) logits) :
    OutputsDoNotCount req o := by
  by_cases hnil : o = []
  · exact .inl hnil
  right
  obtain ⟨token, rest, rfl⟩ := List.exists_cons_of_ne_nil hnil
  refine ⟨?_, ?_, ?_, ?_⟩
  · have hcount := subtract_injective (congrFun (h [] .frequency fun _ => 0) token)
    rw [List.count_nil, List.append_nil, List.count_cons_self] at hcount
    have hpos : ((rest.count token + 1 : Nat) : Rat) ≠ 0 := by positivity
    rw [Nat.cast_zero, mul_zero] at hcount
    exact (mul_eq_zero.mp hcount.symm).resolve_right hpos
  · have hpenalty := subtract_injective (congrFun (h [] .presence fun _ => 0) token)
    simpa using hpenalty.symm
  · by_contra hrep
    push Not at hrep
    obtain ⟨hone, t, ht, hnew⟩ := hrep
    have heq := congrFun (h [] .repetition fun _ => 1) t
    simp only [PenalizerKind.reference, hnew, List.not_mem_nil, or_self, if_false,
      List.append_nil, ht, or_true, if_true] at heq
    exact hone (rescale_fixes_one heq.symm)
  · by_contra hmin
    -- the mask is still on after one token less than the minimum
    have heq := congrFun
      (h (List.replicate (req.minNewTokens - 1) token) .minNewTokens fun _ => 0) req.eosTokenId
    have hshort : req.minNewTokens - 1 < req.minNewTokens := by omega
    simp [PenalizerKind.reference, hshort] at heq
    omega

/-- A retraction is invisible to the sampling exactly when the outputs before it count for
no penalizer. -/
theorem retractionInvisible_iff (req : PenalizedReq V) (o : List (Fin V)) :
    RetractionInvisible req o ↔ OutputsDoNotCount req o := by
  constructor
  · exact fun h => doNotCount_of_reference (reference_eq_of_invisible h)
  · intro h kept retracted unbroken resumed i j s hwf hwf' hrun hrun' hrow hrow' kind logits
    rw [SamplingScript.effect_eq hwf' hrun' hrow', SamplingScript.effect_eq hwf hrun hrow]
    exact reference_eq_of_doNotCount h s kind logits

/-- A request with a frequency penalty that is retracted after its first token. -/
theorem retraction_forgets_output :
    ¬ RetractionInvisible (⟨[0], 1, 0, 1, 0, [], [], 2⟩ : PenalizedReq 4) [1] := by
  intro h
  rcases doNotCount_of_reference (reference_eq_of_invisible h) with hnil | ⟨hfreq, -⟩
  · cases hnil
  · exact absurd hfreq (by decide)

end FastPP
