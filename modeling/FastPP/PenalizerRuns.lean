import FastPP.Penalizers
import FastPP.BatchOps

namespace FastPP

namespace PenalizerKind

variable {V : Nat}

def all : List PenalizerKind := [frequency, minNewTokens, presence, repetition]

theorem subtract_zero (x : Logit) : subtract 0 x = x := by
  rcases x with _ | x
  · rfl
  · show ((x - 0 : Rat) : Logit) = x
    rw [sub_zero]

theorem rescale_one (x : Logit) : rescale 1 x = x := by
  rcases x with _ | x
  · rfl
  · show ((if 0 < x then x / 1 else x * 1 : Rat) : Logit) = x
    rw [div_one, mul_one, ite_self]

/-- A request that does not require the penalizer is left alone by it. -/
theorem reference_of_not_requires {kind : PenalizerKind} {req : PenalizedReq V}
    (h : kind.requires req = false) (outputIds : List (Fin V)) (logits : Fin V → Logit) :
    kind.reference req outputIds logits = logits := by
  funext t
  cases kind with
  | frequency =>
    have hzero : req.frequencyPenalty = 0 := by simpa [requires] using h
    simp only [reference, hzero, zero_mul]
    exact subtract_zero _
  | presence =>
    have hzero : req.presencePenalty = 0 := by simpa [requires] using h
    simp only [reference, hzero, ite_self]
    exact subtract_zero _
  | repetition =>
    have hone : req.repetitionPenalty = 1 := by simpa [requires] using h
    simp only [reference, hone, rescale_one, ite_self]
  | minNewTokens =>
    have hzero : req.minNewTokens = 0 := by simpa [requires] using h
    simp [reference, hzero]

theorem applyRow_eq {kind : PenalizerKind} {h : PenalizedReq V × List (Fin V)}
    {row : kind.Row V} (hfits : kind.RowFits h row) (logits : Fin V → Logit) :
    kind.applyRow row logits = kind.reference h.1 h.2 logits := by
  funext t
  cases kind with
  | frequency =>
    show subtract _ _ = subtract _ _
    rw [hfits.2 t]
  | presence =>
    show subtract _ _ = subtract _ _
    rw [hfits.2 t]
  | repetition =>
    show rescale _ _ = if _ then _ else _
    rw [hfits.2 t]
    by_cases hmem : t ∈ h.1.originInputIds ∨ t ∈ h.2
    · rw [if_pos hmem, if_pos hmem]
    · rw [if_neg hmem, if_neg hmem, rescale_one]
  | minNewTokens =>
    obtain ⟨hmin, hstop, hlen⟩ := hfits
    show (if MinNewTokensRow.lenOutputTokens row < MinNewTokensRow.minNewTokens row then
      logits t + MinNewTokensRow.stopTokenPenalties row t else logits t) = if _ then ⊥ else logits t
    rw [hmin, hstop]
    by_cases hpos : 0 < h.1.minNewTokens
    · rw [hlen hpos]
      by_cases hshort : h.2.length < h.1.minNewTokens
      · rw [if_pos hshort]
        by_cases ht : t ∈ h.1.stopTokenIds ++ h.1.additionalStopTokenIds ++ [h.1.eosTokenId]
        · rw [if_pos ht, if_pos ⟨hshort, ht⟩, WithBot.add_bot]
        · rw [if_neg ht, if_neg fun hc => ht hc.2, add_zero]
      · rw [if_neg hshort, if_neg fun hc => hshort hc.1]
    · rw [if_neg (by omega), if_neg fun hc => by omega]

/-- The first row of a request, with its prompt, before any output. -/
theorem rowFits_start (kind : PenalizerKind) (req : PenalizedReq V) :
    kind.RowFits (req, []) (kind.cumulateInputRow req.originInputIds (kind.prepareRow req)) := by
  cases kind with
  | frequency => exact ⟨rfl, fun t => by simp [cumulateInputRow, prepareRow]⟩
  | presence => exact ⟨rfl, fun t => by simp [cumulateInputRow, prepareRow]⟩
  | repetition =>
    refine ⟨rfl, fun t => ?_⟩
    simp [cumulateInputRow, prepareRow, maskRow, List.count_pos_iff]
  | minNewTokens => exact ⟨rfl, fun t => rfl, fun _ => rfl⟩

/-- A row prepared late, without prompt and outputs, serves a request that does not require
the penalizer. -/
theorem rowFits_late {kind : PenalizerKind} {h : PenalizedReq V × List (Fin V)}
    (hnot : kind.requires h.1 = false) : kind.RowFits h (kind.prepareRow h.1) := by
  cases kind with
  | frequency =>
    have hzero : h.1.frequencyPenalty = 0 := by simpa [requires] using hnot
    refine ⟨rfl, fun t => ?_⟩
    simp [prepareRow, hzero]
  | presence =>
    have hzero : h.1.presencePenalty = 0 := by simpa [requires] using hnot
    refine ⟨rfl, fun t => ?_⟩
    simp [prepareRow, hzero]
  | repetition =>
    have hone : h.1.repetitionPenalty = 1 := by simpa [requires] using hnot
    refine ⟨rfl, fun t => ?_⟩
    simp [prepareRow, hone]
  | minNewTokens =>
    have hzero : h.1.minNewTokens = 0 := by simpa [requires] using hnot
    refine ⟨rfl, fun t => rfl, fun hpos => ?_⟩
    omega

theorem rowFits_output {kind : PenalizerKind} {h : PenalizedReq V × List (Fin V)}
    {row : kind.Row V} (hfits : kind.RowFits h row) (token : Fin V) :
    kind.RowFits (h.1, h.2 ++ [token]) (kind.cumulateOutputRow token row) := by
  cases kind with
  | frequency =>
    obtain ⟨hpenalty, hcumulated⟩ := hfits
    refine ⟨hpenalty, fun t => ?_⟩
    show PenaltyRow.cumulated row t + PenaltyRow.penalty row * outputCount token t = _
    rw [hcumulated, hpenalty, List.count_append]
    by_cases ht : t = token
    · subst ht
      simp [outputCount, mul_add]
    · simp [outputCount, ht, Ne.symm ht]
  | presence =>
    obtain ⟨hpenalty, hcumulated⟩ := hfits
    refine ⟨hpenalty, fun t => ?_⟩
    show (if 0 < outputCount token t then PenaltyRow.penalty row
      else PenaltyRow.cumulated row t) = _
    rw [hcumulated, hpenalty]
    by_cases ht : t = token
    · simp [outputCount, ht]
    · simp [outputCount, ht]
  | repetition =>
    obtain ⟨hpenalty, hcumulated⟩ := hfits
    refine ⟨hpenalty, fun t => ?_⟩
    show (if 0 < outputCount token t then PenaltyRow.penalty row
      else PenaltyRow.cumulated row t) = _
    rw [hcumulated, hpenalty]
    by_cases ht : t = token
    · simp [outputCount, ht]
    · simp [outputCount, ht]
  | minNewTokens =>
    obtain ⟨hmin, hstop, hlen⟩ := hfits
    refine ⟨hmin, hstop, fun hpos => ?_⟩
    show MinNewTokensRow.lenOutputTokens row + 1 = _
    rw [hlen hpos, List.length_append]
    rfl

end PenalizerKind

/-- The requests of a batch with their output tokens so far. -/
abbrev OutputHistory (V : Nat) := List (PenalizedReq V × List (Fin V))

namespace PenalizerOrchestrator

variable {V : Nat}

/-- A penalizer of the batch is prepared exactly when a request requires it, and then has a
fitting row for every request. -/
def PenalizerFits (hist : OutputHistory V) (kind : PenalizerKind)
    (rows : Option (List (kind.Row V))) : Prop :=
  match rows with
  | none => penalizerRequired (hist.map Prod.fst) kind = false
  | some rows => penalizerRequired (hist.map Prod.fst) kind = true ∧
      List.Forall₂ kind.RowFits hist rows

/-- The orchestrator matches the requests and what they have output. -/
structure Fits (o : PenalizerOrchestrator V) (hist : OutputHistory V) : Prop where
  reqs : o.reqs = hist.map Prod.fst
  order : o.order.Perm PenalizerKind.all
  isRequired : o.isRequired = PenalizerKind.all.any (penalizerRequired (hist.map Prod.fst))
  penalizers : ∀ kind, PenalizerFits hist kind (o.penalizers kind)

theorem mem_all (kind : PenalizerKind) : kind ∈ PenalizerKind.all := by
  cases kind <;> simp [PenalizerKind.all]

theorem Fits.mem_order {o : PenalizerOrchestrator V} {hist : OutputHistory V} (h : o.Fits hist)
    (kind : PenalizerKind) : kind ∈ o.order := h.order.mem_iff.mpr (mem_all kind)

theorem any_order {order : List PenalizerKind} (h : order.Perm PenalizerKind.all)
    (p : PenalizerKind → Bool) : order.any p = PenalizerKind.all.any p := by
  rw [Bool.eq_iff_iff, List.any_eq_true, List.any_eq_true]
  simp only [h.mem_iff]

/-- No penalizer is prepared when the orchestrator is not required. -/
theorem Fits.unprepared {o : PenalizerOrchestrator V} {hist : OutputHistory V} (h : o.Fits hist)
    (hoff : o.isRequired = false) (kind : PenalizerKind) :
    penalizerRequired (hist.map Prod.fst) kind = false ∧ o.penalizers kind = none := by
  have hnot : penalizerRequired (hist.map Prod.fst) kind = false := by
    have hall := h.isRequired.symm.trans hoff
    rw [List.any_eq_false] at hall
    simpa using hall kind (mem_all kind)
  refine ⟨hnot, ?_⟩
  have hfits := h.penalizers kind
  cases hrows : o.penalizers kind with
  | none => rfl
  | some rows =>
    rw [hrows] at hfits
    have hon := hfits.1
    rw [hnot] at hon
    cases hon

theorem not_requires_of_mem {hist : OutputHistory V} {kind : PenalizerKind}
    (h : penalizerRequired (hist.map Prod.fst) kind = false) {entry : PenalizedReq V × List (Fin V)}
    (hmem : entry ∈ hist) : kind.requires entry.1 = false := by
  have hall := List.any_eq_false.mp h entry.1 (List.mem_map_of_mem hmem)
  simpa using hall

theorem fits_new {order : List PenalizerKind} (horder : order.Perm PenalizerKind.all)
    (reqs : List (PenalizedReq V)) : (new order reqs).Fits (reqs.map fun req => (req, [])) := by
  have hreqs : (reqs.map fun req => (req, ([] : List (Fin V)))).map Prod.fst = reqs := by
    rw [List.map_map]
    exact List.map_id reqs
  have hrequired : (new order reqs).isRequired =
      PenalizerKind.all.any (penalizerRequired reqs) := by
    rw [← any_order horder]
    unfold new
    split <;> rfl
  refine ⟨?_, ?_, ?_, ?_⟩
  · rw [hreqs]
    unfold new
    split <;> rfl
  · unfold new
    split <;> exact horder
  · rw [hreqs, hrequired]
  · intro kind
    have hmem : kind ∈ order := horder.mem_iff.mpr (mem_all kind)
    by_cases hkind : penalizerRequired reqs kind = true
    · have hon : order.any (penalizerRequired reqs) = true :=
        List.any_eq_true.mpr ⟨kind, hmem, hkind⟩
      have hne : reqs ≠ [] := by
        rintro rfl
        cases hkind
      have hrows : (new order reqs).penalizers kind = some (reqs.map fun req =>
          kind.cumulateInputRow req.originInputIds (kind.prepareRow req)) := by
        simp only [new, hon, if_true, cumulateInputTokens, prepareIfRequired, hmem, hkind,
          and_self, PenalizerKind.prepare, hne, and_false, if_false, Option.map_some]
        rw [List.zipWith_map_right, List.zipWith_self]
      rw [hrows]
      refine ⟨by rw [hreqs]; exact hkind, ?_⟩
      rw [List.forall₂_map_left_iff, List.forall₂_map_right_iff, List.forall₂_same]
      exact fun req _ => kind.rowFits_start req
    · have hrows : (new order reqs).penalizers kind = none := by
        unfold new
        split <;> simp [cumulateInputTokens, prepareIfRequired, hkind]
      rw [hrows]
      show penalizerRequired _ kind = false
      rw [hreqs]
      simpa using hkind

/-- The histories after every request has output one more token. -/
def appendOutputs (hist : OutputHistory V) (outputIds : List (Fin V)) : OutputHistory V :=
  List.zipWith (fun entry token => (entry.1, entry.2 ++ [token])) hist outputIds

theorem appendOutputs_reqs {hist : OutputHistory V} {outputIds : List (Fin V)}
    (hlen : outputIds.length = hist.length) :
    (appendOutputs hist outputIds).map Prod.fst = hist.map Prod.fst := by
  induction hist generalizing outputIds with
  | nil => rfl
  | cons entry hist ih =>
    cases outputIds with
    | nil => simp at hlen
    | cons token outputIds =>
      have htail := @ih outputIds (by simpa using hlen)
      show entry.1 :: (appendOutputs hist outputIds).map Prod.fst = _
      rw [htail]
      rfl

theorem rowFits_outputs {kind : PenalizerKind} {hist : OutputHistory V}
    {rows : List (kind.Row V)} (h : List.Forall₂ kind.RowFits hist rows)
    {outputIds : List (Fin V)} (hlen : outputIds.length = hist.length) :
    List.Forall₂ kind.RowFits (appendOutputs hist outputIds)
      (List.zipWith (fun token row => kind.cumulateOutputRow token row) outputIds rows) := by
  induction h generalizing outputIds with
  | nil =>
    have hnil : outputIds = [] := List.length_eq_zero_iff.mp hlen
    subst hnil
    exact .nil
  | cons hrow _ ih =>
    cases outputIds with
    | nil => simp at hlen
    | cons token outputIds =>
      exact .cons (PenalizerKind.rowFits_output hrow token) (ih (by simpa using hlen))

theorem Fits.cumulate {o : PenalizerOrchestrator V} {hist : OutputHistory V} (h : o.Fits hist)
    {outputIds : List (Fin V)} (hlen : outputIds.length = hist.length) :
    (o.cumulateOutputTokens outputIds).Fits (appendOutputs hist outputIds) := by
  have hreqs := appendOutputs_reqs hlen
  unfold cumulateOutputTokens
  by_cases hon : o.isRequired = true
  · rw [if_pos hon]
    refine ⟨by rw [hreqs]; exact h.reqs, h.order, by rw [hreqs]; exact h.isRequired, ?_⟩
    intro kind
    have hfits := h.penalizers kind
    show PenalizerFits _ kind ((o.penalizers kind).map _)
    cases hrows : o.penalizers kind with
    | none =>
      rw [hrows] at hfits
      show penalizerRequired _ kind = false
      rw [hreqs]
      exact hfits
    | some rows =>
      rw [hrows] at hfits
      refine ⟨by rw [hreqs]; exact hfits.1, rowFits_outputs hfits.2 hlen⟩
  · rw [if_neg hon]
    refine ⟨by rw [hreqs]; exact h.reqs, h.order, by rw [hreqs]; exact h.isRequired, ?_⟩
    intro kind
    obtain ⟨hnot, hnone⟩ := h.unprepared (by simpa using hon) kind
    rw [hnone]
    show penalizerRequired _ kind = false
    rw [hreqs]
    exact hnot

/-- The loop succeeds when each of its rounds does. -/
theorem updateEach_spec {update : (kind : PenalizerKind) → Option (List (kind.Row V)) →
      Option (Option (List (kind.Row V)))} {P : (kind : PenalizerKind) →
      Option (List (kind.Row V)) → Prop} {kinds : List PenalizerKind} (hnodup : kinds.Nodup)
    {penalizers : (kind : PenalizerKind) → Option (List (kind.Row V))}
    (h : ∀ kind ∈ kinds, ∃ rows, update kind (penalizers kind) = some rows ∧ P kind rows) :
    ∃ updated, updateEach update kinds penalizers = some updated ∧
      ∀ kind ∈ kinds, P kind (updated kind) := by
  suffices ∃ updated, updateEach update kinds penalizers = some updated ∧
      (∀ kind ∈ kinds, P kind (updated kind)) ∧
      ∀ kind, kind ∉ kinds → updated kind = penalizers kind by
    obtain ⟨updated, hupdate, hP, _⟩ := this
    exact ⟨updated, hupdate, hP⟩
  induction kinds generalizing penalizers with
  | nil => exact ⟨penalizers, rfl, by simp, fun _ _ => rfl⟩
  | cons head kinds ih =>
    obtain ⟨hnot, hnodup⟩ := List.nodup_cons.mp hnodup
    obtain ⟨rows, hrows, hP⟩ := h head List.mem_cons_self
    have hrest : ∀ kind ∈ kinds, ∃ rows', update kind
        (Function.update penalizers head rows kind) = some rows' ∧ P kind rows' := by
      intro kind hkind
      have hne : kind ≠ head := fun he => hnot (he ▸ hkind)
      rw [Function.update_of_ne hne]
      exact h kind (List.mem_cons_of_mem _ hkind)
    obtain ⟨updated, hupdate, hPs, hothers⟩ := ih hnodup hrest
    refine ⟨updated, ?_, ?_, ?_⟩
    · rw [updateEach, hrows]
      exact hupdate
    · intro kind hkind
      rcases List.mem_cons.mp hkind with rfl | hkind
      · rw [hothers kind hnot, Function.update_self]
        exact hP
      · exact hPs kind hkind
    · intro kind hkind
      simp only [List.mem_cons, not_or] at hkind
      obtain ⟨hne, hkind⟩ := hkind
      rw [hothers kind hkind, Function.update_of_ne hne]

/-- The loop fails when one of its rounds does. -/
theorem updateEach_isSome {update : (kind : PenalizerKind) → Option (List (kind.Row V)) →
      Option (Option (List (kind.Row V)))} {kinds : List PenalizerKind} (hnodup : kinds.Nodup)
    {penalizers updated : (kind : PenalizerKind) → Option (List (kind.Row V))}
    (h : updateEach update kinds penalizers = some updated) :
    ∀ kind ∈ kinds, (update kind (penalizers kind)).isSome := by
  induction kinds generalizing penalizers with
  | nil => simp
  | cons head kinds ih =>
    obtain ⟨hnot, hnodup⟩ := List.nodup_cons.mp hnodup
    obtain ⟨rows, hrows, hrest⟩ := Option.bind_eq_some_iff.mp h
    intro kind hkind
    rcases List.mem_cons.mp hkind with rfl | hkind
    · rw [hrows]
      rfl
    · have hne : kind ≠ head := fun he => hnot (he ▸ hkind)
      have hsome := ih hnodup hrest kind hkind
      rwa [Function.update_of_ne hne] at hsome

theorem Fits.order_nodup {o : PenalizerOrchestrator V} {hist : OutputHistory V}
    (h : o.Fits hist) : o.order.Nodup :=
  h.order.nodup_iff.mpr (by decide)

end PenalizerOrchestrator

end FastPP
