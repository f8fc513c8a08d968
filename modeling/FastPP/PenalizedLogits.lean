import FastPP.PenalizerScripts

namespace FastPP

variable {V : Nat}

/-- Operations on the orchestrators of batches; `merge` appends the other batch's requests
afterwards. -/
inductive PenalizerScript (V : Nat)
  | start (order : List PenalizerKind) (reqs : List (PenalizedReq V))
  | cumulate (script : PenalizerScript V) (outputIds : List (Fin V))
  | filter (script : PenalizerScript V) (indicesToKeep : List Nat)
  | merge (script their : PenalizerScript V)

/-- What the penalizers in their order do to the logits of one request, from it alone. -/
def referenceLogits (order : List PenalizerKind) (entry : PenalizedReq V × List (Fin V))
    (logits : Fin V → Logit) : Fin V → Logit :=
  order.foldl (fun logits kind => kind.reference entry.1 entry.2 logits) logits

namespace PenalizerScript

open PenalizerOrchestrator

/-- The requests with their outputs after the operations. -/
def history : PenalizerScript V → OutputHistory V
  | start _ reqs => reqs.map fun req => (req, [])
  | cumulate script outputIds => appendOutputs script.history outputIds
  | filter script indicesToKeep => (gather script.history indicesToKeep).getD []
  | merge script their => script.history ++ their.history

/-- Orchestrators have the four penalizers in any order, every request outputs one token at a
time, and the kept indices are in the batch. -/
def WellFormed : PenalizerScript V → Prop
  | start order _ => order.Perm PenalizerKind.all
  | cumulate script outputIds => script.WellFormed ∧ outputIds.length = script.history.length
  | filter script indicesToKeep =>
    script.WellFormed ∧ ∀ i ∈ indicesToKeep, i < script.history.length
  | merge script their => script.WellFormed ∧ their.WellFormed

/-- The orchestrator after the operations; `none` is a raised exception. -/
def run : PenalizerScript V → Option (PenalizerOrchestrator V)
  | start order reqs => some (.new order reqs)
  | cumulate script outputIds => do
    let o ← script.run
    pure (o.cumulateOutputTokens outputIds)
  | filter script indicesToKeep => do
    let o ← script.run
    let reqs ← gather o.reqs indicesToKeep
    o.filter reqs indicesToKeep
  | merge script their => do
    let o ← script.run
    let their ← their.run
    let merged ← o.merge their
    pure { merged with reqs := o.reqs ++ their.reqs }

/-- No merge is between an empty batch and one with a request that has a minimum length. -/
def NoEmptyMerge : PenalizerScript V → Prop
  | start _ _ => True
  | cumulate script _ | filter script _ => script.NoEmptyMerge
  | merge script their => (script.NoEmptyMerge ∧ their.NoEmptyMerge) ∧
      ¬ MergesIntoEmpty script.history their.history

end PenalizerScript

namespace PenalizerOrchestrator

theorem zipWith_applyRow {kind : PenalizerKind} {hist : OutputHistory V} {rows : List (kind.Row V)}
    (h : List.Forall₂ kind.RowFits hist rows) (logits : List (Fin V → Logit)) :
    List.zipWith kind.applyRow rows logits =
      List.zipWith (fun entry l => kind.reference entry.1 entry.2 l) hist logits := by
  induction h generalizing logits with
  | nil => rfl
  | cons hrow _ ih =>
    cases logits with
    | nil => rfl
    | cons l logits =>
      show _ :: _ = _ :: _
      rw [PenalizerKind.applyRow_eq hrow, ih]

theorem zipWith_same {α β : Type} {f : α → β → β} {xs : List α} {ys : List β}
    (hlen : ys.length = xs.length) (h : ∀ x ∈ xs, ∀ y, f x y = y) : List.zipWith f xs ys = ys := by
  induction xs generalizing ys with
  | nil =>
    obtain rfl := List.length_eq_zero_iff.mp hlen
    rfl
  | cons x xs ih =>
    cases ys with
    | nil => simp at hlen
    | cons y ys =>
      rw [List.zipWith_cons_cons, h x List.mem_cons_self,
        ih (by simpa using hlen) fun a ha => h a (List.mem_cons_of_mem _ ha)]

theorem zipWith_zipWith_same {α β : Type} (f g : α → β → β) (xs : List α) (ys : List β) :
    List.zipWith f xs (List.zipWith g xs ys) = List.zipWith (fun x y => f x (g x y)) xs ys := by
  induction xs generalizing ys with
  | nil => rfl
  | cons x xs ih =>
    cases ys with
    | nil => rfl
    | cons y ys => rw [List.zipWith_cons_cons, List.zipWith_cons_cons, ih, List.zipWith_cons_cons]

/-- One penalizer of `apply` acts on each request as its reference does. -/
theorem Fits.applyPenalizer {o : PenalizerOrchestrator V} {hist : OutputHistory V}
    (h : o.Fits hist) (kind : PenalizerKind) {logits : List (Fin V → Logit)}
    (hlen : logits.length = hist.length) :
    (match o.penalizers kind with
      | none => logits
      | some rows => List.zipWith kind.applyRow rows logits) =
        List.zipWith (fun entry l => kind.reference entry.1 entry.2 l) hist logits := by
  have hfits := h.penalizers kind
  cases hrows : o.penalizers kind with
  | none =>
    rw [hrows] at hfits
    exact (zipWith_same hlen fun entry hentry l =>
      PenalizerKind.reference_of_not_requires (not_requires_of_mem hfits hentry) entry.2 l).symm
  | some rows =>
    rw [hrows] at hfits
    exact zipWith_applyRow hfits.2 logits

theorem Fits.applyPenalizers {o : PenalizerOrchestrator V} {hist : OutputHistory V}
    (h : o.Fits hist) (order : List PenalizerKind) {logits : List (Fin V → Logit)}
    (hlen : logits.length = hist.length) :
    order.foldl (fun logits kind =>
      match o.penalizers kind with
      | none => logits
      | some rows => List.zipWith kind.applyRow rows logits) logits =
        List.zipWith (referenceLogits order) hist logits := by
  induction order generalizing logits with
  | nil => exact (zipWith_same hlen fun _ _ _ => rfl).symm
  | cons kind order ih =>
    rw [List.foldl_cons, h.applyPenalizer kind hlen,
      ih (by rw [List.length_zipWith, hlen, Nat.min_self]),
      zipWith_zipWith_same]
    rfl

theorem Fits.apply {o : PenalizerOrchestrator V} {hist : OutputHistory V} (h : o.Fits hist)
    {logits : List (Fin V → Logit)} (hlen : logits.length = hist.length) :
    o.apply logits = List.zipWith (referenceLogits o.order) hist logits := by
  unfold PenalizerOrchestrator.apply
  by_cases hon : o.isRequired = true
  · rw [if_pos hon]
    exact h.applyPenalizers o.order hlen
  · rw [if_neg hon, ← h.applyPenalizers o.order hlen]
    have hoff : o.isRequired = false := by simpa using hon
    have hnone : ∀ order : List PenalizerKind, order.foldl (fun logits kind =>
        match o.penalizers kind with
        | none => logits
        | some rows => List.zipWith kind.applyRow rows logits) logits = logits := by
      intro order
      induction order with
      | nil => rfl
      | cons kind order ih =>
        rw [List.foldl_cons, (h.unprepared hoff kind).2]
        exact ih
    rw [hnone]

end PenalizerOrchestrator

theorem gather_of_lt {α : Type} {values : List α} {indices : List Nat}
    (h : ∀ i ∈ indices, i < values.length) : ∃ kept, gather values indices = some kept := by
  induction indices with
  | nil => exact ⟨[], rfl⟩
  | cons i indices ih =>
    obtain ⟨rest, hrest⟩ := ih fun j hj => h j (List.mem_cons_of_mem _ hj)
    have hi := h i List.mem_cons_self
    refine ⟨values[i] :: rest, ?_⟩
    rw [gather_cons, hrest, List.getElem?_eq_getElem hi]
    rfl

namespace PenalizerScript

open PenalizerOrchestrator

theorem run_fits {script : PenalizerScript V} (hwf : script.WellFormed)
    (hmerges : script.NoEmptyMerge) : ∃ o, script.run = some o ∧ o.Fits script.history := by
  induction script with
  | start order reqs => exact ⟨_, rfl, fits_new hwf reqs⟩
  | cumulate script outputIds ih =>
    obtain ⟨o, hrun, hfits⟩ := ih hwf.1 hmerges
    refine ⟨_, ?_, hfits.cumulate hwf.2⟩
    rw [run, hrun]
    rfl
  | filter script indices ih =>
    obtain ⟨o, hrun, hfits⟩ := ih hwf.1 hmerges
    obtain ⟨kept, hkept⟩ := gather_of_lt hwf.2
    obtain ⟨filtered, hfilter, hfits'⟩ := hfits.filter hkept
    refine ⟨filtered, ?_, ?_⟩
    · have hreqs : gather o.reqs indices = some (kept.map Prod.fst) := by
        rw [hfits.reqs]
        exact gather_map_of hkept
      exact Option.bind_eq_some_iff.mpr ⟨o, hrun, Option.bind_eq_some_iff.mpr ⟨_, hreqs, hfilter⟩⟩
    · rw [history, hkept]
      exact hfits'
  | merge script their ih ih' =>
    obtain ⟨o, hrun, hfits⟩ := ih hwf.1 hmerges.1.1
    obtain ⟨o', hrun', hfits'⟩ := ih' hwf.2 hmerges.1.2
    obtain ⟨merged, hmerge, hall⟩ := hfits.merge hfits' hmerges.2
    refine ⟨_, ?_, hall⟩
    exact Option.bind_eq_some_iff.mpr ⟨o, hrun, Option.bind_eq_some_iff.mpr ⟨o', hrun',
      Option.bind_eq_some_iff.mpr ⟨merged, hmerge, rfl⟩⟩⟩

theorem noEmptyMerge_of_run {script : PenalizerScript V} (hwf : script.WellFormed)
    {o : PenalizerOrchestrator V} (hrun : script.run = some o) : script.NoEmptyMerge := by
  induction script generalizing o with
  | start order reqs => trivial
  | cumulate script outputIds ih =>
    obtain ⟨before, hbefore, _⟩ := Option.bind_eq_some_iff.mp hrun
    exact ih hwf.1 hbefore
  | filter script indices ih =>
    obtain ⟨before, hbefore, _⟩ := Option.bind_eq_some_iff.mp hrun
    exact ih hwf.1 hbefore
  | merge script their ih ih' =>
    obtain ⟨us, hus, hrun⟩ := Option.bind_eq_some_iff.mp hrun
    obtain ⟨them, hthem, hrun⟩ := Option.bind_eq_some_iff.mp hrun
    obtain ⟨merged, hmerge, _⟩ := Option.bind_eq_some_iff.mp hrun
    have hours := ih hwf.1 hus
    have htheirs := ih' hwf.2 hthem
    refine ⟨⟨hours, htheirs⟩, ?_⟩
    obtain ⟨us', hus', hfits⟩ := run_fits hwf.1 hours
    obtain ⟨them', hthem', hfits'⟩ := run_fits hwf.2 htheirs
    obtain rfl := Option.some.inj (hus.symm.trans hus')
    obtain rfl := Option.some.inj (hthem.symm.trans hthem')
    exact hfits.not_mergesIntoEmpty hfits' hmerge

/-- After any sequence of operations the penalized logits of each request are its own
reference, unless a merge fails for want of requests on one side. -/
theorem apply_eq_reference_iff (script : PenalizerScript V) (hwf : script.WellFormed) :
    (∃ o, script.run = some o ∧ o.order.Perm PenalizerKind.all ∧
      ∀ logits, logits.length = script.history.length →
        o.apply logits = List.zipWith (referenceLogits o.order) script.history logits) ↔
      script.NoEmptyMerge := by
  constructor
  · rintro ⟨o, hrun, _⟩
    exact noEmptyMerge_of_run hwf hrun
  · intro hmerges
    obtain ⟨o, hrun, hfits⟩ := run_fits hwf hmerges
    exact ⟨o, hrun, hfits.order, fun logits hlen => hfits.apply hlen⟩

end PenalizerScript

/-- A request over a vocabulary of four tokens that must output one token. -/
def oneTokenAtLeast : PenalizedReq 4 where
  originInputIds := [0]
  frequencyPenalty := 0
  presencePenalty := 0
  repetitionPenalty := 2
  minNewTokens := 1
  stopTokenIds := []
  additionalStopTokenIds := []
  eosTokenId := 2

/-- The batch is filtered down to nothing before the other one joins. -/
def mergeAfterEmptied : PenalizerScript 4 :=
  .merge (.filter (.start PenalizerKind.all [oneTokenAtLeast]) [])
    (.start PenalizerKind.all [oneTokenAtLeast])

theorem merge_into_emptied_fails : mergeAfterEmptied.WellFormed ∧ ¬ ∃ o,
    mergeAfterEmptied.run = some o ∧ o.order.Perm PenalizerKind.all ∧
      ∀ logits, logits.length = mergeAfterEmptied.history.length →
        o.apply logits = List.zipWith (referenceLogits o.order) mergeAfterEmptied.history logits := by
  refine ⟨⟨⟨.refl _, fun i hi => absurd hi List.not_mem_nil⟩, .refl _⟩, ?_⟩
  rintro ⟨o, hrun, _⟩
  have hnone : mergeAfterEmptied.run.isNone = true := by decide
  rw [hrun] at hnone
  cases hnone

def cumulateThenMerge : PenalizerScript 4 :=
  .merge (.cumulate (.start PenalizerKind.all [oneTokenAtLeast]) [1])
    (.start PenalizerKind.all [oneTokenAtLeast])

theorem apply_eq_reference_cumulated : ∃ o, cumulateThenMerge.run = some o ∧
    o.order.Perm PenalizerKind.all ∧
    ∀ logits, logits.length = cumulateThenMerge.history.length →
      o.apply logits = List.zipWith (referenceLogits o.order) cumulateThenMerge.history logits :=
  (PenalizerScript.apply_eq_reference_iff cumulateThenMerge ⟨⟨.refl _, rfl⟩, .refl _⟩).mpr
    ⟨⟨trivial, trivial⟩, by
      simp [PenalizerOrchestrator.MergesIntoEmpty, PenalizerScript.history,
        PenalizerOrchestrator.appendOutputs]⟩

end FastPP
