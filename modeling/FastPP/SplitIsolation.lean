import FastPP.SplitSamplingState

namespace FastPP

open PenalizerOrchestrator

variable {V : Nat}

namespace SampledBatch

theorem Unsplit.fits {b : SampledBatch V} {script : PenalizerScript V} (h : b.Unsplit script) :
    b.orchestrator.Fits script.history := by
  obtain ⟨o, hrun, hfits⟩ := PenalizerScript.run_fits h.wellFormed
    (PenalizerScript.noEmptyMerge_of_run h.wellFormed h.run)
  rw [h.run] at hrun
  obtain rfl := Option.some.inj hrun
  exact hfits

/-- A batch that was never split has no penalizer prepared when no request has a penalty. -/
theorem Unsplit.unprepared_iff {b : SampledBatch V} {script : PenalizerScript V}
    (h : b.Unsplit script) : b.Unprepared ↔
      ∀ entry ∈ script.history, ∀ kind : PenalizerKind, kind.requires entry.1 = false := by
  constructor
  · intro hunprepared entry hentry kind
    have hfits := h.fits.penalizers kind
    rw [hunprepared kind] at hfits
    exact not_requires_of_mem hfits hentry
  · intro hplain kind
    have hfits := h.fits.penalizers kind
    cases hrows : b.orchestrator.penalizers kind with
    | none => rfl
    | some rows =>
      rw [hrows] at hfits
      obtain ⟨req, hreq, hrequires⟩ := List.any_eq_true.mp hfits.1
      obtain ⟨entry, hentry, rfl⟩ := List.mem_map.mp hreq
      rw [hplain entry hentry kind] at hrequires
      cases hrequires

/-- The penalizers of a batch that was never split cover it. -/
theorem Unsplit.covered {b : SampledBatch V} {script : PenalizerScript V}
    (h : b.Unsplit script) : b.Covered := by
  intro kind rows hrows i hi
  have hfits := h.fits.penalizers kind
  rw [hrows] at hfits
  refine ⟨?_, ?_⟩
  · rw [h.fits.reqs]
    exact hfits.1
  · rw [← hfits.2.length_eq, ← h.length]
    exact hi

theorem Unprepared.covered {b : SampledBatch V} (h : b.Unprepared) : b.Covered := by
  intro kind rows hrows
  rw [h kind] at hrows
  cases hrows


theorem mem_order (b : SampledBatch V) (kind : PenalizerKind) : kind ∈ b.orchestrator.order :=
  b.order.mem_iff.mpr (mem_all kind)

/-- A batch of one request without penalties. -/
def plain (eosTokenId : Fin V) : SampledBatch V where
  rows := ⟨[1], [1], [1], [0], true, false⟩
  orchestrator := .new PenalizerKind.all [⟨[], 0, 0, 1, 0, [], [], eosTokenId⟩]
  topPs_length := rfl
  topKs_length := rfl
  minPs_length := rfl
  order := .refl _
  unprepared _ kind := by cases kind <;> rfl
  reqs_ne_nil _ := List.cons_ne_nil _ _

theorem plain_unprepared (eosTokenId : Fin V) : (plain eosTokenId).Unprepared := by
  intro kind
  cases kind <;> rfl

/-- A half has the rows of its requests, and its orchestrator on the heap; there is no
batch for no index. -/
def HoldsRows (b : SampledBatch V) (o : PenalizerOrchestrator V) (indices : List Nat) :
    Option (PenalizedInfo V) → Prop
  | none => indices = []
  | some info => indices ≠ [] ∧ info.penalizerOrchestrator = 0 ∧ ∀ row i, indices[row]? = some i →
      requestSampling info o row = requestSampling b.info b.orchestrator i

theorem HoldsRows.keepsRequests {b : SampledBatch V} {o : PenalizerOrchestrator V}
    {indices : List Nat} {sub : Option (PenalizedInfo V)} (h : b.HoldsRows o indices sub)
    {s : SplitBatches V} (hheap : s.heap = [o]) {half : SplitHalf} (hhalf : s.half half = sub) :
    s.KeepsRequests b half indices := by
  unfold SplitBatches.KeepsRequests
  rw [hhalf, hheap]
  cases sub with
  | none => exact h
  | some info =>
    obtain ⟨_, haddress, hrows⟩ := h
    refine ⟨o, ?_, hrows⟩
    rw [haddress]
    rfl

/-- Only the penalizers of the orchestrator matter. -/
theorem HoldsRows.congr {b : SampledBatch V} {o o' : PenalizerOrchestrator V}
    {indices : List Nat} {sub : Option (PenalizedInfo V)} (h : b.HoldsRows o indices sub)
    (hsame : o'.penalizers = o.penalizers) : b.HoldsRows o' indices sub := by
  cases sub with
  | none => exact h
  | some info =>
    obtain ⟨hne, haddress, hrows⟩ := h
    refine ⟨hne, haddress, fun row i hrow => ?_⟩
    rw [← hrows row i hrow]
    unfold requestSampling penaltyRow
    rw [hsame]

/-- One half of the split, made by a filter of the orchestrator that keeps its penalties. -/
theorem makeSubBatch_spec (b : SampledBatch V) {o filtered : PenalizerOrchestrator V}
    {indices : List Nat} (hne : indices ≠ []) (hlt : ∀ i ∈ indices, i < b.batchSize)
    (hfilter : o.filter o.reqs indices = some filtered)
    (hpenalties : ∀ kind row i, indices[row]? = some i →
      filtered.penaltyRow kind row = b.orchestrator.penaltyRow kind i) :
    ∃ sub, b.info.makeSubBatch [o] indices = some ([filtered], sub) ∧
      b.HoldsRows filtered indices sub := by
  obtain ⟨temperatures, htemperatures⟩ := gather_of_lt hlt
  obtain ⟨topPs, htopPs⟩ := gather_of_lt fun i hi => (hlt i hi).trans_eq b.topPs_length.symm
  obtain ⟨topKs, htopKs⟩ := gather_of_lt fun i hi => (hlt i hi).trans_eq b.topKs_length.symm
  obtain ⟨minPs, hminPs⟩ := gather_of_lt fun i hi => (hlt i hi).trans_eq b.minPs_length.symm
  have hrows : b.rows.filterBatch indices =
      some { b.rows with temperatures, topPs, topKs, minPs } := by
    unfold SamplingBatchInfo.filterBatch
    rw [htemperatures, htopPs, htopKs, hminPs]
    rfl
  have hsub : b.info.makeSubBatch [o] indices =
      some ([filtered], some ⟨{ b.rows with temperatures, topPs, topKs, minPs }, none, 0⟩) := by
    unfold PenalizedInfo.makeSubBatch
    rw [if_neg hne]
    show (PenalizedInfo.filterBatch [o] b.info indices).bind _ = _
    have hbatch : PenalizedInfo.filterBatch [o] b.info indices =
        some ([filtered], ⟨{ b.rows with temperatures, topPs, topKs, minPs }, none, 0⟩) := by
      show (o.filter o.reqs indices).bind _ = _
      rw [hfilter]
      show (b.rows.filterBatch indices).bind _ = _
      rw [hrows]
      rfl
    rw [hbatch]
    rfl
  refine ⟨_, hsub, hne, rfl, ?_⟩
  intro row i hrow
  unfold requestSampling
  rw [gather_getElem? htemperatures hrow, gather_getElem? htopPs hrow,
    gather_getElem? htopKs hrow, gather_getElem? hminPs hrow]
  simp only [hpenalties _ row i hrow]
  rfl

/-- A half of a batch that its penalizers cover. -/
theorem makeSubBatch_covered {b : SampledBatch V} (hcovered : b.Covered) {indices : List Nat}
    (hlt : ∀ i ∈ indices, i < b.batchSize) :
    ∃ o sub, b.info.makeSubBatch [b.orchestrator] indices = some ([o], sub) ∧
      b.HoldsRows o indices sub := by
  by_cases hnil : indices = []
  · subst hnil
    exact ⟨b.orchestrator, none, rfl, rfl⟩
  obtain ⟨filtered, hfilter, hpenalties⟩ := filter_covered b.order b.unprepared hnil
    fun kind rows hrows i hi => hcovered kind rows hrows i (hlt i hi)
  obtain ⟨sub, hsub, hholds⟩ := b.makeSubBatch_spec hnil hlt hfilter hpenalties
  exact ⟨filtered, sub, hsub, hholds⟩

/-- A half of a batch where no penalizer is prepared. -/
theorem makeSubBatch_unprepared {b : SampledBatch V} (h : b.Unprepared)
    {o : PenalizerOrchestrator V} (horder : o.order.Perm PenalizerKind.all) (ho : o.Unprepared)
    {indices : List Nat} (hlt : ∀ i ∈ indices, i < b.batchSize) :
    ∃ o' sub, b.info.makeSubBatch [o] indices = some ([o'], sub) ∧
      o'.order.Perm PenalizerKind.all ∧ o'.Unprepared ∧ b.HoldsRows o' indices sub := by
  by_cases hnil : indices = []
  · subst hnil
    exact ⟨o, none, rfl, horder, ho, rfl⟩
  have hcovered : ∀ kind rows, o.penalizers kind = some rows →
      ∀ i ∈ indices, penalizerRequired o.reqs kind = true ∧ i < rows.length := by
    intro kind rows hrows
    rw [ho kind] at hrows
    cases hrows
  obtain ⟨filtered, hfilter, _⟩ := filter_covered horder (fun _ => ho) hnil hcovered
  have hfiltered := ho.filter hfilter
  obtain ⟨sub, hsub, hholds⟩ := b.makeSubBatch_spec hnil hlt hfilter
    (fun kind row i _ => by unfold penaltyRow; rw [hfiltered kind, h kind]; rfl)
  exact ⟨filtered, sub, hsub, (filter_frame hfilter).2 ▸ horder, hfiltered, hholds⟩

end SampledBatch

namespace SplitBatches

theorem half_update_other (s : SplitBatches V) (heap : OrchestratorHeap V)
    (info : PenalizedInfo V) (h : SplitHalf) :
    (s.update heap info h).half h.other = s.half h.other := by
  cases h <;> rfl

theorem half_update_self (s : SplitBatches V) (heap : OrchestratorHeap V)
    (info : PenalizedInfo V) (h : SplitHalf) : (s.update heap info h).half h = some info := by
  cases h <;> rfl

/-- What a step of a half is. -/
theorem step_cases {s s' : SplitBatches V} {h : SplitHalf} {step : HalfStep V}
    (next : s.step h step = some s') :
    ∃ info heap info', s.half h = some info ∧ step.apply s.heap info = some (heap, info') ∧
      s' = s.update heap info' h := by
  obtain ⟨info, hinfo, next⟩ := Option.bind_eq_some_iff.mp next
  obtain ⟨⟨heap, info'⟩, happly, next⟩ := Option.bind_eq_some_iff.mp next
  exact ⟨info, heap, info', hinfo, happly, (Option.some.inj next).symm⟩

/-- A half that does not exist never comes to exist, and no step changes it. -/
theorem absent_isolated {partners : SampledBatch V → Prop} {s s' : SplitBatches V}
    (hrun : ContinuesTo partners s s') {absent : SplitHalf} (habsent : s.half absent = none) :
    s'.half absent = none := by
  induction hrun with
  | refl => exact habsent
  | @step s' s'' h step _ _ next ih =>
    obtain ⟨info, heap, info', hinfo, _, rfl⟩ := step_cases next
    by_cases hsame : h = absent
    · rw [hsame, ih] at hinfo
      cases hinfo
    · have hother : absent = h.other := by
        cases h <;> cases absent <;> simp_all [SplitHalf.other]
      rw [hother, half_update_other, ← hother]
      exact ih

theorem absent_state {s s' : SplitBatches V} {absent h : SplitHalf} {step : HalfStep V}
    (habsent : s.half absent = none) (next : s.step h step = some s') :
    s'.state h.other = s.state h.other := by
  obtain ⟨info, heap, info', hinfo, _, rfl⟩ := step_cases next
  have hother : absent = h.other := by
    cases h <;> cases absent <;> simp_all [SplitHalf.other]
  unfold state
  rw [half_update_other, ← hother, habsent]
  rfl

/-- Both halves share an orchestrator without prepared penalizers. -/
structure Quiet (s : SplitBatches V) : Prop where
  heap : ∃ o : PenalizerOrchestrator V, s.heap = [o] ∧ o.Unprepared
  address : ∀ h info, s.half h = some info → info.penalizerOrchestrator = 0

theorem apply_quiet {o : PenalizerOrchestrator V} (ho : o.Unprepared)
    {partners : SampledBatch V → Prop} (hpartners : ∀ other, partners other → other.Unprepared)
    {info info' : PenalizedInfo V} (haddress : info.penalizerOrchestrator = 0)
    {heap : OrchestratorHeap V} {step : HalfStep V} (hamong : step.Among partners)
    (happly : step.apply [o] info = some (heap, info')) :
    ∃ o' : PenalizerOrchestrator V, heap = [o'] ∧ o'.Unprepared ∧
      info'.penalizerOrchestrator = 0 := by
  cases step with
  | cumulate outputIds =>
    obtain ⟨o', ho', happly⟩ := Option.bind_eq_some_iff.mp happly
    rw [haddress] at ho' happly
    obtain rfl := Option.some.inj ho'
    obtain ⟨cumulated, hcumulated, happly⟩ := Option.bind_eq_some_iff.mp happly
    obtain ⟨rfl, rfl⟩ := Prod.mk.inj (Option.some.inj happly)
    exact ⟨cumulated, rfl, ho.cumulateShaped hcumulated, haddress⟩
  | filter indices =>
    obtain ⟨o', ho', happly⟩ := Option.bind_eq_some_iff.mp happly
    rw [haddress] at ho' happly
    obtain rfl := Option.some.inj ho'
    obtain ⟨filtered, hfiltered, happly⟩ := Option.bind_eq_some_iff.mp happly
    obtain ⟨rows, _, happly⟩ := Option.bind_eq_some_iff.mp happly
    obtain ⟨logitBias, _, happly⟩ := Option.bind_eq_some_iff.mp happly
    obtain ⟨rfl, rfl⟩ := Prod.mk.inj (Option.some.inj happly)
    exact ⟨filtered, rfl, ho.filter hfiltered, rfl⟩
  | merge other =>
    obtain ⟨o', ho', happly⟩ := Option.bind_eq_some_iff.mp happly
    rw [haddress] at ho' happly
    obtain rfl := Option.some.inj ho'
    obtain ⟨merged, hmerged, happly⟩ := Option.bind_eq_some_iff.mp happly
    obtain ⟨logitBias, _, happly⟩ := Option.bind_eq_some_iff.mp happly
    obtain ⟨rfl, rfl⟩ := Prod.mk.inj (Option.some.inj happly)
    exact ⟨merged, rfl, ho.merge (hpartners other hamong) hmerged, rfl⟩

theorem Quiet.step {s s' : SplitBatches V} (hq : s.Quiet) {partners : SampledBatch V → Prop}
    (hpartners : ∀ other, partners other → other.Unprepared) {h : SplitHalf}
    {step : HalfStep V} (hamong : step.Among partners) (next : s.step h step = some s') :
    s'.Quiet ∧ s'.state h.other = s.state h.other := by
  obtain ⟨info, heap, info', hinfo, happly, rfl⟩ := step_cases next
  obtain ⟨o, hheap, ho⟩ := hq.heap
  rw [hheap] at happly
  obtain ⟨o', rfl, ho', haddress⟩ :=
    apply_quiet ho hpartners (hq.address h info hinfo) hamong happly
  have hheap' : (s.update [o'] info' h).heap = [o'] := by
    cases h <;> rfl
  refine ⟨⟨⟨o', hheap', ho'⟩, ?_⟩, ?_⟩
  · intro h' found hfound
    by_cases hsame : h' = h
    · rw [hsame, half_update_self] at hfound
      obtain rfl := Option.some.inj hfound
      exact haddress
    · have hother : h' = h.other := by
        cases h <;> cases h' <;> simp_all [SplitHalf.other]
      rw [hother, half_update_other] at hfound
      exact hq.address h.other found hfound
  · have hpenalizers : o'.penalizers = o.penalizers :=
      funext fun kind => (ho' kind).trans (ho kind).symm
    unfold state
    rw [half_update_other, hheap', hheap]
    cases hother : s.half h.other with
    | none => rfl
    | some found =>
      rw [Option.map_some, Option.map_some, hq.address h.other found hother]
      show some (found, some o'.penalizers) = some (found, some o.penalizers)
      rw [hpenalizers]

theorem Quiet.run {partners : SampledBatch V → Prop} {s s' : SplitBatches V} (hq : s.Quiet)
    (hpartners : ∀ other, partners other → other.Unprepared)
    (hrun : ContinuesTo partners s s') : s'.Quiet := by
  induction hrun with
  | refl => exact hq
  | step _ hamong next ih => exact (ih.step hpartners hamong next).1

end SplitBatches

end FastPP
