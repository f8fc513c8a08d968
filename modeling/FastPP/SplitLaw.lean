import FastPP.SplitIsolation
import Mathlib.Data.List.Range
import Mathlib.Data.List.Perm.Basic

namespace FastPP

open PenalizerOrchestrator

variable {V : Nat}

/-- A half with requests filters the shared orchestrator. -/
theorem PenalizedInfo.makeSubBatch_nonempty {o : PenalizerOrchestrator V}
    {info : PenalizedInfo V} (haddress : info.penalizerOrchestrator = 0)
    (hbias : info.logitBias = none) {indices : List Nat} (hne : indices ≠ [])
    {heap : OrchestratorHeap V} {sub : Option (PenalizedInfo V)}
    (h : info.makeSubBatch [o] indices = some (heap, sub)) :
    ∃ filtered rows, heap = [filtered] ∧ sub = some ⟨rows, none, 0⟩ ∧
      o.filter o.reqs indices = some filtered := by
  unfold makeSubBatch at h
  rw [if_neg hne] at h
  obtain ⟨⟨heap', info'⟩, hbatch, h⟩ := Option.bind_eq_some_iff.mp h
  obtain ⟨rfl, rfl⟩ := Prod.mk.inj (Option.some.inj h)
  obtain ⟨o', ho', hbatch⟩ := Option.bind_eq_some_iff.mp hbatch
  have hcopy : info.copy.penalizerOrchestrator = 0 := haddress
  have hcopyBias : info.copy.logitBias = none := hbias
  rw [hcopy] at ho' hbatch
  obtain rfl := Option.some.inj ho'
  obtain ⟨filtered, hfilter, hbatch⟩ := Option.bind_eq_some_iff.mp hbatch
  obtain ⟨rows, _, hbatch⟩ := Option.bind_eq_some_iff.mp hbatch
  obtain ⟨logitBias, hlogitBias, hbatch⟩ := Option.bind_eq_some_iff.mp hbatch
  rw [hcopyBias] at hlogitBias
  obtain rfl := Option.some.inj hlogitBias
  obtain ⟨rfl, rfl⟩ := Prod.mk.inj (Option.some.inj hbatch)
  exact ⟨filtered, rows, rfl, rfl, hfilter⟩

namespace SampledBatch

/-- Two halves with requests hold the same orchestrator, which was filtered twice. -/
theorem splitBatch_shared {b : SampledBatch V} {keepIndices dropIndices : List Nat}
    (hkeep : keepIndices ≠ []) (hdrop : dropIndices ≠ []) {s : SplitBatches V}
    (h : b.splitBatch keepIndices dropIndices = some s) :
    ∃ once twice kept dropped, s = ⟨[twice], some ⟨kept, none, 0⟩, some ⟨dropped, none, 0⟩⟩ ∧
      b.orchestrator.filter b.orchestrator.reqs keepIndices = some once ∧
      once.filter once.reqs dropIndices = some twice := by
  obtain ⟨⟨heap, keep⟩, hfirst, h⟩ := Option.bind_eq_some_iff.mp h
  obtain ⟨⟨heap', drop⟩, hsecond, h⟩ := Option.bind_eq_some_iff.mp h
  obtain ⟨once, kept, rfl, rfl, hfilter⟩ :=
    PenalizedInfo.makeSubBatch_nonempty rfl rfl hkeep hfirst
  obtain ⟨twice, dropped, rfl, rfl, hfilter'⟩ :=
    PenalizedInfo.makeSubBatch_nonempty rfl rfl hdrop hsecond
  exact ⟨once, twice, kept, dropped, (Option.some.inj h).symm, hfilter, hfilter'⟩

/-- A merge of a half changes the penalizers of the other one when exactly one side has a
penalizer prepared. -/
theorem merge_interferes {o : PenalizerOrchestrator V} (horder : ∀ kind, kind ∈ o.order)
    (hreqs : o.reqs ≠ []) {other : SampledBatch V}
    (hne : ¬ o.Unprepared → other.orchestrator.reqs ≠ [])
    (hon : o.isRequired = true ∨ other.orchestrator.isRequired = true) {kind : PenalizerKind}
    (hprepared : (o.penalizers kind).isSome ≠ (other.orchestrator.penalizers kind).isSome)
    (kept dropped : SamplingBatchInfo) :
    ∃ s', SplitBatches.step ⟨[o], some ⟨kept, none, 0⟩, some ⟨dropped, none, 0⟩⟩ .keep
        (.merge other) = some s' ∧
      s'.state .drop ≠
        SplitBatches.state ⟨[o], some ⟨kept, none, 0⟩, some ⟨dropped, none, 0⟩⟩ .drop := by
  obtain ⟨merged, hmerge, hchanged⟩ :=
    merge_changes horder hreqs other.order hne hon hprepared
  refine ⟨⟨[merged], some ⟨kept.mergeBatch other.rows, none, 0⟩, some ⟨dropped, none, 0⟩⟩,
    ?_, ?_⟩
  · show ((o.merge other.orchestrator).bind _).bind _ = _
    rw [hmerge]
    rfl
  · intro hsame
    have hpair := Option.some.inj hsame
    have hpenalizers : some merged.penalizers = some o.penalizers := congrArg Prod.snd hpair
    exact hchanged (congrFun (Option.some.inj hpenalizers) kind)

theorem length_of_partition {b : SampledBatch V} {keepIndices dropIndices : List Nat}
    (hpart : (keepIndices ++ dropIndices).Perm (List.range b.batchSize)) :
    keepIndices.length + dropIndices.length = b.batchSize := by
  have hlen := hpart.length_eq
  rw [List.length_append, List.length_range] at hlen
  exact hlen

theorem lt_of_partition {b : SampledBatch V} {keepIndices dropIndices : List Nat}
    (hpart : (keepIndices ++ dropIndices).Perm (List.range b.batchSize)) {i : Nat}
    (hi : i ∈ keepIndices ∨ i ∈ dropIndices) : i < b.batchSize :=
  List.mem_range.mp (hpart.mem_iff.mp (List.mem_append.mpr hi))

/-- Two halves with requests stay apart only when no penalizer is ever prepared. -/
theorem unprepared_of_keepsSampling {b : SampledBatch V} {keepIndices dropIndices : List Nat}
    (hkeep : keepIndices ≠ []) (hdrop : dropIndices ≠ [])
    (hpart : (keepIndices ++ dropIndices).Perm (List.range b.batchSize))
    {partners : SampledBatch V → Prop} (hplain : ∀ other, other.Unprepared → partners other)
    (h : b.SplitKeepsSampling keepIndices dropIndices partners) :
    b.Unprepared ∧ ∀ other, partners other → other.Unprepared := by
  obtain ⟨s, hsplit, hkeeps, _, hisolated⟩ := h
  obtain ⟨once, twice, kept, dropped, rfl, honce, htwice⟩ :=
    splitBatch_shared hkeep hdrop hsplit
  obtain ⟨hreqs, horder⟩ := filter_frame honce
  obtain ⟨hreqs', horder'⟩ := filter_frame htwice
  have hmem : ∀ kind, kind ∈ twice.order := by
    intro kind
    rw [horder', horder]
    exact b.mem_order kind
  have hrequests : twice.reqs ≠ [] := by
    rw [hreqs', hreqs]
    refine b.reqs_ne_nil fun hnil => ?_
    have hlen := length_of_partition hpart
    have hpos := List.length_pos_iff.mpr hkeep
    unfold batchSize at hlen
    rw [hnil, List.length_nil] at hlen
    omega
  have hunprepared : b.Unprepared := by
    by_contra hprepared
    obtain ⟨kind, hrows⟩ := not_forall.mp hprepared
    obtain ⟨rows, hrows⟩ := Option.ne_none_iff_exists'.mp hrows
    have hfound : (b.orchestrator.penalizers kind).isSome := by
      rw [hrows]
      rfl
    have hon := isRequired_of_isSome b.unprepared hfound
    -- the first request of the keep half still has its row after the second filter
    obtain ⟨o, ho, hrowsKept⟩ := hkeeps
    obtain rfl := Option.some.inj ho
    obtain ⟨first, rest, rfl⟩ := List.exists_cons_of_ne_nil hkeep
    have hpenalties : twice.penaltyRow kind 0 = b.orchestrator.penaltyRow kind first :=
      congrArg (fun r => RequestSampling.penalties r kind) (hrowsKept 0 first rfl)
    have hsome : (twice.penalizers kind).isSome := by
      unfold penaltyRow at hpenalties
      rw [hrows] at hpenalties
      cases htwiceRows : twice.penalizers kind with
      | none =>
        rw [htwiceRows] at hpenalties
        cases hpenalties
      | some _ => rfl
    have hrequired : penalizerRequired once.reqs kind = true :=
      required_of_filter (horder ▸ b.order) (filter_unprepared b.order b.unprepared honce) htwice
        hsome
    have hon' : once.isRequired = true :=
      filter_isRequired honce hon (b.mem_order kind) (hreqs ▸ hrequired)
    have hon'' : twice.isRequired = true :=
      filter_isRequired htwice hon' (horder ▸ b.mem_order kind) hrequired
    -- even a batch without penalties gets rows in the penalizers of both halves
    obtain ⟨req, _, _⟩ := List.exists_cons_of_ne_nil hrequests
    have hnone : ((plain req.eosTokenId).orchestrator.penalizers kind).isSome = false := by
      rw [plain_unprepared]
      rfl
    have hone : (twice.penalizers kind).isSome ≠
        ((plain req.eosTokenId).orchestrator.penalizers kind).isSome := by
      rw [hsome, hnone]
      decide
    obtain ⟨s', hstep, hchanged⟩ := merge_interferes hmem hrequests
      (fun _ => List.cons_ne_nil _ _) (.inl hon'') hone kept dropped
    exact hchanged (hisolated _ .refl .keep (.merge (plain req.eosTokenId)) s'
      (hplain _ (plain_unprepared _)) hstep)
  refine ⟨hunprepared, ?_⟩
  intro other hother
  have htwice' : twice.Unprepared := (Unprepared.filter hunprepared honce).filter htwice
  by_contra hprepared
  obtain ⟨kind, hrows⟩ := not_forall.mp hprepared
  have hsome : (other.orchestrator.penalizers kind).isSome :=
    Option.isSome_iff_ne_none.mpr hrows
  have hone : (twice.penalizers kind).isSome ≠ (other.orchestrator.penalizers kind).isSome := by
    rw [htwice' kind, hsome]
    exact Bool.false_ne_true
  obtain ⟨s', hstep, hchanged⟩ := merge_interferes hmem hrequests
    (fun hnot => absurd htwice' hnot) (.inr (isRequired_of_isSome other.unprepared hsome)) hone
    kept dropped
  exact hchanged (hisolated _ .refl .keep (.merge other) s' hother hstep)

theorem HoldsRows.address {b : SampledBatch V} {o : PenalizerOrchestrator V}
    {indices : List Nat} {sub : Option (PenalizedInfo V)} (h : b.HoldsRows o indices sub)
    {info : PenalizedInfo V} (hsub : sub = some info) : info.penalizerOrchestrator = 0 := by
  subst hsub
  exact h.2.1

theorem HoldsRows.absent {b : SampledBatch V} {o : PenalizerOrchestrator V}
    {indices : List Nat} {sub : Option (PenalizedInfo V)} (h : b.HoldsRows o indices sub)
    (hnil : indices = []) : sub = none := by
  cases sub with
  | none => rfl
  | some info => exact absurd hnil h.1

/-- The one half of a batch has its rows only if the penalizers covered the batch. -/
theorem covered_of_makeSubBatch {b : SampledBatch V} {indices : List Nat}
    (hall : ∀ i < b.batchSize, i ∈ indices) {o : PenalizerOrchestrator V}
    {rows : SamplingBatchInfo}
    (hfilter : b.orchestrator.filter b.orchestrator.reqs indices = some o)
    (hkept : ∀ row i, indices[row]? = some i →
      requestSampling ⟨rows, none, 0⟩ o row = requestSampling b.info b.orchestrator i) :
    b.Covered := by
  intro kind penalties hpenalties i hi
  obtain ⟨row, hrow⟩ := List.getElem?_of_mem (hall i hi)
  have hsame := congrArg (fun r => RequestSampling.penalties r kind) (hkept row i hrow)
  exact covered_of_filter b.order b.unprepared hfilter hrow hsame hpenalties

/-- A split into one half keeps the rows exactly when the penalizers cover the batch. -/
theorem keepsSampling_one_half {b : SampledBatch V} {keepIndices dropIndices : List Nat}
    (hpart : (keepIndices ++ dropIndices).Perm (List.range b.batchSize))
    (hone : keepIndices = [] ∨ dropIndices = []) (partners : SampledBatch V → Prop) :
    b.SplitKeepsSampling keepIndices dropIndices partners ↔ b.Covered := by
  have hmem : ∀ i < b.batchSize, i ∈ keepIndices ++ dropIndices := fun i hi =>
    hpart.mem_iff.mpr (List.mem_range.mpr hi)
  constructor
  · rintro ⟨s, hsplit, hkeeps, hdrops, _⟩
    by_cases hempty : b.batchSize = 0
    · intro kind rows _ i hi
      omega
    obtain ⟨⟨heap, keep⟩, hfirst, hsplit⟩ := Option.bind_eq_some_iff.mp hsplit
    obtain ⟨⟨heap', drop⟩, hsecond, hsplit⟩ := Option.bind_eq_some_iff.mp hsplit
    obtain rfl := Option.some.inj hsplit
    rcases hone with rfl | rfl
    · obtain ⟨rfl, rfl⟩ := Prod.mk.inj (Option.some.inj hfirst)
      have hne : dropIndices ≠ [] := by
        rintro rfl
        exact absurd (hmem 0 (Nat.pos_of_ne_zero hempty)) List.not_mem_nil
      obtain ⟨o, rows, rfl, rfl, hfilter⟩ :=
        PenalizedInfo.makeSubBatch_nonempty rfl rfl hne hsecond
      obtain ⟨o', ho', hkept⟩ := hdrops
      obtain rfl := Option.some.inj ho'
      exact covered_of_makeSubBatch hmem hfilter hkept
    · obtain ⟨rfl, rfl⟩ := Prod.mk.inj (Option.some.inj hsecond)
      rw [List.append_nil] at hmem
      have hne : keepIndices ≠ [] := by
        rintro rfl
        exact absurd (hmem 0 (Nat.pos_of_ne_zero hempty)) List.not_mem_nil
      obtain ⟨o, rows, rfl, rfl, hfilter⟩ :=
        PenalizedInfo.makeSubBatch_nonempty rfl rfl hne hfirst
      obtain ⟨o', ho', hkept⟩ := hkeeps
      obtain rfl := Option.some.inj ho'
      exact covered_of_makeSubBatch hmem hfilter hkept
  · intro hcovered
    rcases hone with rfl | rfl
    · obtain ⟨o, drop, hdrop, hholds⟩ :=
        makeSubBatch_covered hcovered fun i hi => lt_of_partition hpart (.inr hi)
      refine ⟨⟨[o], none, drop⟩, ?_, rfl, hholds.keepsRequests rfl rfl, ?_⟩
      · unfold splitBatch
        show (PenalizedInfo.makeSubBatch [b.orchestrator] b.info dropIndices).bind _ = _
        rw [hdrop]
        rfl
      · intro s' hrun half step s'' _ next
        have habsent : s'.half .keep = none := SplitBatches.absent_isolated hrun rfl
        exact SplitBatches.absent_state habsent next
    · obtain ⟨o, keep, hkeep, hholds⟩ :=
        makeSubBatch_covered hcovered fun i hi => lt_of_partition hpart (.inl hi)
      refine ⟨⟨[o], keep, none⟩, ?_, hholds.keepsRequests rfl rfl, rfl, ?_⟩
      · unfold splitBatch
        rw [hkeep]
        rfl
      · intro s' hrun half step s'' _ next
        have habsent : s'.half .drop = none := SplitBatches.absent_isolated hrun rfl
        exact SplitBatches.absent_state habsent next

/-- Nothing happens between halves without prepared penalizers. -/
theorem keepsSampling_of_unprepared {b : SampledBatch V} {keepIndices dropIndices : List Nat}
    (hpart : (keepIndices ++ dropIndices).Perm (List.range b.batchSize)) (h : b.Unprepared)
    {partners : SampledBatch V → Prop} (hpartners : ∀ other, partners other → other.Unprepared) :
    b.SplitKeepsSampling keepIndices dropIndices partners := by
  obtain ⟨o, keep, hkeep, horder, ho, hholds⟩ :=
    makeSubBatch_unprepared h b.order h fun i hi => lt_of_partition hpart (.inl hi)
  obtain ⟨o', drop, hdrop, _, ho', hholds'⟩ :=
    makeSubBatch_unprepared h horder ho fun i hi => lt_of_partition hpart (.inr hi)
  have hsame : o'.penalizers = o.penalizers :=
    funext fun kind => (ho' kind).trans (ho kind).symm
  have hkeeps := hholds.congr hsame
  refine ⟨⟨[o'], keep, drop⟩, ?_, hkeeps.keepsRequests rfl rfl, hholds'.keepsRequests rfl rfl, ?_⟩
  · unfold splitBatch
    rw [hkeep]
    show (PenalizedInfo.makeSubBatch [o] b.info dropIndices).bind _ = _
    rw [hdrop]
    rfl
  · have hquiet : SplitBatches.Quiet (⟨[o'], keep, drop⟩ : SplitBatches V) := by
      refine ⟨⟨o', rfl, ho'⟩, ?_⟩
      intro half info hinfo
      cases half with
      | keep => exact hkeeps.address hinfo
      | drop => exact hholds'.address hinfo
    intro s' hrun half step s'' hamong next
    exact ((hquiet.run hpartners hrun).step hpartners hamong next).2

/-- The halves of a split keep their sampling states, and keep them apart, exactly when one
of them is empty and the penalizers cover the batch, or no penalizer is prepared, in the
batch or in any batch merged later. -/
theorem splitKeepsSampling_iff (b : SampledBatch V) {keepIndices dropIndices : List Nat}
    (hpart : (keepIndices ++ dropIndices).Perm (List.range b.batchSize))
    {partners : SampledBatch V → Prop} (hplain : ∀ other, other.Unprepared → partners other) :
    b.SplitKeepsSampling keepIndices dropIndices partners ↔
      ((keepIndices = [] ∨ dropIndices = []) ∧ b.Covered) ∨
        (b.Unprepared ∧ ∀ other, partners other → other.Unprepared) := by
  constructor
  · intro h
    by_cases hone : keepIndices = [] ∨ dropIndices = []
    · exact .inl ⟨hone, (keepsSampling_one_half hpart hone partners).mp h⟩
    · rw [not_or] at hone
      exact .inr (unprepared_of_keepsSampling hone.1 hone.2 hpart hplain h)
  · rintro (⟨hone, hcovered⟩ | ⟨hbatch, hpartners⟩)
    · exact (keepsSampling_one_half hpart hone partners).mpr hcovered
    · exact keepsSampling_of_unprepared hpart hbatch hpartners

/-- The batch with the orchestrator of another one. -/
def holding (b b' : SampledBatch V) (hreqs : b'.orchestrator.reqs ≠ []) : SampledBatch V where
  rows := b.rows
  orchestrator := b'.orchestrator
  topPs_length := b.topPs_length
  topKs_length := b.topKs_length
  minPs_length := b.minPs_length
  order := b'.order
  unprepared := b'.unprepared
  reqs_ne_nil _ := hreqs

/-- Two requests with a frequency penalty. -/
def frequent : SampledBatch 2 where
  rows := ⟨[1, 1], [1, 1], [50, 50], [0, 0], false, false⟩
  orchestrator := .new PenalizerKind.all
    [⟨[0], 1, 0, 1, 0, [], [], 0⟩, ⟨[1], 1, 0, 1, 0, [], [], 0⟩]
  topPs_length := rfl
  topKs_length := rfl
  minPs_length := rfl
  order := .refl _
  unprepared hoff := absurd hoff (by decide)
  reqs_ne_nil _ := List.cons_ne_nil _ _

theorem splitKeepsSampling_iff_frequent :
    ([1, 0] ++ [] : List Nat).Perm (List.range 2) ∧
      (frequent.SplitKeepsSampling [1, 0] [] (fun _ => True) ↔
        (([1, 0] = ([] : List Nat) ∨ ([] : List Nat) = []) ∧ frequent.Covered) ∨
          (frequent.Unprepared ∧ ∀ other : SampledBatch 2, True → other.Unprepared)) :=
  ⟨by decide, splitKeepsSampling_iff frequent (by decide) (fun _ _ => trivial)⟩

/-- The second half asks for row 1 of what the first left, which is one row. -/
theorem split_reads_missing_row :
    ¬ frequent.SplitKeepsSampling [0] [1] (fun _ => True) := by
  rintro ⟨s, hsplit, _⟩
  have hraised : (frequent.splitBatch [0] [1]).isNone = true := by decide
  rw [hsplit] at hraised
  cases hraised

end SampledBatch

namespace SplitBatches

/-- The halves are batches with the orchestrator on the heap. -/
structure Sampled (s : SplitBatches V) (o : PenalizerOrchestrator V) : Prop where
  heap : s.heap = [o]
  half : ∀ h info, s.half h = some info →
    ∃ b : SampledBatch V, b.info = info ∧ b.orchestrator = o ∧ o.reqs ≠ []

theorem filterBatch_sampled {b : SampledBatch V} {indices : List Nat}
    (hreqs : b.orchestrator.reqs ≠ []) {heap : OrchestratorHeap V} {info : PenalizedInfo V}
    (h : PenalizedInfo.filterBatch [b.orchestrator] b.info indices = some (heap, info)) :
    ∃ b' : SampledBatch V, b'.info = info ∧ heap = [b'.orchestrator] ∧
      b'.orchestrator.reqs ≠ [] := by
  obtain ⟨filtered, hfilter, h⟩ := Option.bind_eq_some_iff.mp h
  obtain ⟨rows, hrows, h⟩ := Option.bind_eq_some_iff.mp h
  obtain ⟨logitBias, hbias, h⟩ := Option.bind_eq_some_iff.mp h
  obtain rfl := Option.some.inj hbias
  obtain ⟨rfl, rfl⟩ := Prod.mk.inj (Option.some.inj h)
  obtain ⟨temperatures, htemperatures, hrows⟩ := Option.bind_eq_some_iff.mp hrows
  obtain ⟨topPs, htopPs, hrows⟩ := Option.bind_eq_some_iff.mp hrows
  obtain ⟨topKs, htopKs, hrows⟩ := Option.bind_eq_some_iff.mp hrows
  obtain ⟨minPs, hminPs, hrows⟩ := Option.bind_eq_some_iff.mp hrows
  obtain rfl := Option.some.inj hrows
  obtain ⟨hkept, horder⟩ := filter_frame hfilter
  have hlength := (gather_length htemperatures).symm
  have hreqs' : filtered.reqs ≠ [] := by
    rw [hkept]
    exact hreqs
  let after : SampledBatch V :=
    { rows := { b.rows with temperatures, topPs, topKs, minPs }
      orchestrator := filtered
      topPs_length := (gather_length htopPs).trans hlength
      topKs_length := (gather_length htopKs).trans hlength
      minPs_length := (gather_length hminPs).trans hlength
      order := by
        rw [horder]
        exact b.order
      unprepared := filter_unprepared b.order b.unprepared hfilter
      reqs_ne_nil := fun _ => hreqs' }
  exact ⟨after, rfl, rfl, hreqs'⟩

theorem length_append_congr {α β : Type} {xs xs' : List α} {ys ys' : List β}
    (h : xs.length = ys.length) (h' : xs'.length = ys'.length) :
    (xs ++ xs').length = (ys ++ ys').length := by
  rw [List.length_append, List.length_append, h, h']

theorem mergeBatch_sampled {b other : SampledBatch V} (hreqs : b.orchestrator.reqs ≠ [])
    {heap : OrchestratorHeap V} {info : PenalizedInfo V}
    (h : PenalizedInfo.mergeBatch [b.orchestrator] b.info other = some (heap, info)) :
    ∃ b' : SampledBatch V, b'.info = info ∧ heap = [b'.orchestrator] ∧
      b'.orchestrator.reqs ≠ [] := by
  obtain ⟨merged, hmerge, h⟩ := Option.bind_eq_some_iff.mp h
  obtain ⟨logitBias, hbias, h⟩ := Option.bind_eq_some_iff.mp h
  obtain rfl := Option.some.inj hbias
  obtain ⟨rfl, rfl⟩ := Prod.mk.inj (Option.some.inj h)
  have hframe : merged.reqs = b.orchestrator.reqs ∧ merged.order = b.orchestrator.order ∧
      (merged.isRequired = false → merged.Unprepared) := by
    unfold PenalizerOrchestrator.merge at hmerge
    split at hmerge
    next =>
      obtain rfl := Option.some.inj hmerge
      exact ⟨rfl, rfl, b.unprepared⟩
    next hon =>
      obtain ⟨penalizers, _, hmerge⟩ := Option.bind_eq_some_iff.mp hmerge
      obtain rfl := Option.some.inj hmerge
      refine ⟨rfl, rfl, fun hoff => absurd ?_ hon⟩
      have hboth : (b.orchestrator.isRequired || other.orchestrator.isRequired) = false := hoff
      simpa using hboth
  obtain ⟨hkept, horder, hunprepared⟩ := hframe
  have hreqs' : merged.reqs ≠ [] := by
    rw [hkept]
    exact hreqs
  let after : SampledBatch V :=
    { rows := b.rows.mergeBatch other.rows
      orchestrator := merged
      topPs_length := length_append_congr b.topPs_length other.topPs_length
      topKs_length := length_append_congr b.topKs_length other.topKs_length
      minPs_length := length_append_congr b.minPs_length other.minPs_length
      order := by
        rw [horder]
        exact b.order
      unprepared := hunprepared
      reqs_ne_nil := fun _ => hreqs' }
  exact ⟨after, rfl, rfl, hreqs'⟩

theorem cumulate_sampled {b : SampledBatch V} (hreqs : b.orchestrator.reqs ≠ [])
    {outputIds : List (Fin V)} {heap : OrchestratorHeap V} {info : PenalizedInfo V}
    (h : PenalizedInfo.cumulateOutputTokens [b.orchestrator] b.info outputIds =
      some (heap, info)) :
    ∃ b' : SampledBatch V, b'.info = info ∧ heap = [b'.orchestrator] ∧
      b'.orchestrator.reqs ≠ [] := by
  obtain ⟨cumulated, hcumulate, h⟩ := Option.bind_eq_some_iff.mp h
  obtain ⟨rfl, rfl⟩ := Prod.mk.inj (Option.some.inj h)
  unfold cumulateShaped at hcumulate
  split at hcumulate
  next hon =>
    obtain ⟨penalizers, _, hcumulate⟩ := Option.bind_eq_some_iff.mp hcumulate
    obtain rfl := Option.some.inj hcumulate
    let after : SampledBatch V :=
      { b with
        orchestrator := { b.orchestrator with penalizers }
        order := b.order
        unprepared := fun hoff => absurd hon (by simpa using hoff)
        reqs_ne_nil := fun _ => hreqs }
    exact ⟨after, rfl, rfl, hreqs⟩
  next =>
    obtain rfl := Option.some.inj hcumulate
    exact ⟨b, rfl, rfl, hreqs⟩

theorem Sampled.step {s s' : SplitBatches V} {o : PenalizerOrchestrator V} (hs : s.Sampled o)
    {h : SplitHalf} {step : HalfStep V} (next : s.step h step = some s') :
    ∃ o', s'.Sampled o' := by
  obtain ⟨info, heap, info', hinfo, happly, rfl⟩ := step_cases next
  obtain ⟨b, rfl, rfl, hreqs⟩ := hs.half h info hinfo
  rw [hs.heap] at happly
  have hafter : ∃ b' : SampledBatch V, b'.info = info' ∧ heap = [b'.orchestrator] ∧
      b'.orchestrator.reqs ≠ [] := by
    cases step with
    | cumulate outputIds => exact cumulate_sampled hreqs happly
    | filter indices => exact filterBatch_sampled hreqs happly
    | merge other => exact mergeBatch_sampled hreqs happly
  obtain ⟨b', rfl, rfl, hreqs'⟩ := hafter
  refine ⟨b'.orchestrator, ?_, ?_⟩
  · cases h <;> rfl
  · intro h' found hfound
    by_cases hsame : h' = h
    · rw [hsame, half_update_self] at hfound
      exact ⟨b', Option.some.inj hfound, rfl, hreqs'⟩
    · have hother : h' = h.other := by
        cases h <;> cases h' <;> simp_all [SplitHalf.other]
      rw [hother, half_update_other] at hfound
      obtain ⟨other, rfl, _, _⟩ := hs.half h.other found hfound
      exact ⟨other.holding b' hreqs', rfl, rfl, hreqs'⟩

theorem makeSubBatch_sampled {b : SampledBatch V} {indices : List Nat}
    {heap : OrchestratorHeap V} {sub : Option (PenalizedInfo V)}
    (h : b.info.makeSubBatch [b.orchestrator] indices = some (heap, sub)) :
    (sub = none ∧ heap = [b.orchestrator]) ∨ ∃ b' : SampledBatch V, sub = some b'.info ∧
      heap = [b'.orchestrator] ∧ b'.orchestrator.reqs ≠ [] := by
  unfold PenalizedInfo.makeSubBatch at h
  split at h
  next =>
    obtain ⟨rfl, rfl⟩ := Prod.mk.inj (Option.some.inj h)
    exact .inl ⟨rfl, rfl⟩
  next hne =>
    obtain ⟨⟨heap', info⟩, hbatch, h⟩ := Option.bind_eq_some_iff.mp h
    obtain ⟨rfl, rfl⟩ := Prod.mk.inj (Option.some.inj h)
    have hreqs : b.orchestrator.reqs ≠ [] := by
      refine b.reqs_ne_nil fun hnil => ?_
      obtain ⟨_, _, hbatch⟩ := Option.bind_eq_some_iff.mp hbatch
      obtain ⟨rows, hrows, _⟩ := Option.bind_eq_some_iff.mp hbatch
      obtain ⟨temperatures, htemperatures, _⟩ := Option.bind_eq_some_iff.mp hrows
      obtain ⟨i, hi⟩ := List.exists_mem_of_ne_nil _ hne
      have hlt : i < b.rows.temperatures.length := lt_of_gather htemperatures hi
      rw [hnil] at hlt
      exact absurd hlt (Nat.not_lt_zero i)
    obtain ⟨b', rfl, hheap, hreqs'⟩ := filterBatch_sampled hreqs hbatch
    exact .inr ⟨b', rfl, hheap, hreqs'⟩

/-- The halves are batches when they are made. -/
theorem splitBatch_sampled {b : SampledBatch V} {keepIndices dropIndices : List Nat}
    {s : SplitBatches V} (h : b.splitBatch keepIndices dropIndices = some s) :
    ∃ o, s.Sampled o := by
  obtain ⟨⟨heap, keep⟩, hfirst, h⟩ := Option.bind_eq_some_iff.mp h
  obtain ⟨⟨heap', drop⟩, hsecond, h⟩ := Option.bind_eq_some_iff.mp h
  obtain rfl := Option.some.inj h
  rcases makeSubBatch_sampled hfirst with ⟨rfl, rfl⟩ | ⟨kept, rfl, rfl, hreqs⟩
  · rcases makeSubBatch_sampled hsecond with ⟨rfl, rfl⟩ | ⟨dropped, rfl, rfl, hreqs⟩
    · refine ⟨b.orchestrator, rfl, ?_⟩
      intro half info hinfo
      cases half <;> cases hinfo
    · refine ⟨dropped.orchestrator, rfl, ?_⟩
      intro half info hinfo
      cases half with
      | keep => cases hinfo
      | drop => exact ⟨dropped, Option.some.inj hinfo, rfl, hreqs⟩
  · have hsecond' : (b.holding kept hreqs).info.makeSubBatch
        [(b.holding kept hreqs).orchestrator] dropIndices = some (heap', drop) := hsecond
    rcases makeSubBatch_sampled hsecond' with ⟨rfl, rfl⟩ | ⟨dropped, rfl, rfl, hreqs'⟩
    · refine ⟨kept.orchestrator, rfl, ?_⟩
      intro half info hinfo
      cases half with
      | keep => exact ⟨kept, Option.some.inj hinfo, rfl, hreqs⟩
      | drop => cases hinfo
    · refine ⟨dropped.orchestrator, rfl, ?_⟩
      intro half info hinfo
      cases half with
      | keep => exact ⟨kept.holding dropped hreqs', Option.some.inj hinfo, rfl, hreqs'⟩
      | drop => exact ⟨dropped, Option.some.inj hinfo, rfl, hreqs'⟩

/-- What the halves of a split become are batches again, to be split like any other. -/
theorem half_sampled {b : SampledBatch V} {keepIndices dropIndices : List Nat}
    {s s' : SplitBatches V} (hsplit : b.splitBatch keepIndices dropIndices = some s)
    {partners : SampledBatch V → Prop} (hrun : s.ContinuesTo partners s') {h : SplitHalf}
    {info : PenalizedInfo V} (hinfo : s'.half h = some info) :
    ∃ b' : SampledBatch V, b'.info = info ∧ s'.heap = [b'.orchestrator] := by
  have hsampled : ∃ o, s'.Sampled o := by
    clear hinfo
    induction hrun with
    | refl => exact splitBatch_sampled hsplit
    | step _ _ next ih =>
      obtain ⟨o, ho⟩ := ih
      exact ho.step next
  obtain ⟨o, ho⟩ := hsampled
  obtain ⟨b', hb', rfl, _⟩ := ho.half h info hinfo
  exact ⟨b', hb', ho.heap⟩

end SplitBatches

end FastPP
