import FastPP.SplitSampling

namespace FastPP

variable {V : Nat}

theorem gather_getElem? {α : Type} {values result : List α} {indices : List Nat}
    (h : gather values indices = some result) {row i : Nat} (hrow : indices[row]? = some i) :
    result[row]? = values[i]? := by
  induction indices generalizing result row with
  | nil => simp at hrow
  | cons j indices ih =>
    rw [gather_cons] at h
    obtain ⟨value, hvalue, h⟩ := Option.bind_eq_some_iff.mp h
    obtain ⟨rest, hrest, h⟩ := Option.bind_eq_some_iff.mp h
    obtain rfl := Option.some.inj h
    cases row with
    | zero =>
      obtain rfl := Option.some.inj hrow
      exact hvalue.symm
    | succ row => exact ih hrest hrow

theorem map_eq_zipWith {α β : Type} {f : α → α} {g : β → α → α} (hfg : ∀ b a, g b a = f a)
    {xs : List β} {ys : List α} (hlen : xs.length = ys.length) :
    ys.map f = List.zipWith g xs ys := by
  apply List.ext_getElem
  · simp [hlen]
  · intro i _ _
    rw [List.getElem_map, List.getElem_zipWith, hfg]

theorem lt_of_gather {α : Type} {values result : List α} {indices : List Nat}
    (h : gather values indices = some result) {i : Nat} (hi : i ∈ indices) : i < values.length := by
  obtain ⟨row, hrow, rfl⟩ := List.getElem_of_mem hi
  have hresult := gather_getElem? h (List.getElem?_eq_getElem hrow)
  rw [List.getElem?_eq_getElem (by rw [gather_length h]; exact hrow)] at hresult
  exact (List.getElem?_eq_some_iff.mp hresult.symm).1

namespace PenalizerOrchestrator

theorem nodup_of_perm_all {order : List PenalizerKind} (h : order.Perm PenalizerKind.all) :
    order.Nodup :=
  h.nodup_iff.mpr (by decide)

theorem mapIdx_eq_zipWith {f : α → β → β} {g : Nat → β → β} {xs : List α} {ys : List β}
    (hlen : xs.length = ys.length) (hg : ∀ i (hi : i < xs.length) (y : β), g i y = f xs[i] y) :
    ys.mapIdx g = List.zipWith f xs ys := by
  apply List.ext_getElem
  · simp [hlen]
  · intro i hi _
    rw [List.length_mapIdx] at hi
    rw [List.getElem_mapIdx, List.getElem_zipWith, hg i (by omega)]

/-- One output token for every row. -/
theorem cumulatePenalizer_eq (kind : PenalizerKind) {outputIds : List (Fin V)}
    {rows : List (kind.Row V)} (hlen : outputIds.length = rows.length) :
    cumulatePenalizer rows.length outputIds kind rows =
      some (List.zipWith (fun token row => kind.cumulateOutputRow token row) outputIds rows) := by
  have hindex : ∀ i < outputIds.length, (if rows.length = 1 then 0 else i) = i := by
    intro i hi
    split <;> omega
  cases kind with
  | minNewTokens =>
    have hrow : ∀ (token : Fin V) (row : MinNewTokensRow V),
        PenalizerKind.minNewTokens.cumulateOutputRow token row =
          { row with lenOutputTokens := row.lenOutputTokens + 1 } := fun _ _ => rfl
    exact congrArg some (map_eq_zipWith hrow hlen)
  | frequency | presence | repetition =>
    refine (if_pos ⟨hlen.le, .inl rfl⟩).trans
      (congrArg some (mapIdx_eq_zipWith hlen fun i hi row => ?_))
    rw [hindex i hi, List.getElem?_eq_getElem hi]

/-- On an orchestrator that fits its batch the tensors have the right sizes. -/
theorem Fits.cumulateShaped_eq {o : PenalizerOrchestrator V} {hist : OutputHistory V}
    (h : o.Fits hist) {outputIds : List (Fin V)} (hlen : outputIds.length = hist.length) :
    o.cumulateShaped outputIds = some (o.cumulateOutputTokens outputIds) := by
  unfold cumulateShaped cumulateOutputTokens
  by_cases hon : o.isRequired = true
  · rw [if_pos hon, if_pos hon]
    have heach : ∀ kind ∈ o.order, ∃ rows', cumulateEach o.reqs.length outputIds kind
        (o.penalizers kind) = some rows' ∧ rows' = (o.penalizers kind).map fun rows =>
          List.zipWith (fun token row => kind.cumulateOutputRow token row) outputIds rows := by
      intro kind _
      refine ⟨_, ?_, rfl⟩
      have hfits := h.penalizers kind
      cases hrows : o.penalizers kind with
      | none => rfl
      | some rows =>
        rw [hrows] at hfits
        have hrowsLen : rows.length = hist.length := hfits.2.length_eq.symm
        have hreqs : o.reqs.length = rows.length := by
          rw [h.reqs, List.length_map, hrowsLen]
        show (cumulatePenalizer o.reqs.length outputIds kind rows).map some = _
        rw [hreqs, cumulatePenalizer_eq kind (hlen.trans hrowsLen.symm)]
        rfl
    obtain ⟨updated, hupdate, hP⟩ := updateEach_spec h.order_nodup heach
    rw [hupdate]
    have hall : updated = fun kind => (o.penalizers kind).map fun rows =>
        List.zipWith (fun token row => kind.cumulateOutputRow token row) outputIds rows :=
      funext fun kind => hP kind (h.mem_order kind)
    rw [hall]
    rfl
  · rw [if_neg hon, if_neg hon]

/-- Filtering keeps the object, its requests and the order of its penalizers. -/
theorem filter_frame {o filtered : PenalizerOrchestrator V} {indices : List Nat}
    (h : o.filter o.reqs indices = some filtered) :
    filtered.reqs = o.reqs ∧ filtered.order = o.order := by
  unfold PenalizerOrchestrator.filter at h
  split at h
  next =>
    obtain ⟨penalizers, _, h⟩ := Option.bind_eq_some_iff.mp h
    obtain rfl := Option.some.inj h
    exact ⟨rfl, rfl⟩
  next =>
    obtain rfl := Option.some.inj h
    exact ⟨rfl, rfl⟩

theorem filter_of_not_required {o : PenalizerOrchestrator V} (hoff : o.isRequired = false)
    (indices : List Nat) : o.filter o.reqs indices = some o := by
  unfold PenalizerOrchestrator.filter
  rw [if_neg (by simp [hoff])]

/-- The rows of the penalizers follow the index list, also when the requests that the
orchestrator consults are those of another batch. -/
theorem filter_covered {o : PenalizerOrchestrator V} (horder : o.order.Perm PenalizerKind.all)
    (hunprepared : o.isRequired = false → o.Unprepared) {indices : List Nat} (hne : indices ≠ [])
    (hcovered : ∀ kind rows, o.penalizers kind = some rows →
      ∀ i ∈ indices, penalizerRequired o.reqs kind = true ∧ i < rows.length) :
    ∃ filtered, o.filter o.reqs indices = some filtered ∧
      ∀ kind row i, indices[row]? = some i →
        filtered.penaltyRow kind row = o.penaltyRow kind i := by
  by_cases hon : o.isRequired = true
  · have heach : ∀ kind ∈ o.order, ∃ rows', filterPenalizer o.reqs indices kind
        (o.penalizers kind) = some rows' ∧ ∀ (row i : Nat), indices[row]? = some i →
          (rows'.map fun rows : List (kind.Row V) => rows[row]?) = o.penaltyRow kind i := by
      intro kind _
      unfold penaltyRow
      cases hrows : o.penalizers kind with
      | none =>
        refine ⟨none, ?_, fun _ _ _ => rfl⟩
        unfold filterPenalizer
        split <;> rfl
      | some rows =>
        obtain ⟨kept, hkept⟩ := gather_of_lt fun i hi => (hcovered kind rows hrows i hi).2
        refine ⟨some kept, ?_, ?_⟩
        · obtain ⟨first, hfirst⟩ := List.exists_mem_of_ne_nil _ hne
          have hrequired := (hcovered kind rows hrows first hfirst).1
          unfold filterPenalizer
          rw [if_neg (by simp [hrequired, hne])]
          show (gather rows indices).map some = _
          rw [hkept]
          rfl
        · intro row i hrow
          show some kept[row]? = some rows[i]?
          rw [gather_getElem? hkept hrow]
    obtain ⟨updated, hupdate, hP⟩ := updateEach_spec (nodup_of_perm_all horder) heach
    have hfilter : o.filter o.reqs indices = some
        { o with penalizers := updated, isRequired := o.order.any (penalizerRequired o.reqs) } := by
      unfold PenalizerOrchestrator.filter
      rw [if_pos hon, hupdate]
      rfl
    exact ⟨_, hfilter, fun kind => hP kind (horder.mem_iff.mpr (mem_all kind))⟩
  · have hoff : o.isRequired = false := by simpa using hon
    refine ⟨o, filter_of_not_required hoff indices, ?_⟩
    intro kind row i _
    unfold penaltyRow
    rw [hunprepared hoff kind]
    rfl

theorem updateEach_unprepared {update : (kind : PenalizerKind) → Option (List (kind.Row V)) →
      Option (Option (List (kind.Row V)))}
    (hnone : ∀ kind rows, update kind none = some rows → rows = none)
    {kinds : List PenalizerKind}
    {penalizers updated : (kind : PenalizerKind) → Option (List (kind.Row V))}
    (h : updateEach update kinds penalizers = some updated)
    (hunprepared : ∀ kind, penalizers kind = none) : ∀ kind, updated kind = none := by
  induction kinds generalizing penalizers with
  | nil =>
    obtain rfl := Option.some.inj h
    exact hunprepared
  | cons head kinds ih =>
    obtain ⟨rows, hrows, h⟩ := Option.bind_eq_some_iff.mp h
    rw [hunprepared head] at hrows
    refine ih h fun kind => ?_
    by_cases hkind : kind = head
    · subst hkind
      rw [Function.update_self]
      exact hnone kind rows hrows
    · rw [Function.update_of_ne hkind, hunprepared kind]

theorem Unprepared.filter {o filtered : PenalizerOrchestrator V} (h : o.Unprepared)
    {reqs : List (PenalizedReq V)} {indices : List Nat}
    (hfilter : o.filter reqs indices = some filtered) : filtered.Unprepared := by
  unfold PenalizerOrchestrator.filter at hfilter
  split at hfilter
  next =>
    obtain ⟨penalizers, hupdate, hfilter⟩ := Option.bind_eq_some_iff.mp hfilter
    obtain rfl := Option.some.inj hfilter
    refine updateEach_unprepared (fun kind rows hrows => ?_) hupdate h
    unfold filterPenalizer at hrows
    split at hrows <;> exact (Option.some.inj hrows).symm
  next =>
    obtain rfl := Option.some.inj hfilter
    exact h

theorem Unprepared.cumulateShaped {o cumulated : PenalizerOrchestrator V} (h : o.Unprepared)
    {outputIds : List (Fin V)} (hcumulate : o.cumulateShaped outputIds = some cumulated) :
    cumulated.Unprepared := by
  unfold PenalizerOrchestrator.cumulateShaped at hcumulate
  split at hcumulate
  next =>
    obtain ⟨penalizers, hupdate, hcumulate⟩ := Option.bind_eq_some_iff.mp hcumulate
    obtain rfl := Option.some.inj hcumulate
    refine updateEach_unprepared (fun kind rows hrows => ?_) hupdate h
    exact (Option.some.inj hrows).symm
  next =>
    obtain rfl := Option.some.inj hcumulate
    exact h

theorem Unprepared.merge {o their merged : PenalizerOrchestrator V} (h : o.Unprepared)
    (htheir : their.Unprepared) (hmerge : o.merge their = some merged) : merged.Unprepared := by
  unfold PenalizerOrchestrator.merge at hmerge
  split at hmerge
  next =>
    obtain rfl := Option.some.inj hmerge
    exact h
  next =>
    obtain ⟨penalizers, hupdate, hmerge⟩ := Option.bind_eq_some_iff.mp hmerge
    obtain rfl := Option.some.inj hmerge
    refine updateEach_unprepared (fun kind rows hrows => ?_) hupdate h
    unfold mergeTheirs at hrows
    split at hrows
    · rw [htheir kind] at hrows
      exact (Option.some.inj hrows).symm
    · cases hrows

/-- The loop keeps the flag and the tensors apart: what is not required has none. -/
theorem filter_unprepared {o filtered : PenalizerOrchestrator V}
    (horder : o.order.Perm PenalizerKind.all) (h : o.isRequired = false → o.Unprepared)
    {reqs : List (PenalizedReq V)} {indices : List Nat}
    (hfilter : o.filter reqs indices = some filtered) :
    filtered.isRequired = false → filtered.Unprepared := by
  intro hoff
  by_cases hon : o.isRequired = true
  · unfold PenalizerOrchestrator.filter at hfilter
    rw [if_pos hon] at hfilter
    obtain ⟨penalizers, hupdate, hfilter⟩ := Option.bind_eq_some_iff.mp hfilter
    obtain rfl := Option.some.inj hfilter
    have heach : ∀ kind ∈ o.order, ∃ rows', filterPenalizer reqs indices kind
        (o.penalizers kind) = some rows' ∧ rows' = none := by
      intro kind hkind
      have hnot : penalizerRequired reqs kind = false := by
        simpa using List.any_eq_false.mp hoff kind hkind
      refine ⟨none, ?_, rfl⟩
      unfold filterPenalizer
      rw [if_pos (.inl hnot)]
    obtain ⟨updated, hupdate', hP⟩ := updateEach_spec (nodup_of_perm_all horder) heach
    rw [hupdate] at hupdate'
    obtain rfl := Option.some.inj hupdate'
    exact fun kind => hP kind (horder.mem_iff.mpr (mem_all kind))
  · exact (h (by simpa using hon)).filter hfilter

/-- What a filter does to one penalizer. -/
theorem filter_penalizer {o filtered : PenalizerOrchestrator V}
    (horder : o.order.Perm PenalizerKind.all) (hon : o.isRequired = true) {indices : List Nat}
    (h : o.filter o.reqs indices = some filtered) (kind : PenalizerKind) :
    filterPenalizer o.reqs indices kind (o.penalizers kind) = some (filtered.penalizers kind) := by
  unfold PenalizerOrchestrator.filter at h
  rw [if_pos hon] at h
  obtain ⟨penalizers, hupdate, h⟩ := Option.bind_eq_some_iff.mp h
  obtain rfl := Option.some.inj h
  have hnodup := nodup_of_perm_all horder
  have heach : ∀ kind' ∈ o.order, ∃ rows', filterPenalizer o.reqs indices kind'
      (o.penalizers kind') = some rows' ∧
        filterPenalizer o.reqs indices kind' (o.penalizers kind') = some rows' := by
    intro kind' hmem'
    obtain ⟨rows', hrows'⟩ :=
      Option.isSome_iff_exists.mp (updateEach_isSome hnodup hupdate kind' hmem')
    exact ⟨rows', hrows', hrows'⟩
  obtain ⟨updated, hupdate', hP⟩ := updateEach_spec hnodup heach
  rw [hupdate] at hupdate'
  obtain rfl := Option.some.inj hupdate'
  exact hP kind (horder.mem_iff.mpr (mem_all kind))

theorem isRequired_of_isSome {o : PenalizerOrchestrator V}
    (h : o.isRequired = false → o.Unprepared) {kind : PenalizerKind}
    (hsome : (o.penalizers kind).isSome) : o.isRequired = true := by
  by_contra hoff
  rw [h (by simpa using hoff) kind] at hsome
  cases hsome

/-- A filter that keeps the row of a request shows that the penalizers covered it. -/
theorem covered_of_filter {o filtered : PenalizerOrchestrator V}
    (horder : o.order.Perm PenalizerKind.all) (hunprepared : o.isRequired = false → o.Unprepared)
    {indices : List Nat} (h : o.filter o.reqs indices = some filtered) {row i : Nat}
    (hrow : indices[row]? = some i) {kind : PenalizerKind}
    (hkept : filtered.penaltyRow kind row = o.penaltyRow kind i)
    {rows : List (kind.Row V)} (hrows : o.penalizers kind = some rows) :
    penalizerRequired o.reqs kind = true ∧ i < rows.length := by
  have hsome : (o.penalizers kind).isSome := by
    rw [hrows]
    rfl
  have hon := isRequired_of_isSome hunprepared hsome
  have hfiltered := filter_penalizer horder hon h kind
  unfold penaltyRow at hkept
  rw [hrows] at hfiltered hkept
  unfold filterPenalizer at hfiltered
  have hne : indices ≠ [] := by
    rintro rfl
    cases hrow
  split at hfiltered
  next =>
    rw [← Option.some.inj hfiltered] at hkept
    cases hkept
  next hrequired =>
    obtain ⟨kept, hgather, _⟩ := Option.map_eq_some_iff.mp hfiltered
    simp only [hne, or_false, Bool.not_eq_false] at hrequired
    exact ⟨hrequired, lt_of_gather hgather (List.mem_of_getElem? hrow)⟩

/-- A penalizer that is prepared after a filter is required. -/
theorem required_of_filter {o filtered : PenalizerOrchestrator V}
    (horder : o.order.Perm PenalizerKind.all) (hunprepared : o.isRequired = false → o.Unprepared)
    {indices : List Nat} (h : o.filter o.reqs indices = some filtered) {kind : PenalizerKind}
    (hsome : (filtered.penalizers kind).isSome) : penalizerRequired o.reqs kind = true := by
  by_cases hon : o.isRequired = true
  · have hfiltered := filter_penalizer horder hon h kind
    unfold filterPenalizer at hfiltered
    split at hfiltered
    next =>
      rw [← Option.some.inj hfiltered] at hsome
      cases hsome
    next hrequired =>
      simp only [not_or, Bool.not_eq_false] at hrequired
      exact hrequired.1
  · rw [(hunprepared (by simpa using hon)).filter h kind] at hsome
    cases hsome

/-- The flag is computed from the requests of the whole batch. -/
theorem filter_isRequired {o filtered : PenalizerOrchestrator V} {indices : List Nat}
    (h : o.filter o.reqs indices = some filtered) (hon : o.isRequired = true)
    {kind : PenalizerKind} (hmem : kind ∈ o.order)
    (hrequired : penalizerRequired o.reqs kind = true) : filtered.isRequired = true := by
  unfold PenalizerOrchestrator.filter at h
  rw [if_pos hon] at h
  obtain ⟨penalizers, _, h⟩ := Option.bind_eq_some_iff.mp h
  obtain rfl := Option.some.inj h
  exact List.any_eq_true.mpr ⟨kind, hmem, hrequired⟩

theorem prepare_of_ne_nil (kind : PenalizerKind) {reqs : List (PenalizedReq V)} (h : reqs ≠ []) :
    kind.prepare reqs = some (reqs.map kind.prepareRow) := by
  rw [PenalizerKind.prepare, if_neg (fun hnil => h hnil.2)]

/-- A merge changes every penalizer that exactly one of the sides has prepared. -/
theorem merge_changes {o their : PenalizerOrchestrator V} (horder : ∀ kind, kind ∈ o.order)
    (hreqs : o.reqs ≠ []) (htheirs : their.order.Perm PenalizerKind.all)
    (hne : ¬ o.Unprepared → their.reqs ≠ [])
    (hon : o.isRequired = true ∨ their.isRequired = true) {kind : PenalizerKind}
    (hprepared : (o.penalizers kind).isSome ≠ (their.penalizers kind).isSome) :
    ∃ merged, o.merge their = some merged ∧ merged.penalizers kind ≠ o.penalizers kind := by
  have heach : ∀ kind' ∈ their.order, ∃ rows', mergeTheirs o their kind' (o.penalizers kind') =
      some rows' ∧ ((o.penalizers kind').isSome ≠ (their.penalizers kind').isSome →
        rows' ≠ o.penalizers kind') := by
    intro kind' _
    unfold mergeTheirs
    rw [if_pos (horder kind')]
    unfold mergePenalizer
    cases hours : o.penalizers kind' with
    | none =>
      cases hrows : their.penalizers kind' with
      | none => exact ⟨none, rfl, fun h => absurd rfl h⟩
      | some rows =>
        rw [prepare_of_ne_nil kind' hreqs]
        refine ⟨_, rfl, ?_⟩
        intro _ hcontra
        cases hcontra
    | some ours =>
      have htheirReqs : their.reqs ≠ [] := by
        refine hne fun hunprepared => ?_
        rw [hunprepared kind'] at hours
        cases hours
      cases hrows : their.penalizers kind' with
      | none =>
        rw [prepare_of_ne_nil kind' htheirReqs]
        refine ⟨_, rfl, ?_⟩
        intro _ hcontra
        have hlength := congrArg List.length (Option.some.inj hcontra)
        rw [List.length_append, List.length_map] at hlength
        have hpos := List.length_pos_iff.mpr htheirReqs
        omega
      | some rows => exact ⟨_, rfl, fun h => absurd rfl h⟩
  obtain ⟨updated, hupdate, hP⟩ := updateEach_spec (nodup_of_perm_all htheirs) heach
  refine ⟨{ o with penalizers := updated, isRequired := o.isRequired || their.isRequired }, ?_, ?_⟩
  · unfold PenalizerOrchestrator.merge
    rw [if_neg (by rcases hon with hon | hon <;> simp [hon]), hupdate]
    rfl
  · exact hP kind (htheirs.mem_iff.mpr (mem_all kind)) hprepared

end PenalizerOrchestrator

end FastPP
