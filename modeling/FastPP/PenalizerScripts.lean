import FastPP.PenalizerRuns

namespace FastPP

namespace PenalizerOrchestrator

variable {V : Nat}

theorem forall₂_gather {α β : Type} {R : α → β → Prop} {xs kept : List α} {ys : List β}
    (h : List.Forall₂ R xs ys) {indices : List Nat} (hkept : gather xs indices = some kept) :
    ∃ rows, gather ys indices = some rows ∧ List.Forall₂ R kept rows := by
  induction indices generalizing kept with
  | nil =>
    obtain rfl := Option.some.inj hkept
    exact ⟨[], rfl, .nil⟩
  | cons i indices ih =>
    rw [gather_cons] at hkept
    obtain ⟨x, hx, hkept⟩ := Option.bind_eq_some_iff.mp hkept
    obtain ⟨rest, hrest, hkept⟩ := Option.bind_eq_some_iff.mp hkept
    obtain rfl := Option.some.inj hkept
    obtain ⟨rows, hrows, hfits⟩ := ih hrest
    obtain ⟨hi, hxi⟩ := List.getElem?_eq_some_iff.mp hx
    have hi' : i < ys.length := h.length_eq ▸ hi
    refine ⟨ys[i] :: rows, ?_, .cons ?_ hfits⟩
    · rw [gather_cons, hrows, List.getElem?_eq_getElem hi']
      rfl
    · rw [← hxi]
      exact h.get hi hi'

theorem penalizerRequired_of_gather {hist kept : OutputHistory V} {indices : List Nat}
    (hkept : gather hist indices = some kept) {kind : PenalizerKind}
    (h : penalizerRequired (hist.map Prod.fst) kind = false) :
    penalizerRequired (kept.map Prod.fst) kind = false := by
  rw [penalizerRequired, List.any_eq_false] at h ⊢
  intro req hreq
  obtain ⟨entry, hentry, rfl⟩ := List.mem_map.mp hreq
  exact h _ (List.mem_map_of_mem (mem_of_gather hkept hentry))

/-- Filtering keeps the rows of the requests that are left. -/
theorem Fits.filter {o : PenalizerOrchestrator V} {hist kept : OutputHistory V} (h : o.Fits hist)
    {indices : List Nat} (hkept : gather hist indices = some kept) :
    ∃ filtered, o.filter (kept.map Prod.fst) indices = some filtered ∧ filtered.Fits kept := by
  unfold PenalizerOrchestrator.filter
  by_cases hon : o.isRequired = true
  · rw [if_pos hon]
    have heach : ∀ kind ∈ o.order, ∃ rows, filterPenalizer (kept.map Prod.fst) indices kind
        (o.penalizers kind) = some rows ∧ PenalizerFits kept kind rows := by
      intro kind _
      by_cases hrequired : penalizerRequired (kept.map Prod.fst) kind = false
      · refine ⟨none, ?_, hrequired⟩
        unfold filterPenalizer
        rw [if_pos (.inl hrequired)]
      · have hne : indices ≠ [] := by
          rintro rfl
          obtain rfl := Option.some.inj hkept
          exact hrequired rfl
        have hfits := h.penalizers kind
        cases hrows : o.penalizers kind with
        | none =>
          rw [hrows] at hfits
          exact absurd (penalizerRequired_of_gather hkept hfits) hrequired
        | some rows =>
          rw [hrows] at hfits
          obtain ⟨rows', hrows', hfits'⟩ := forall₂_gather hfits.2 hkept
          refine ⟨some rows', ?_, by simpa using hrequired, hfits'⟩
          unfold filterPenalizer
          rw [if_neg (by simp [hrequired, hne])]
          show (gather rows indices).map some = _
          rw [hrows']
          rfl
    obtain ⟨updated, hupdate, hP⟩ := updateEach_spec h.order_nodup heach
    rw [hupdate]
    refine ⟨_, rfl, rfl, h.order, any_order h.order _, fun kind => hP kind (h.mem_order kind)⟩
  · rw [if_neg hon]
    have hoff : o.isRequired = false := by simpa using hon
    have hnot : ∀ kind, penalizerRequired (kept.map Prod.fst) kind = false := fun kind =>
      penalizerRequired_of_gather hkept (h.unprepared hoff kind).1
    refine ⟨_, rfl, rfl, h.order, ?_, ?_⟩
    · show o.isRequired = _
      rw [hoff, eq_comm, List.any_eq_false]
      intro kind _
      simp [hnot kind]
    · intro kind
      show PenalizerFits kept kind (o.penalizers kind)
      rw [(h.unprepared hoff kind).2]
      exact hnot kind

/-- One of the batches is empty while the other has a request with a minimum length. -/
def MergesIntoEmpty (hist theirs : OutputHistory V) : Prop :=
  (hist = [] ∧ ∃ entry ∈ theirs, 0 < entry.1.minNewTokens) ∨
    (theirs = [] ∧ ∃ entry ∈ hist, 0 < entry.1.minNewTokens)

theorem penalizerRequired_append (hist theirs : OutputHistory V) (kind : PenalizerKind) :
    penalizerRequired ((hist ++ theirs).map Prod.fst) kind =
      (penalizerRequired (hist.map Prod.fst) kind ||
        penalizerRequired (theirs.map Prod.fst) kind) := by
  rw [penalizerRequired, List.map_append, List.any_append]
  rfl

/-- The rows of a side that is prepared now or was before. -/
theorem prepared_fits {hist : OutputHistory V} {kind : PenalizerKind}
    {rows : Option (List (kind.Row V))} (hfits : PenalizerFits hist kind rows)
    (hok : kind = .minNewTokens → hist ≠ [] ∨ rows.isSome) :
    ∃ all, rows.or (kind.prepare (hist.map Prod.fst)) = some all ∧
      List.Forall₂ kind.RowFits hist all := by
  cases rows with
  | some rows => exact ⟨rows, rfl, hfits.2⟩
  | none =>
    have hne : ¬ (kind = .minNewTokens ∧ hist.map Prod.fst = []) := by
      rintro ⟨hkind, hnil⟩
      rcases hok hkind with h | h
      · exact h (List.map_eq_nil_iff.mp hnil)
      · cases h
    refine ⟨(hist.map Prod.fst).map kind.prepareRow, ?_, ?_⟩
    · rw [Option.none_or, PenalizerKind.prepare, if_neg hne]
    · rw [List.map_map, List.forall₂_map_right_iff, List.forall₂_same]
      exact fun entry hentry => PenalizerKind.rowFits_late (not_requires_of_mem hfits hentry)

/-- A batch with a request that has a minimum length has its penalizer prepared. -/
theorem Fits.minNewTokens_prepared {o : PenalizerOrchestrator V} {hist : OutputHistory V}
    (h : o.Fits hist) (hsome : ∃ entry ∈ hist, 0 < entry.1.minNewTokens) :
    o.isRequired = true ∧ (o.penalizers .minNewTokens).isSome := by
  obtain ⟨entry, hentry, hpos⟩ := hsome
  have hrequired : penalizerRequired (hist.map Prod.fst) .minNewTokens = true :=
    List.any_eq_true.mpr ⟨entry.1, List.mem_map_of_mem hentry, by
      simpa [PenalizerKind.requires] using hpos⟩
  constructor
  · rw [h.isRequired]
    exact List.any_eq_true.mpr ⟨_, mem_all _, hrequired⟩
  · have hfits := h.penalizers .minNewTokens
    cases hrows : o.penalizers .minNewTokens with
    | none =>
      rw [hrows] at hfits
      exact absurd (hfits.symm.trans hrequired) (by decide)
    | some rows => rfl

theorem Fits.minNewTokens_of_isSome {o : PenalizerOrchestrator V} {hist : OutputHistory V}
    (h : o.Fits hist) (hsome : (o.penalizers .minNewTokens).isSome) :
    ∃ entry ∈ hist, 0 < entry.1.minNewTokens := by
  have hfits := h.penalizers .minNewTokens
  obtain ⟨rows, hrows⟩ := Option.isSome_iff_exists.mp hsome
  rw [hrows] at hfits
  obtain ⟨req, hreq, hpos⟩ := List.any_eq_true.mp hfits.1
  obtain ⟨entry, hentry, rfl⟩ := List.mem_map.mp hreq
  exact ⟨entry, hentry, by simpa [PenalizerKind.requires] using hpos⟩

theorem Fits.prepares {o their : PenalizerOrchestrator V} {hist theirs : OutputHistory V}
    (h : o.Fits hist) (h' : their.Fits theirs) (hmerge : ¬ MergesIntoEmpty hist theirs)
    {kind : PenalizerKind} (hone : (their.penalizers kind).isSome ∨ (o.penalizers kind).isSome) :
    kind = .minNewTokens → hist ≠ [] ∨ (o.penalizers kind).isSome := by
  rintro rfl
  rcases hone with hsome | hsome
  · left
    rintro rfl
    exact hmerge (.inl ⟨rfl, h'.minNewTokens_of_isSome hsome⟩)
  · exact .inr hsome

theorem mergesIntoEmpty_comm (hist theirs : OutputHistory V) :
    MergesIntoEmpty hist theirs ↔ MergesIntoEmpty theirs hist := or_comm

/-- One penalizer of two batches, neither of them empty while the other needs a minimum. -/
theorem Fits.mergePenalizer {o their : PenalizerOrchestrator V} {hist theirs : OutputHistory V}
    (h : o.Fits hist) (h' : their.Fits theirs) (hmerge : ¬ MergesIntoEmpty hist theirs)
    (kind : PenalizerKind) :
    ∃ rows, mergeTheirs o their kind (o.penalizers kind) = some rows ∧
      PenalizerFits (hist ++ theirs) kind rows := by
  have hfits := h.penalizers kind
  have hfits' := h'.penalizers kind
  have hrequired := penalizerRequired_append hist theirs kind
  rw [mergeTheirs, if_pos (h.mem_order kind), h.reqs, h'.reqs, PenalizerOrchestrator.mergePenalizer]
  by_cases hnone : (o.penalizers kind).isNone && (their.penalizers kind).isNone
  · rw [if_pos hnone]
    refine ⟨none, rfl, ?_⟩
    simp only [Bool.and_eq_true, Option.isNone_iff_eq_none] at hnone
    rw [hnone.1] at hfits
    rw [hnone.2] at hfits'
    show penalizerRequired _ kind = false
    rw [hrequired, hfits, hfits']
    rfl
  · rw [if_neg hnone]
    have hone : (their.penalizers kind).isSome ∨ (o.penalizers kind).isSome := by
      cases hthem : their.penalizers kind with
      | some rows => exact .inl rfl
      | none =>
        cases hus : o.penalizers kind with
        | some rows => exact .inr rfl
        | none =>
          rw [hthem, hus] at hnone
          exact absurd rfl hnone
    obtain ⟨rows, hrows, hall⟩ := prepared_fits hfits (h.prepares h' hmerge hone)
    obtain ⟨rows', hrows', hall'⟩ := prepared_fits hfits'
      (h'.prepares h (fun hc => hmerge ((mergesIntoEmpty_comm _ _).mp hc)) hone.symm)
    rw [hrows, hrows']
    refine ⟨some (rows ++ rows'), rfl, ?_, List.rel_append hall hall'⟩
    rw [hrequired, Bool.or_eq_true]
    rcases hone with hsome | hsome
    · obtain ⟨them, hthem⟩ := Option.isSome_iff_exists.mp hsome
      rw [hthem] at hfits'
      exact .inr hfits'.1
    · obtain ⟨us, hus⟩ := Option.isSome_iff_exists.mp hsome
      rw [hus] at hfits
      exact .inl hfits.1

theorem any_required_append (hist theirs : OutputHistory V) :
    PenalizerKind.all.any (penalizerRequired ((hist ++ theirs).map Prod.fst)) =
      (PenalizerKind.all.any (penalizerRequired (hist.map Prod.fst)) ||
        PenalizerKind.all.any (penalizerRequired (theirs.map Prod.fst))) := by
  rw [Bool.eq_iff_iff, Bool.or_eq_true, List.any_eq_true, List.any_eq_true, List.any_eq_true]
  simp only [penalizerRequired_append, Bool.or_eq_true, and_or_left, exists_or]

theorem Fits.merge {o their : PenalizerOrchestrator V} {hist theirs : OutputHistory V}
    (h : o.Fits hist) (h' : their.Fits theirs) (hmerge : ¬ MergesIntoEmpty hist theirs) :
    ∃ merged, o.merge their = some merged ∧
      { merged with reqs := o.reqs ++ their.reqs }.Fits (hist ++ theirs) := by
  have hreqs : o.reqs ++ their.reqs = (hist ++ theirs).map Prod.fst := by
    rw [h.reqs, h'.reqs, List.map_append]
  have hflag : (o.isRequired || their.isRequired) = PenalizerKind.all.any
      (penalizerRequired ((hist ++ theirs).map Prod.fst)) := by
    rw [any_required_append, h.isRequired, h'.isRequired]
  unfold PenalizerOrchestrator.merge
  by_cases hoff : !o.isRequired && !their.isRequired
  · rw [if_pos hoff]
    simp only [Bool.and_eq_true, Bool.not_eq_true'] at hoff
    refine ⟨o, rfl, hreqs, h.order, ?_, ?_⟩
    · show o.isRequired = _
      rw [← hflag, hoff.1, hoff.2]
      rfl
    · intro kind
      show PenalizerFits _ kind (o.penalizers kind)
      rw [(h.unprepared hoff.1 kind).2]
      show penalizerRequired _ kind = false
      rw [penalizerRequired_append, (h.unprepared hoff.1 kind).1, (h'.unprepared hoff.2 kind).1]
      rfl
  · rw [if_neg hoff]
    obtain ⟨updated, hupdate, hP⟩ := updateEach_spec h'.order_nodup
      fun kind _ => h.mergePenalizer h' hmerge kind
    rw [hupdate]
    exact ⟨_, rfl, hreqs, h.order, hflag, fun kind => hP kind (h'.mem_order kind)⟩

/-- `pad_sequence` makes the merge fail when a side without requests has to be prepared. -/
theorem Fits.not_mergesIntoEmpty {o their merged : PenalizerOrchestrator V}
    {hist theirs : OutputHistory V} (h : o.Fits hist) (h' : their.Fits theirs)
    (hmerge : o.merge their = some merged) : ¬ MergesIntoEmpty hist theirs := by
  intro hempty
  have hloop : (mergeTheirs o their .minNewTokens (o.penalizers .minNewTokens)).isSome := by
    unfold PenalizerOrchestrator.merge at hmerge
    have hon : ¬ (!o.isRequired && !their.isRequired) = true := by
      rcases hempty with ⟨_, hsome⟩ | ⟨_, hsome⟩
      · simp [(h'.minNewTokens_prepared hsome).1]
      · simp [(h.minNewTokens_prepared hsome).1]
    rw [if_neg hon] at hmerge
    obtain ⟨updated, hupdate, _⟩ := Option.bind_eq_some_iff.mp hmerge
    exact updateEach_isSome h'.order_nodup hupdate _ (h'.mem_order _)
  rw [mergeTheirs, if_pos (h.mem_order _), h.reqs, h'.reqs,
    PenalizerOrchestrator.mergePenalizer] at hloop
  have hunprepared : ∀ {o : PenalizerOrchestrator V}, o.Fits [] →
      o.penalizers .minNewTokens = none := by
    intro o h
    cases hrows : o.penalizers .minNewTokens with
    | none => rfl
    | some rows =>
      obtain ⟨_, hmem, _⟩ := h.minNewTokens_of_isSome (by rw [hrows]; rfl)
      cases hmem
  rcases hempty with ⟨rfl, hsome⟩ | ⟨rfl, hsome⟩
  · obtain ⟨rows, hrows⟩ := Option.isSome_iff_exists.mp (h'.minNewTokens_prepared hsome).2
    rw [hunprepared h, hrows] at hloop
    cases hloop
  · obtain ⟨rows, hrows⟩ := Option.isSome_iff_exists.mp (h.minNewTokens_prepared hsome).2
    rw [hunprepared h', hrows] at hloop
    cases hloop

end PenalizerOrchestrator

end FastPP
