import FastPP.Controller.CandidateFeatures

namespace FastPP

/-- The tokens of the queue from a position on: the index of a request and the place in it. -/
def queueAhead : List WaitingReqMeta → Nat → Nat → List (Nat × Nat)
  | [], _, _ => []
  | req :: rest, idx, offset =>
    (List.range' (req.prefixLen + offset) (req.prefillLen - offset)).map (idx, ·) ++
      queueAhead rest (idx + 1) 0

namespace Piece

/-- The tokens of a piece of the queue. -/
def queued (piece : Piece) : List (Nat × Nat) :=
  match piece.owner with
  | .chunked _ => []
  | .waiting idx => (List.range' piece.start piece.len).map (idx, ·)

/-- The piece belongs to the queue. -/
def IsQueued (piece : Piece) : Prop := ∃ idx, piece.owner = .waiting idx

end Piece

namespace PackState

variable {P : PackState} {piece : Piece} {waiting rest : List WaitingReqMeta} {budget : Nat}

/-- The features are those of the pieces, and the pieces share the budget of the stage. -/
structure Tallied (P : PackState) : Prop where
  packed : P.packedPrefillTokens = (P.pieces.map (·.len)).sum
  square : P.prefillSquareSum = (P.pieces.map fun piece => piece.len * piece.len).sum
  prod : P.prefillPrefixProdSum = (P.pieces.map fun piece => piece.len * piece.start).sum
  positive : ∀ piece ∈ P.pieces, 0 < piece.len

theorem start_tallied (queueReqIdx offset remaining : Nat) :
    (start queueReqIdx offset remaining).Tallied :=
  ⟨rfl, rfl, rfl, fun _ h => (nomatch h)⟩

theorem Tallied.take (h : P.Tallied) (hlen : 0 < piece.len) : (P.take piece).Tallied where
  packed := by
    show P.packedPrefillTokens + piece.len = _
    rw [h.packed, PackState.take, List.map_append, List.sum_append]
    rfl
  square := by
    show P.prefillSquareSum + piece.len * piece.len = _
    rw [h.square, PackState.take, List.map_append, List.sum_append]
    rfl
  prod := by
    show P.prefillPrefixProdSum + piece.len * piece.start = _
    rw [h.prod, PackState.take, List.map_append, List.sum_append]
    rfl
  positive := by
    intro other hother
    rcases List.mem_append.mp hother with hother | hother
    · exact h.positive other hother
    · rw [List.mem_singleton.mp hother]
      exact hlen

theorem Tallied.moved (h : P.Tallied) (idx offset : Nat) :
    Tallied { P with queueReqIdx := idx, queueReqPrefillOffset := offset } :=
  ⟨h.packed, h.square, h.prod, h.positive⟩

theorem Tallied.pieces_nil (h : P.Tallied) (hpacked : P.packedPrefillTokens = 0) :
    P.pieces = [] := by
  match hpieces : P.pieces with
  | [] => rfl
  | piece :: pieces =>
    have hpos := h.positive piece (by rw [hpieces]; exact List.mem_cons_self)
    have hsum := h.packed
    rw [hpieces, List.map_cons, List.sum_cons] at hsum
    omega

/-- The packed tokens are within the budget, or those of a single request that may not be
chunked. -/
def WithinBudget (waiting : List WaitingReqMeta) (budget : Nat) (P : PackState) : Prop :=
  P.packedPrefillTokens ≤ budget ∨ ∃ idx start len req, waiting[idx]? = some req ∧
    req.cannotChunkForLogprob = true ∧ P.pieces = [⟨.waiting idx, start, len⟩]

/-- What the loop does from a state to another: it packs the next tokens of the queue. -/
structure Packs (waiting : List WaitingReqMeta) (budget : Nat) (P P' : PackState)
    (taken : List Piece) : Prop where
  tallied : P'.Tallied
  pieces : P'.pieces = P.pieces ++ taken
  queued : ∀ piece ∈ taken, piece.IsQueued
  ahead : queueAhead (waiting.drop P.queueReqIdx) P.queueReqIdx P.queueReqPrefillOffset =
    taken.flatMap Piece.queued ++
      queueAhead (waiting.drop P'.queueReqIdx) P'.queueReqIdx P'.queueReqPrefillOffset
  budget : P'.WithinBudget waiting budget

/-- One token range after another. -/
theorem range'_split {start len taken : Nat} (h : taken ≤ len) :
    List.range' start len = List.range' start taken ++ List.range' (start + taken) (len - taken) := by
  rw [List.range'_append_1, Nat.add_sub_cancel' h]

/-- The tokens from a request of the queue on. -/
theorem queueAhead_take {req : WaitingReqMeta} {idx offset taken : Nat}
    (h : taken ≤ req.prefillLen - offset) :
    queueAhead (req :: rest) idx offset =
      (List.range' (req.prefixLen + offset) taken).map (idx, ·) ++
        queueAhead (req :: rest) idx (offset + taken) := by
  unfold queueAhead
  rw [range'_split h, List.map_append, List.append_assoc, Nat.add_assoc, Nat.sub_add_eq]

/-- A request of which all is packed. -/
theorem queueAhead_done {req : WaitingReqMeta} {idx offset : Nat}
    (h : req.prefillLen ≤ offset) :
    queueAhead (req :: rest) idx offset = queueAhead rest (idx + 1) 0 := by
  rw [queueAhead, Nat.sub_eq_zero_of_le h]
  rfl

theorem Packs.refl (h : P.Tallied) (hbudget : P.WithinBudget waiting budget) :
    P.Packs waiting budget P [] :=
  ⟨h, (List.append_nil _).symm, fun _ hmem => (nomatch hmem), rfl, hbudget⟩

/-- The requests after one that is done with. -/
theorem Packs.after_next {P' : PackState} {taken : List Piece} {req : WaitingReqMeta}
    (hrest : waiting.drop P.queueReqIdx = req :: rest)
    (hdone : req.prefillLen ≤ P.queueReqPrefillOffset)
    (h : P.nextReq.Packs waiting budget P' taken) : P.Packs waiting budget P' taken where
  tallied := h.tallied
  pieces := h.pieces
  queued := h.queued
  ahead := by
    have hdrop : waiting.drop (P.queueReqIdx + 1) = rest := by
      rw [← List.drop_drop, hrest]
      rfl
    have hahead := h.ahead
    change queueAhead (waiting.drop (P.queueReqIdx + 1)) (P.queueReqIdx + 1) 0 = _ at hahead
    rw [hrest, queueAhead_done hdone, ← hahead, hdrop]
  budget := h.budget

/-- The loop after a piece of the next request. -/
theorem Packs.after_take {P' : PackState} {taken : List Piece} {req : WaitingReqMeta} {len : Nat}
    (hrest : waiting.drop P.queueReqIdx = req :: rest)
    (hlen : len ≤ req.prefillLen - P.queueReqPrefillOffset)
    (h : Packs waiting budget
      { P.take ⟨.waiting P.queueReqIdx, req.prefixLen + P.queueReqPrefillOffset, len⟩ with
        queueReqPrefillOffset := P.queueReqPrefillOffset + len } P' taken) :
    P.Packs waiting budget P'
      (⟨.waiting P.queueReqIdx, req.prefixLen + P.queueReqPrefillOffset, len⟩ :: taken) where
  tallied := h.tallied
  pieces := by
    rw [h.pieces]
    exact List.append_assoc _ _ _
  queued piece hmem := by
    rcases List.mem_cons.mp hmem with rfl | hmem
    · exact ⟨_, rfl⟩
    · exact h.queued piece hmem
  ahead := by
    have hahead := h.ahead
    change queueAhead (waiting.drop P.queueReqIdx) P.queueReqIdx
      (P.queueReqPrefillOffset + len) = _ at hahead
    rw [hrest] at hahead ⊢
    rw [queueAhead_take hlen, hahead, List.flatMap_cons, List.append_assoc]
    rfl
  budget := h.budget

/-- With its budget spent a stage packs nothing more. -/
theorem packWaiting_spent (h : P.remainingChunkTokens = 0) : packWaiting rest P = P := by
  cases rest with
  | nil => rfl
  | cons req rest => exact if_pos h

/-- The loop over the queue. -/
theorem packWaiting_packs (hrest : waiting.drop P.queueReqIdx = rest) (h : P.Tallied)
    (hbudget : P.packedPrefillTokens + P.remainingChunkTokens ≤ budget) :
    ∃ taken, P.Packs waiting budget (packWaiting rest P) taken := by
  have hwithin : P.WithinBudget waiting budget := .inl (by omega)
  induction rest generalizing P with
  | nil => exact ⟨[], .refl h hwithin⟩
  | cons req rest ih =>
    have hdrop : waiting.drop (P.queueReqIdx + 1) = rest := by
      rw [← List.drop_drop, hrest]
      rfl
    unfold packWaiting
    dsimp only
    by_cases hspent : P.remainingChunkTokens = 0
    · rw [if_pos hspent]
      exact ⟨[], .refl h hwithin⟩
    rw [if_neg hspent]
    by_cases hdone : req.prefillLen - P.queueReqPrefillOffset = 0
    · rw [if_pos hdone]
      obtain ⟨taken, htaken⟩ := ih (P := P.nextReq) hdrop (h.moved _ _) hbudget hwithin
      exact ⟨taken, htaken.after_next hrest (by omega)⟩
    rw [if_neg hdone]
    have hmoved : ∀ {len idx offset}, 0 < len →
        Tallied { P.take ⟨.waiting P.queueReqIdx, req.prefixLen + P.queueReqPrefillOffset, len⟩ with
          queueReqIdx := idx, queueReqPrefillOffset := offset } :=
      fun hlen => (@Tallied.take P ⟨_, _, _⟩ h hlen).moved _ _
    generalize hover : (decide (P.remainingChunkTokens < req.prefillLen - P.queueReqPrefillOffset) &&
      req.cannotChunkForLogprob) = oversized
    cases oversized with
    | true =>
      obtain ⟨hlt, hcannot⟩ := Bool.and_eq_true_iff.mp hover
      have hlt := of_decide_eq_true hlt
      by_cases hpacked : 0 < P.packedPrefillTokens
      · rw [if_pos (by simpa using hpacked)]
        exact ⟨[], .refl h hwithin⟩
      · -- a request that may not be chunked has the stage for itself
        rw [if_neg (by simpa using hpacked), if_pos rfl, if_pos (Nat.le_refl _)]
        rw [packWaiting_spent (show P.remainingChunkTokens -
          min (req.prefillLen - P.queueReqPrefillOffset) P.remainingChunkTokens = 0 by omega)]
        have hhead : waiting[P.queueReqIdx]? = some req := by
          rw [← List.head?_drop, hrest]
          rfl
        have hone : P.pieces ++ [⟨.waiting P.queueReqIdx, req.prefixLen + P.queueReqPrefillOffset,
            req.prefillLen - P.queueReqPrefillOffset⟩] = [⟨.waiting P.queueReqIdx,
              req.prefixLen + P.queueReqPrefillOffset,
              req.prefillLen - P.queueReqPrefillOffset⟩] := by
          rw [h.pieces_nil (by omega)]
          rfl
        refine ⟨[_], .after_take hrest (Nat.le_refl _) (.after_next hrest ?_ (.refl ?_ ?_))⟩
        · show req.prefillLen ≤ P.queueReqPrefillOffset + (req.prefillLen - P.queueReqPrefillOffset)
          omega
        · exact hmoved (by omega)
        · exact .inr ⟨P.queueReqIdx, _, _, req, hhead, hcannot, hone⟩
    | false =>
      simp only [Bool.false_and, Bool.false_eq_true, ↓reduceIte]
      generalize hlen : min (req.prefillLen - P.queueReqPrefillOffset) P.remainingChunkTokens = len
      have hbudget' : P.packedPrefillTokens + len +
          (P.remainingChunkTokens - min len P.remainingChunkTokens) ≤ budget := by
        omega
      have hwithin' : ∀ {idx offset}, WithinBudget waiting budget
          { P.take ⟨.waiting P.queueReqIdx, req.prefixLen + P.queueReqPrefillOffset, len⟩ with
            queueReqIdx := idx, queueReqPrefillOffset := offset } :=
        .inl (show P.packedPrefillTokens + len ≤ budget by omega)
      by_cases hall : req.prefillLen - P.queueReqPrefillOffset ≤ len
      · rw [if_pos hall]
        obtain ⟨taken, htaken⟩ := ih (P := (P.take _).nextReq) hdrop (hmoved (by omega)) hbudget'
          hwithin'
        refine ⟨_, .after_take hrest (by omega) (.after_next hrest ?_ htaken)⟩
        show req.prefillLen ≤ P.queueReqPrefillOffset + len
        omega
      · rw [if_neg hall]
        exact ⟨[_], .after_take hrest (by omega) (.refl (hmoved (by omega)) hwithin')⟩

end PackState

end FastPP
