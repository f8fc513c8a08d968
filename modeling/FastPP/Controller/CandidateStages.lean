import FastPP.Controller.CandidateQueue
import Mathlib.Data.List.Nodup

namespace FastPP

namespace Piece

/-- The places of the tokens of a piece in their request. -/
def tokens (piece : Piece) : List Nat := List.range' piece.start piece.len

end Piece

/-- The tokens packed for one request, piece by piece. -/
def tokensOf (owner : PackedReq) (pieces : List Piece) : List Nat :=
  (pieces.filter fun piece => piece.owner = owner).flatMap Piece.tokens

theorem tokensOf_append (owner : PackedReq) (pieces pieces' : List Piece) :
    tokensOf owner (pieces ++ pieces') = tokensOf owner pieces ++ tokensOf owner pieces' := by
  rw [tokensOf, List.filter_append, List.flatMap_append]
  rfl

theorem tokensOf_queued (q : Nat) {pieces : List Piece} (h : ∀ piece ∈ pieces, piece.IsQueued) :
    tokensOf (.chunked q) pieces = [] := by
  have hnone : (pieces.filter fun piece => piece.owner = .chunked q) = [] := by
    refine List.filter_eq_nil_iff.mpr fun piece hmem => ?_
    obtain ⟨idx, howner⟩ := h piece hmem
    rw [howner]
    simp
  rw [tokensOf, hnone]
  rfl

namespace PredictionContext

variable {ctx : PredictionContext} {chunk stageIdx queueReqIdx offset : Nat}

/-- The tokens of its chunked request that a stage packs. -/
def chunkedLen (ctx : PredictionContext) (chunk stageIdx : Nat) (lens : ChunkedLens) : Nat :=
  min lens.remainPrefill (chunk - ctx.stageMixedDecodeTokens stageIdx)

/-- The piece of the chunked request, if there is one. -/
def chunkedPieces (ctx : PredictionContext) (chunk stageIdx : Nat) : List Piece :=
  match ctx.stageChunkedLens stageIdx with
  | none => []
  | some lens =>
    if 0 < ctx.chunkedLen chunk stageIdx lens then
      [⟨.chunked lens.req, lens.prefixLen, ctx.chunkedLen chunk stageIdx lens⟩]
    else []

/-- What a stage packs: its chunked request, then the next tokens of the queue. -/
structure StagePacked (ctx : PredictionContext) (chunk stageIdx queueReqIdx offset : Nat)
    (features : StageFeatures) (next : Nat × Nat) (taken : List Piece) : Prop where
  pieces : features.pieces = ctx.chunkedPieces chunk stageIdx ++ taken
  queued : ∀ piece ∈ taken, piece.IsQueued
  ahead : queueAhead (ctx.waitingReqMeta.drop queueReqIdx) queueReqIdx offset =
    taken.flatMap Piece.queued ++ queueAhead (ctx.waitingReqMeta.drop next.1) next.1 next.2
  stage : features.stageIdx = stageIdx
  runningTokenMax : features.runningTokenMax =
    (features.pieces.map (·.len)).sum + ctx.stageMixedDecodeTokens stageIdx
  square : features.prefillSquareSum = (features.pieces.map fun piece => piece.len * piece.len).sum
  prod : features.prefillPrefixProdSum =
    (features.pieces.map fun piece => piece.len * piece.start).sum
  budget : features.runningTokenMax ≤ max chunk (ctx.stageMixedDecodeTokens stageIdx) ∨
    ∃ idx start len req, ctx.waitingReqMeta[idx]? = some req ∧
      req.cannotChunkForLogprob = true ∧ features.pieces = [⟨.waiting idx, start, len⟩]

/-- The state of a stage when it comes to the queue. -/
structure BeforeQueue (ctx : PredictionContext) (chunk stageIdx queueReqIdx offset : Nat)
    (P : PackState) : Prop where
  tallied : P.Tallied
  queueReqIdx : P.queueReqIdx = queueReqIdx
  offset : P.queueReqPrefillOffset = offset
  pieces : P.pieces = ctx.chunkedPieces chunk stageIdx
  shared : P.packedPrefillTokens + P.remainingChunkTokens =
    chunk - ctx.stageMixedDecodeTokens stageIdx

/-- The chunked request comes first. -/
theorem takeChunked_before (chunk queueReqIdx offset : Nat) {lens : ChunkedLens}
    (hlens : ctx.stageChunkedLens stageIdx = some lens) :
    ctx.BeforeQueue chunk stageIdx queueReqIdx offset
        (takeChunked lens (.start queueReqIdx offset (chunk - ctx.stageMixedDecodeTokens stageIdx))) ∧
      (takeChunked lens (.start queueReqIdx offset
        (chunk - ctx.stageMixedDecodeTokens stageIdx))).packedPrefillTokens =
        ctx.chunkedLen chunk stageIdx lens := by
  have hpieces : ctx.chunkedPieces chunk stageIdx =
      if 0 < ctx.chunkedLen chunk stageIdx lens then
        [⟨.chunked lens.req, lens.prefixLen, ctx.chunkedLen chunk stageIdx lens⟩]
      else [] := by
    rw [chunkedPieces, hlens]
  unfold takeChunked
  change BeforeQueue _ _ _ _ _ (if 0 < ctx.chunkedLen chunk stageIdx lens then _ else _) ∧
    (if 0 < ctx.chunkedLen chunk stageIdx lens then _ else _ : PackState).packedPrefillTokens = _
  by_cases hpos : 0 < ctx.chunkedLen chunk stageIdx lens
  · rw [if_pos hpos]
    rw [if_pos hpos] at hpieces
    have hle : ctx.chunkedLen chunk stageIdx lens ≤ chunk - ctx.stageMixedDecodeTokens stageIdx :=
      Nat.min_le_right _ _
    refine ⟨⟨(PackState.start_tallied _ _ _).take hpos, rfl, rfl, hpieces.symm, ?_⟩, Nat.zero_add _⟩
    show 0 + ctx.chunkedLen chunk stageIdx lens + (chunk - ctx.stageMixedDecodeTokens stageIdx -
      min (ctx.chunkedLen chunk stageIdx lens) (chunk - ctx.stageMixedDecodeTokens stageIdx)) = _
    omega
  · rw [if_neg hpos]
    rw [if_neg hpos] at hpieces
    exact ⟨⟨PackState.start_tallied _ _ _, rfl, rfl, hpieces.symm, Nat.zero_add _⟩,
      (Nat.eq_zero_of_not_pos hpos).symm⟩

/-- The rest of the stage. -/
theorem packQueue_packed {P : PackState} (h : ctx.BeforeQueue chunk stageIdx queueReqIdx offset P) :
    ∃ taken, ctx.StagePacked chunk stageIdx queueReqIdx offset
      (ctx.stageFeatures stageIdx (ctx.packQueue chunk stageIdx P).packedPrefillTokens
        (ctx.packQueue chunk stageIdx P))
      ((ctx.packQueue chunk stageIdx P).queueReqIdx,
        (ctx.packQueue chunk stageIdx P).queueReqPrefillOffset) taken := by
  have hsame : { P with packedPrefillTokens :=
      chunk - ctx.stageMixedDecodeTokens stageIdx - P.remainingChunkTokens } = P := by
    rw [← h.shared, Nat.add_sub_cancel]
  unfold packQueue
  rw [hsame]
  obtain ⟨taken, htaken⟩ := PackState.packWaiting_packs
    (rfl : ctx.waitingReqMeta.drop P.queueReqIdx = _) h.tallied (Nat.le_of_eq h.shared)
  generalize PackState.packWaiting (ctx.waitingReqMeta.drop P.queueReqIdx) P = P' at htaken
  refine ⟨taken, ?_⟩
  exact {
    pieces := htaken.pieces.trans (by rw [h.pieces])
    queued := htaken.queued
    ahead := by rw [← h.queueReqIdx, ← h.offset, htaken.ahead]
    stage := rfl
    runningTokenMax := congrArg (· + _) htaken.tallied.packed
    square := htaken.tallied.square
    prod := htaken.tallied.prod
    budget := by
      rcases htaken.budget with hle | hone
      · left
        show P'.packedPrefillTokens + ctx.stageMixedDecodeTokens stageIdx ≤ _
        omega
      · exact .inr hone }

/-- One stage. -/
theorem packStage_packed (ctx : PredictionContext) (chunk stageIdx queueReqIdx offset : Nat) :
    ∃ taken, ctx.StagePacked chunk stageIdx queueReqIdx offset
      (ctx.packStage chunk stageIdx queueReqIdx offset).1
      (ctx.packStage chunk stageIdx queueReqIdx offset).2 taken := by
  unfold packStage
  dsimp only
  split
  next lens hfilter =>
    obtain ⟨hlens, _⟩ := Option.filter_eq_some_iff.mp hfilter
    obtain ⟨hbefore, hpacked⟩ := takeChunked_before chunk queueReqIdx offset hlens
    split
    next =>
      refine ⟨[], ?_⟩
      exact {
        pieces := by rw [List.append_nil]; exact hbefore.pieces
        queued := fun _ h => (nomatch h)
        ahead := rfl
        stage := rfl
        runningTokenMax := by
          refine congrArg (· + _) ?_
          exact hpacked.symm.trans hbefore.tallied.packed
        square := hbefore.tallied.square
        prod := hbefore.tallied.prod
        budget := by
          left
          show min lens.remainPrefill (chunk - ctx.stageMixedDecodeTokens stageIdx) +
            ctx.stageMixedDecodeTokens stageIdx ≤ _
          omega }
    next => exact packQueue_packed hbefore
  next hfilter =>
    refine packQueue_packed ⟨PackState.start_tallied _ _ _, rfl, rfl, ?_, Nat.zero_add _⟩
    unfold chunkedPieces
    split
    next => rfl
    next lens hlens =>
      have hspent : ¬ 0 < chunk - ctx.stageMixedDecodeTokens stageIdx := by
        intro hpos
        rw [hlens, Option.filter_some, if_pos (by exact decide_eq_true hpos)] at hfilter
        exact nomatch hfilter
      rw [if_neg (by show ¬ 0 < min _ _; omega)]
      rfl

theorem chunkedPieces_queued (ctx : PredictionContext) (chunk stageIdx : Nat) :
    (ctx.chunkedPieces chunk stageIdx).flatMap Piece.queued = [] := by
  unfold chunkedPieces
  split
  next => rfl
  next =>
    split
    next => rfl
    next => rfl

/-- Over the stages the pieces of the queue are its next tokens, in order. -/
theorem packStages_queue (ctx : PredictionContext) (chunk : Nat) (stages : List Nat)
    (queueReqIdx offset : Nat) :
    ((ctx.packStages chunk stages queueReqIdx offset).flatMap (·.pieces)).flatMap Piece.queued <+:
      queueAhead (ctx.waitingReqMeta.drop queueReqIdx) queueReqIdx offset := by
  induction stages generalizing queueReqIdx offset with
  | nil => exact List.nil_prefix
  | cons stageIdx stages ih =>
    obtain ⟨taken, hstage⟩ := packStage_packed ctx chunk stageIdx queueReqIdx offset
    rw [packStages, List.flatMap_cons, List.flatMap_append, hstage.pieces, List.flatMap_append,
      chunkedPieces_queued, List.nil_append, hstage.ahead]
    exact (List.prefix_append_right_inj _).mpr (ih _ _)

/-- The tokens of a chunked request are those that the stages pack which see it. -/
theorem packStages_chunked (ctx : PredictionContext) (chunk q : Nat) (stages : List Nat)
    (queueReqIdx offset : Nat) :
    tokensOf (.chunked q) ((ctx.packStages chunk stages queueReqIdx offset).flatMap (·.pieces)) =
      stages.flatMap fun stageIdx => tokensOf (.chunked q) (ctx.chunkedPieces chunk stageIdx) := by
  induction stages generalizing queueReqIdx offset with
  | nil => rfl
  | cons stageIdx stages ih =>
    obtain ⟨taken, hstage⟩ := packStage_packed ctx chunk stageIdx queueReqIdx offset
    rw [packStages, List.flatMap_cons, tokensOf_append, ih, hstage.pieces, tokensOf_append,
      tokensOf_queued q hstage.queued, List.append_nil, List.flatMap_cons]

/-- Every stage of a run is packed as one stage is. -/
theorem mem_packStages {stages : List Nat} {features : StageFeatures}
    (h : features ∈ ctx.packStages chunk stages queueReqIdx offset) :
    ∃ queueReqIdx offset next taken,
      ctx.StagePacked chunk features.stageIdx queueReqIdx offset features next taken := by
  induction stages generalizing queueReqIdx offset with
  | nil => exact nomatch h
  | cons stageIdx stages ih =>
    rcases List.mem_cons.mp h with rfl | h
    · obtain ⟨taken, hstage⟩ := packStage_packed ctx chunk stageIdx queueReqIdx offset
      exact ⟨queueReqIdx, offset, _, taken, by rw [hstage.stage]; exact hstage⟩
    · exact ih h

end PredictionContext

/-- The tokens of one request of the queue among all of them. -/
theorem tokensOf_waiting (idx : Nat) (pieces : List Piece) :
    tokensOf (.waiting idx) pieces =
      ((pieces.flatMap Piece.queued).filter fun token => token.1 = idx).map (·.2) := by
  induction pieces with
  | nil => rfl
  | cons piece pieces ih =>
    rw [← List.singleton_append, tokensOf_append, ih, List.flatMap_append, List.filter_append,
      List.map_append]
    congr 1
    obtain ⟨owner, start, len⟩ := piece
    cases owner with
    | chunked q => rfl
    | waiting other =>
      show (([⟨.waiting other, start, len⟩].filter fun piece : Piece =>
        piece.owner = .waiting idx).flatMap Piece.tokens) = _
      by_cases hsame : other = idx
      · subst hsame
        simp [Piece.tokens, Piece.queued, List.filter_map, Function.comp_def]
      · simp [Piece.queued, List.filter_map, Function.comp_def, hsame]

theorem le_of_mem_queueAhead {waiting : List WaitingReqMeta} {first offset : Nat}
    {token : Nat × Nat} (h : token ∈ queueAhead waiting first offset) : first ≤ token.1 := by
  induction waiting generalizing first offset with
  | nil => exact nomatch h
  | cons req waiting ih =>
    rcases List.mem_append.mp h with h | h
    · obtain ⟨place, _, rfl⟩ := List.mem_map.mp h
      exact Nat.le_refl _
    · have hle := ih h
      omega

/-- The tokens of one request of the whole queue. -/
theorem queueAhead_filter (waiting : List WaitingReqMeta) (first idx : Nat) (h : first ≤ idx) :
    ((queueAhead waiting first 0).filter fun token => token.1 = idx).map (·.2) =
      match waiting[idx - first]? with
      | none => []
      | some req => List.range' req.prefixLen req.prefillLen := by
  induction waiting generalizing first with
  | nil => rfl
  | cons req waiting ih =>
    rw [queueAhead, List.filter_append, List.map_append]
    by_cases hfirst : first = idx
    · subst hfirst
      have hrest : (queueAhead waiting (first + 1) 0).filter (fun token => token.1 = first) = [] := by
        refine List.filter_eq_nil_iff.mpr fun token htoken => ?_
        have hle := le_of_mem_queueAhead htoken
        rw [decide_eq_true_eq]
        omega
      simp [hrest, List.filter_map, Function.comp_def]
    · rw [ih (first + 1) (by omega), show idx - first = idx - (first + 1) + 1 by omega,
        List.getElem?_cons_succ]
      simp [List.filter_map, Function.comp_def, hfirst]

/-- Amounts taken from the same place are consecutive only where at most one is not zero. -/
theorem flatMap_range'_prefix {α : Type} (amount : α → Nat) (start total : Nat) (stages : List α)
    (hle : ∀ s ∈ stages, amount s ≤ total) :
    (stages.flatMap fun s => List.range' start (amount s)) <+: List.range' start total ↔
      stages.Pairwise fun s t => amount s = 0 ∨ amount t = 0 := by
  induction stages with
  | nil => exact ⟨fun _ => .nil, fun _ => List.nil_prefix⟩
  | cons s stages ih =>
    have ih := ih fun t ht => hle t (List.mem_cons_of_mem _ ht)
    rw [List.flatMap_cons, List.pairwise_cons]
    have hnil : (∀ t ∈ stages, amount t = 0) →
        (stages.flatMap fun t => List.range' start (amount t)) = [] := by
      intro h
      refine List.flatMap_eq_nil_iff.mpr fun t ht => ?_
      rw [h t ht]
      rfl
    by_cases hzero : amount s = 0
    · rw [hzero, List.range'_zero, List.nil_append, ih]
      exact ⟨fun h => ⟨fun _ _ => .inl rfl, h⟩, fun h => h.2⟩
    · rw [PackState.range'_split (hle s List.mem_cons_self), List.prefix_append_right_inj]
      constructor
      · intro h
        have hrest : ∀ t ∈ stages, amount t = 0 := by
          intro t ht
          by_contra hpos
          -- the first token would be packed again
          have hmem : start ∈ stages.flatMap fun t => List.range' start (amount t) :=
            List.mem_flatMap.mpr ⟨t, ht, List.mem_range'_1.mpr ⟨Nat.le_refl _, by omega⟩⟩
          have hagain := List.mem_range'_1.mp (h.subset hmem)
          omega
        refine ⟨fun t ht => .inr (hrest t ht), ih.mp ?_⟩
        rw [hnil hrest]
        exact List.nil_prefix
      · intro ⟨h, _⟩
        rw [hnil fun t ht => (h t ht).resolve_left hzero]
        exact List.nil_prefix

end FastPP
