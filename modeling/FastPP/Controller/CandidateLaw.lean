import FastPP.Controller.CandidateStages
import FastPP.SlotSafety
import Mathlib.Data.List.Pairwise
import Mathlib.Data.List.Rotate

namespace FastPP

/-- The tokens of one request, counted. -/
theorem tokensOf_length (owner : PackedReq) (pieces : List Piece) :
    (tokensOf owner pieces).length =
      ((pieces.filter fun piece => piece.owner = owner).map (·.len)).sum := by
  unfold tokensOf
  rw [List.length_flatMap]
  congr 1
  exact List.map_congr_left fun piece _ => List.length_range'

theorem succ_prev {cfg : Config} {i : Nat} (hi : i < cfg.ppSize) :
    (cfg.prev i + 1) % cfg.ppSize = i := by
  rw [succ_mod_eq (prev_lt hi), prev_eq hi]
  split <;> split <;> omega

namespace Sched

variable {M : Type} {cfg : Config} {S : Sched M} {chunk q s t : Nat}

/-- The stages of a candidate chunk size. -/
def predictedStages (cfg : Config) (S : Sched M) (chunk : Nat) : List StageFeatures :=
  (S.runtimePredictionContext cfg).stageFeatureCandidates chunk

def predictedPieces (cfg : Config) (S : Sched M) (chunk : Nat) : List Piece :=
  (S.predictedStages cfg chunk).flatMap (·.pieces)

/-- The prefix and the remaining prefill length of a request. -/
def prefillLens (S : Sched M) : PackedReq → Nat × Nat
  | .chunked q => (S.heap q).chunkedPrefillLens
  | .waiting idx =>
    match S.waitingQueue[idx]? with
    | none => (0, 0)
    | some q => (S.heap q).waitingPrefillLens

/-- A candidate chunk size counts each prefill token once. -/
structure CountsOnce (cfg : Config) (S : Sched M) (chunk : Nat) : Prop where
  once : ∀ owner, (((S.predictedPieces cfg chunk).filter fun piece =>
    piece.owner = owner).map (·.len)).sum ≤ (S.prefillLens owner).2
  contiguous : ∀ owner, tokensOf owner (S.predictedPieces cfg chunk) <+:
    List.range' (S.prefillLens owner).1 (S.prefillLens owner).2
  queueOrder : (S.predictedPieces cfg chunk).flatMap Piece.queued <+:
    queueAhead (S.runtimePredictionContext cfg).waitingReqMeta 0 0
  bounded : ∀ features ∈ S.predictedStages cfg chunk,
    (features.pieces.map (·.len)).sum + S.mixedDecodeTokens cfg features.stageIdx ≤
        max chunk (S.mixedDecodeTokens cfg features.stageIdx) ∨
      ∃ idx start len q, S.waitingQueue[idx]? = some q ∧
        (S.heap q).cannotChunkForLogprob = true ∧ features.pieces = [⟨.waiting idx, start, len⟩]

/-- A micro-batch without a chunked request of its own falls back on that of the micro-batch
before it, and there are tokens of it left and room for them at both. -/
def PacksTwice (cfg : Config) (S : Sched M) (chunk : Nat) : Prop :=
  cfg.ppSize ≠ 1 ∧ ∃ idx < cfg.ppSize, ∃ q, S.ownChunk idx = some q ∧
    S.ownChunk ((idx + 1) % cfg.ppSize) = none ∧ 0 < (S.chunkedLens q).remainPrefill ∧
    S.mixedDecodeTokens cfg idx < chunk ∧
    S.mixedDecodeTokens cfg ((idx + 1) % cfg.ppSize) < chunk

/-- The tokens of a chunked request that a stage packs. -/
def chunkedTaken (cfg : Config) (S : Sched M) (chunk q stageIdx : Nat) : Nat :=
  if S.predictionChunkedReq cfg stageIdx = some q then
    min (S.chunkedLens q).remainPrefill (chunk - S.mixedDecodeTokens cfg stageIdx)
  else 0

theorem predictionStageOrder_perm (cfg : Config) (curIdx : Nat) :
    (predictionStageOrder cfg curIdx).Perm (List.range cfg.ppSize) := by
  have hrotate : predictionStageOrder cfg curIdx = (List.range cfg.ppSize).rotate curIdx := by
    refine List.ext_getElem (by simp [predictionStageOrder]) fun i _ _ => ?_
    simp [predictionStageOrder, List.getElem_rotate, Nat.add_comm]
  rw [hrotate]
  exact List.rotate_perm _ _

/-- What a stage packs of a chunked request. -/
theorem tokensOf_chunkedPieces (cfg : Config) (S : Sched M) (chunk q stageIdx : Nat) :
    tokensOf (.chunked q) ((S.runtimePredictionContext cfg).chunkedPieces chunk stageIdx) =
      List.range' (S.chunkedLens q).prefixLen (S.chunkedTaken cfg chunk q stageIdx) := by
  have hlens : (S.runtimePredictionContext cfg).stageChunkedLens stageIdx =
    (S.predictionChunkedReq cfg stageIdx).map S.chunkedLens := rfl
  unfold PredictionContext.chunkedPieces chunkedTaken
  rw [hlens]
  cases S.predictionChunkedReq cfg stageIdx with
  | none => rfl
  | some other =>
    change tokensOf (.chunked q) (if 0 < min (S.chunkedLens other).remainPrefill
      (chunk - S.mixedDecodeTokens cfg stageIdx) then [_] else []) = _
    by_cases hsame : other = q
    · subst hsame
      rw [if_pos rfl]
      split
      next => simp [tokensOf, Piece.tokens, PredictionContext.chunkedLen, runtimePredictionContext,
        chunkedLens]
      next hzero =>
        rw [Nat.eq_zero_of_not_pos hzero]
        rfl
    · rw [if_neg fun h => hsame (Option.some.inj h)]
      split
      next => simp [tokensOf, chunkedLens, hsame]
      next => rfl

/-- The stages that see a chunked request: the one it was last batched at and the next. -/
theorem predictionChunkedReq_eq (h : S.predictionChunkedReq cfg s = some q) :
    S.ownChunk s = some q ∨
      (cfg.ppSize ≠ 1 ∧ S.ownChunk s = none ∧ S.ownChunk (cfg.prev s) = some q) := by
  unfold predictionChunkedReq at h
  split at h
  next other hown => exact .inl (hown.trans h)
  next hown =>
    split at h
    next => exact nomatch h
    next hmany => exact .inr ⟨hmany, hown, h⟩

theorem ppIdx_of_ownChunk {idx : Nat} (h : S.ownChunk idx = some q) :
    (S.heap q).ppIdx = some idx :=
  of_decide_eq_true (Option.filter_eq_some_iff.mp h).2

/-- A stage that packs tokens of a chunked request sees it and has room. -/
theorem chunkedTaken_ne_zero : S.chunkedTaken cfg chunk q s ≠ 0 ↔
    S.predictionChunkedReq cfg s = some q ∧ 0 < (S.chunkedLens q).remainPrefill ∧
      S.mixedDecodeTokens cfg s < chunk := by
  unfold chunkedTaken
  split
  next hsees =>
    constructor
    · intro hpos
      exact ⟨hsees, by omega, by omega⟩
    · intro ⟨_, hremain, hroom⟩
      omega
  next hunseen => exact ⟨fun h => absurd rfl h, fun h => absurd h.1 hunseen⟩

/-- Two stages pack the same chunked request only where it is handed on to a stage without one
of its own. -/
theorem packsTwice_of_taken (hs : s < cfg.ppSize) (ht : t < cfg.ppSize) (hne : s ≠ t)
    (htaken : S.chunkedTaken cfg chunk q s ≠ 0) (htaken' : S.chunkedTaken cfg chunk q t ≠ 0) :
    S.PacksTwice cfg chunk := by
  obtain ⟨hsees, hremain, hroom⟩ := chunkedTaken_ne_zero.mp htaken
  obtain ⟨hsees', _, hroom'⟩ := chunkedTaken_ne_zero.mp htaken'
  have hidx : ∀ {i j : Nat}, S.ownChunk i = some q → S.ownChunk j = some q → i = j := by
    intro i j hi hj
    exact Option.some.inj ((ppIdx_of_ownChunk hi).symm.trans (ppIdx_of_ownChunk hj))
  rcases predictionChunkedReq_eq hsees with hown | ⟨hmany, hnone, hprev⟩
  · rcases predictionChunkedReq_eq hsees' with hown' | ⟨hmany, hnone, hprev⟩
    · exact absurd (hidx hown hown') hne
    · have hsucc : (s + 1) % cfg.ppSize = t := by
        rw [hidx hown hprev]
        exact succ_prev ht
      exact ⟨hmany, s, hs, q, hown, hsucc ▸ hnone, hremain, hroom, hsucc ▸ hroom'⟩
  · rcases predictionChunkedReq_eq hsees' with hown' | ⟨_, _, hprev'⟩
    · have hsucc : (t + 1) % cfg.ppSize = s := by
        rw [hidx hown' hprev]
        exact succ_prev hs
      exact ⟨hmany, t, ht, q, hown', hsucc ▸ hnone, hremain, hroom', hsucc ▸ hroom⟩
    · refine absurd ?_ hne
      rw [← succ_prev hs, hidx hprev hprev', succ_prev ht]

/-- And there both stages pack it. -/
theorem taken_of_packsTwice (h : S.PacksTwice cfg chunk) : ∃ q, ∃ s < cfg.ppSize,
    ∃ t < cfg.ppSize, s ≠ t ∧ S.chunkedTaken cfg chunk q s ≠ 0 ∧
      S.chunkedTaken cfg chunk q t ≠ 0 := by
  obtain ⟨hmany, idx, hidx, q, hown, hnone, hremain, hroom, hroom'⟩ := h
  have hlt : (idx + 1) % cfg.ppSize < cfg.ppSize := Nat.mod_lt _ (by omega)
  refine ⟨q, idx, hidx, (idx + 1) % cfg.ppSize, hlt, ?_, ?_, ?_⟩
  · rw [succ_mod_eq hidx]
    split <;> omega
  · refine chunkedTaken_ne_zero.mpr ⟨?_, hremain, hroom⟩
    unfold predictionChunkedReq
    rw [hown]
  · refine chunkedTaken_ne_zero.mpr ⟨?_, hremain, hroom'⟩
    unfold predictionChunkedReq
    rw [hnone, prev_succ hidx, hown]
    exact if_neg hmany

/-- The tokens packed for a chunked request over all stages. -/
theorem tokensOf_chunked (cfg : Config) (S : Sched M) (chunk q : Nat) :
    tokensOf (.chunked q) (S.predictedPieces cfg chunk) =
      (predictionStageOrder cfg S.cur).flatMap fun s =>
        List.range' (S.chunkedLens q).prefixLen (S.chunkedTaken cfg chunk q s) := by
  unfold predictedPieces predictedStages PredictionContext.stageFeatureCandidates
  rw [PredictionContext.packStages_chunked]
  exact congrArg (fun packed => (predictionStageOrder cfg S.cur).flatMap packed)
    (funext fun s => tokensOf_chunkedPieces cfg S chunk q s)

/-- The chunked requests are packed once exactly where none is packed twice. -/
theorem chunked_contiguous_iff : (∀ q, tokensOf (.chunked q) (S.predictedPieces cfg chunk) <+:
    List.range' (S.chunkedLens q).prefixLen (S.chunkedLens q).remainPrefill) ↔
      ¬ S.PacksTwice cfg chunk := by
  have hle : ∀ q s, S.chunkedTaken cfg chunk q s ≤ (S.chunkedLens q).remainPrefill := by
    intro q s
    unfold chunkedTaken
    split
    · exact Nat.min_le_left _ _
    · exact Nat.zero_le _
  have hperm := predictionStageOrder_perm cfg S.cur
  constructor
  · intro h htwice
    obtain ⟨q, s, hs, t, ht, hne, htaken, htaken'⟩ := taken_of_packsTwice htwice
    have hpair := h q
    rw [tokensOf_chunked, flatMap_range'_prefix _ _ _ _ fun s _ => hle q s] at hpair
    have hsymm : Std.Symm fun s t => S.chunkedTaken cfg chunk q s = 0 ∨
        S.chunkedTaken cfg chunk q t = 0 := ⟨fun _ _ h => h.symm⟩
    have hboth := hpair.forall (hperm.mem_iff.mpr (List.mem_range.mpr hs))
      (hperm.mem_iff.mpr (List.mem_range.mpr ht)) hne
    exact hboth.elim htaken htaken'
  · intro h q
    rw [tokensOf_chunked, flatMap_range'_prefix _ _ _ _ fun s _ => hle q s]
    refine (hperm.nodup_iff.mpr List.nodup_range).pairwise_of_forall_ne fun s hs t ht hne => ?_
    by_contra hboth
    obtain ⟨htaken, htaken'⟩ := not_or.mp hboth
    exact h (packsTwice_of_taken (List.mem_range.mp (hperm.mem_iff.mp hs))
      (List.mem_range.mp (hperm.mem_iff.mp ht)) hne htaken htaken')

/-- The queue is packed in order. -/
theorem predictedPieces_queue (cfg : Config) (S : Sched M) (chunk : Nat) :
    (S.predictedPieces cfg chunk).flatMap Piece.queued <+:
      queueAhead (S.runtimePredictionContext cfg).waitingReqMeta 0 0 :=
  PredictionContext.packStages_queue _ chunk _ 0 0

/-- So is each of its requests. -/
theorem waiting_contiguous (cfg : Config) (S : Sched M) (chunk idx : Nat) :
    tokensOf (.waiting idx) (S.predictedPieces cfg chunk) <+:
      List.range' (S.prefillLens (.waiting idx)).1 (S.prefillLens (.waiting idx)).2 := by
  have hqueue : ((queueAhead (S.runtimePredictionContext cfg).waitingReqMeta 0 0).filter
      fun token => token.1 = idx).map (·.2) =
        List.range' (S.prefillLens (.waiting idx)).1 (S.prefillLens (.waiting idx)).2 := by
    rw [queueAhead_filter _ 0 idx (Nat.zero_le _), Nat.sub_zero]
    unfold prefillLens runtimePredictionContext
    dsimp only
    rw [List.getElem?_map]
    cases S.waitingQueue[idx]? with
    | none => rfl
    | some q => rfl
  rw [tokensOf_waiting, ← hqueue]
  exact ((S.predictedPieces_queue cfg chunk).filter _).map _

/-- A stage stays within the chunk, a single request that may not be chunked apart. -/
theorem predictedStages_bounded {features : StageFeatures}
    (h : features ∈ S.predictedStages cfg chunk) :
    (features.pieces.map (·.len)).sum + S.mixedDecodeTokens cfg features.stageIdx ≤
        max chunk (S.mixedDecodeTokens cfg features.stageIdx) ∨
      ∃ idx start len q, S.waitingQueue[idx]? = some q ∧
        (S.heap q).cannotChunkForLogprob = true ∧ features.pieces = [⟨.waiting idx, start, len⟩] := by
  obtain ⟨_, _, _, _, hstage⟩ := PredictionContext.mem_packStages h
  rcases hstage.budget with hle | ⟨idx, start, len, req, hreq, hcannot, hpieces⟩
  · left
    rw [hstage.runningTokenMax] at hle
    exact hle
  · right
    obtain ⟨q, hq, rfl⟩ := Option.map_eq_some_iff.mp (List.getElem?_map.symm.trans hreq)
    exact ⟨idx, start, len, q, hq, hcannot, hpieces⟩

/-- A candidate chunk size counts each prefill token once exactly where no chunked request is
packed twice. -/
theorem countsOnce_iff (cfg : Config) (S : Sched M) (chunk : Nat) :
    S.CountsOnce cfg chunk ↔ ¬ S.PacksTwice cfg chunk := by
  constructor
  · intro h
    exact chunked_contiguous_iff.mp fun q => h.contiguous (.chunked q)
  · intro h
    have hcontiguous : ∀ owner, tokensOf owner (S.predictedPieces cfg chunk) <+:
        List.range' (S.prefillLens owner).1 (S.prefillLens owner).2 := by
      intro owner
      cases owner with
      | chunked q => exact chunked_contiguous_iff.mpr h q
      | waiting idx => exact waiting_contiguous cfg S chunk idx
    refine ⟨fun owner => ?_, hcontiguous, predictedPieces_queue cfg S chunk,
      fun features hmem => predictedStages_bounded hmem⟩
    rw [← tokensOf_length]
    have hlen := (hcontiguous owner).length_le
    rw [List.length_range'] at hlen
    exact hlen

end Sched

namespace Sched

variable {M : Type} {cfg : Config} {S S' : Sched M} {chunk q i : Nat}

/-- Between two iterations only the micro-batch before the next one has a chunked request of
its own. -/
theorem Placed.ownChunk {complete : Prop} {flight : Nat → Bool}
    (h : Placed complete cfg i flight S)
    (hreceived : Received cfg S S') {idx : Nat} (hidx : idx < cfg.ppSize) :
    S'.ownChunk idx = if idx = cfg.prev i then (S.stages idx).beingChunkedReq else none := by
  unfold Sched.ownChunk
  rw [hreceived.stages]
  cases hchunk : (S.stages idx).beingChunkedReq with
  | none => split <;> rfl
  | some q =>
    have hsame : (S'.heap q).ppIdx = (S.heap q).ppIdx := by
      rcases hreceived.heap q with ⟨_, hq⟩ | ⟨hnew, _⟩
      · rw [hq]
      · have hold := h.fresh idx hidx q hchunk
        omega
    have howner := h.ppIdx idx hidx q hchunk
    rw [← hsame] at howner
    by_cases hprev : idx = cfg.prev i
    · rw [if_pos hprev, Option.filter_some, if_pos (decide_eq_true (howner.mpr hprev))]
    · rw [if_neg hprev, Option.filter_some]
      exact if_neg fun hown => hprev (howner.mp (of_decide_eq_true hown))

/-- In a run the micro-batch whose turn it is and the one before it pack the same request
whenever a chunked request is carried over that both have room for. -/
theorem run_packsTwice_iff [MemoryPools M] {r n : Nat} {mem : M} {inputs : Nat → StepInput}
    {samples : Nat → Nat → Nat} (hr : r < cfg.ppSize)
    (hroom : ∀ k < n, ∀ S, run cfg r mem inputs samples k = some S →
      ¬ S.FetchesWhenFull cfg (inputs k))
    (hrun : run cfg r mem inputs samples n = some S)
    (hS' : S' = S.receive cfg (inputs n)) :
    S'.PacksTwice cfg chunk ↔ cfg.ppSize ≠ 1 ∧ ∃ q,
      (S.stages (cfg.prev (n % cfg.ppSize))).beingChunkedReq = some q ∧
        0 < (S'.chunkedLens q).remainPrefill ∧
        S'.mixedDecodeTokens cfg (cfg.prev (n % cfg.ppSize)) < chunk ∧
        S'.mixedDecodeTokens cfg (n % cfg.ppSize) < chunk := by
  obtain ⟨_, hplaced⟩ := run_placed_any hr hroom hrun
  have hreceived : Received cfg S S' := hS' ▸ receive_spec cfg (inputs n) S
  have hi : n % cfg.ppSize < cfg.ppSize := Nat.mod_lt _ (by omega)
  generalize n % cfg.ppSize = i at hplaced hi ⊢
  have hown := fun {idx : Nat} (hidx : idx < cfg.ppSize) => hplaced.ownChunk hreceived hidx
  constructor
  · rintro ⟨hmany, idx, hidx, q, hchunk, _, hremain, hroom, hroom'⟩
    rw [hown hidx] at hchunk
    split at hchunk
    next hprev =>
      subst hprev
      rw [succ_prev hi] at hroom'
      exact ⟨hmany, q, hchunk, hremain, hroom, hroom'⟩
    next => exact nomatch hchunk
  · rintro ⟨hmany, q, hchunk, hremain, hroom, hroom'⟩
    refine ⟨hmany, cfg.prev i, prev_lt hi, q, ?_, ?_, hremain, hroom, ?_⟩
    · rw [hown (prev_lt hi), if_pos rfl, hchunk]
    · rw [succ_prev hi, hown hi]
      exact if_neg fun hsame => hmany ((prev_self hi).mp hsame.symm)
    · rw [succ_prev hi]
      exact hroom'

end Sched

/-- Before the second chunk of the long request its six tokens that are left are packed at both
micro-batches. -/
theorem carried_chunk_packed_twice : ∃ S, chunkedRun twoRanks 2 = some S ∧
    ¬ (S.receive twoRanks (longSecond 2)).CountsOnce twoRanks 8 := by
  have hview : (chunkedRun twoRanks 2).map (fun S =>
      ((((S.receive twoRanks (longSecond 2)).predictedPieces twoRanks 8).filter fun piece =>
        piece.owner = .chunked 1).map (·.len)).sum) = some 12 ∧
      (chunkedRun twoRanks 2).map (fun S =>
        ((S.receive twoRanks (longSecond 2)).prefillLens (.chunked 1)).2) = some 6 := by
    decide +kernel
  obtain ⟨hpacked, hleft⟩ := hview
  obtain ⟨S, hS, hpacked⟩ := Option.map_eq_some_iff.mp hpacked
  rw [hS] at hleft
  have hleft : ((S.receive twoRanks (longSecond 2)).prefillLens (.chunked 1)).2 = 6 :=
    Option.some.inj hleft
  refine ⟨S, hS, fun h => ?_⟩
  have honce := h.once (.chunked 1)
  omega

end FastPP
