import FastPP.ChunkSelection
import FastPP.PackingRuns
import FastPP.Stranded

namespace FastPP

namespace Req

variable {req : Req} {start size c : Nat} {sizes : List Nat}

/-- One chunk of a prefill: the next round starts after `prefix_indices`, the adder cuts it to
`size` tokens, `prepare_for_extend` sets the fields of the request, and `cache_unfinished_req`
makes all tokens computed so far its prefix. -/
def prefillChunk (req : Req) (size : Nat) : Req :=
  let req := (PrefillAdder.truncate (req.initNextRoundInput none) size).prepareForExtend
  { req with prefixLen := req.fillIds.length }

/-- The chunks of a prefill one after the other. -/
def prefillChunks (req : Req) (sizes : List Nat) : Req := sizes.foldl prefillChunk req

/-- A prefill in chunks whose first round matched `c` tokens of the tree cache. -/
def prefill (req : Req) (c : Nat) (sizes : List Nat) : Req :=
  (req.initNextRoundInput (some fun _ => c)).prefillChunks sizes

/-- `sizes` cuts the tokens after the prefix. -/
structure Splits (req : Req) (sizes : List Nat) : Prop where
  positive : ∀ size ∈ sizes, 0 < size
  total : req.prefixLen + sizes.sum = (req.originInputIds ++ req.outputIds).length

/-- What a chunk that started at `start` leaves behind for the next one. -/
structure Computed (req : Req) (start : Nat) : Prop where
  started : start ≤ req.prefixLen
  startLen : req.extendLogprobStartLen < req.prefixLen - start
  reported : 0 ≤ req.cachedTokens

/-- The chunks after which exactly the matched prefix is reported as cached. -/
def ReportsMatched (c : Nat) (logprobStartLen : Int) : List Nat → Prop
  | [_] => True
  | [size, _] => 2 ≤ size ∧ (logprobStartLen < c ∨ (c + size : Int) ≤ logprobStartLen + 1)
  | _ => False

theorem prefillChunks_cons (req : Req) (size : Nat) (sizes : List Nat) :
    req.prefillChunks (size :: sizes) = (req.prefillChunk size).prefillChunks sizes := by
  unfold prefillChunks
  rw [List.foldl_cons]

theorem prefillChunk_cachedTokens (req : Req) (size : Nat) :
    (req.prefillChunk size).cachedTokens =
      if 0 < req.extendLogprobStartLen then req.prefixLen - (req.extendLogprobStartLen + 1)
      else req.cachedTokens + req.prefixLen := by
  show req.cachedTokens + ((req.prefixLen : Int) -
    if 0 < req.extendLogprobStartLen then req.extendLogprobStartLen + 1 + req.cachedTokens
    else 0) = _
  by_cases hstart : 0 < req.extendLogprobStartLen
  · rw [if_pos hstart, if_pos hstart]
    omega
  · rw [if_neg hstart, if_neg hstart]
    omega

theorem prefillChunk_extendLogprobStartLen (req : Req) (size : Nat) :
    (req.prefillChunk size).extendLogprobStartLen =
      if (req.prefixLen : Int) ≤ req.logprobStartLen then
        min (req.logprobStartLen - req.prefixLen) ((size : Int) - 1)
      else (size : Int) - 1 := rfl

theorem Splits.prefillChunk_prefixLen (h : req.Splits (size :: sizes)) :
    (req.prefillChunk size).prefixLen = req.prefixLen + size := by
  have htotal := h.total
  rw [List.sum_cons] at htotal
  have hfill : (req.prefillChunk size).prefixLen =
      (sliceTo (req.originInputIds ++ req.outputIds) ((req.prefixLen : Int) + size)).length := rfl
  rw [hfill, ← Nat.cast_add, sliceTo_nat_length (by omega)]

/-- The chunk leaves the token ids alone, so the remaining sizes cut what is left. -/
theorem Splits.tail (h : req.Splits (size :: sizes)) : (req.prefillChunk size).Splits sizes := by
  refine ⟨fun n hn => h.positive n (List.mem_cons_of_mem _ hn), ?_⟩
  have htotal := h.total
  rw [List.sum_cons] at htotal
  rw [h.prefillChunk_prefixLen]
  show _ = (req.originInputIds ++ req.outputIds).length
  omega

theorem Splits.computed (h : req.Splits (size :: sizes)) (hcached : 0 ≤ req.cachedTokens)
    (hstart : req.extendLogprobStartLen < req.prefixLen ∨ req.extendLogprobStartLen = 0) :
    (req.prefillChunk size).Computed req.prefixLen := by
  have hlen := h.prefillChunk_prefixLen
  have hpos := h.positive size List.mem_cons_self
  refine ⟨by omega, ?_, ?_⟩
  · rw [prefillChunk_extendLogprobStartLen, hlen]
    split <;> omega
  · rw [prefillChunk_cachedTokens]
    split <;> omega

/-- From the second chunk on, the tokens before the previous chunk are reported as cached. -/
theorem Computed.le_cachedTokens (h : req.Computed start) (hsplit : req.Splits sizes)
    (hne : sizes ≠ []) : (start : Int) ≤ (req.prefillChunks sizes).cachedTokens := by
  induction sizes generalizing req start with
  | nil => exact absurd rfl hne
  | cons size sizes ih =>
    have hstarted := h.started
    have hstartLen := h.startLen
    have hreported := h.reported
    rw [prefillChunks_cons]
    by_cases hlast : sizes = []
    · subst hlast
      show _ ≤ (req.prefillChunk size).cachedTokens
      rw [prefillChunk_cachedTokens]
      split <;> omega
    · have hnext := hsplit.computed hreported (by omega)
      have hle := ih hnext hsplit.tail hlast
      omega

/-- The tokens reported as cached are those matched at the start exactly if the prompt was
computed in one chunk, or in two of which the first has two tokens or more, none of them before
the last with a logprob. -/
theorem cachedTokens_prefill_iff (hcached : req.cachedTokens = 0)
    (hlogprob : req.extendLogprobStartLen = 0) (hne : sizes ≠ [])
    (hpos : ∀ size ∈ sizes, 0 < size)
    (htotal : c + sizes.sum = (req.originInputIds ++ req.outputIds).length) :
    (req.prefill c sizes).cachedTokens = c ↔ ReportsMatched c req.logprobStartLen sizes := by
  have hsplit : (req.initNextRoundInput (some fun _ => c)).Splits sizes := ⟨hpos, htotal⟩
  set first := req.initNextRoundInput (some fun _ => c) with hfirst
  have hc : first.prefixLen = c := rfl
  have hcached : first.cachedTokens = 0 := hcached
  have hlogprob : first.extendLogprobStartLen = 0 := hlogprob
  have hlsl : first.logprobStartLen = req.logprobStartLen := rfl
  rw [show req.prefill c sizes = first.prefillChunks sizes from rfl]
  match sizes, hne, hsplit with
  | [size], _, _ =>
    refine ⟨fun _ => trivial, fun _ => ?_⟩
    rw [prefillChunks_cons]
    show (first.prefillChunk size).cachedTokens = c
    rw [prefillChunk_cachedTokens, hlogprob, hcached, hc]
    simp
  | [size, last], _, hsplit =>
    have hsize := hsplit.positive size List.mem_cons_self
    have hlen := hsplit.prefillChunk_prefixLen
    rw [prefillChunks_cons, prefillChunks_cons]
    show ((first.prefillChunk size).prefillChunk last).cachedTokens = c ↔ _ ∧ _
    rw [prefillChunk_cachedTokens, prefillChunk_extendLogprobStartLen, prefillChunk_cachedTokens,
      hlogprob, hcached, hlen, hc, hlsl]
    simp only [lt_irrefl, if_false]
    split <;> split <;> omega
  | size :: second :: third :: rest, _, hsplit =>
    refine ⟨fun h => ?_, fun h => h.elim⟩
    have hsize := hsplit.positive size List.mem_cons_self
    have hlen := hsplit.prefillChunk_prefixLen
    have hcomputed := hsplit.computed (by omega) (Or.inr hlogprob)
    have hnext := hsplit.tail.computed hcomputed.reported
      (Or.inl (by have := hcomputed.startLen; omega))
    have hle := hnext.le_cachedTokens hsplit.tail.tail (List.cons_ne_nil third rest)
    rw [prefillChunks_cons, prefillChunks_cons] at h
    omega

end Req

/-- Six prompt tokens and the default `logprob_start_len`. -/
def sixTokens : Req := handledReq twoRanks (plainInput 0 [1, 2, 3, 4, 5, 6] 8)

theorem cachedTokens_prefill_halves : (sixTokens.prefill 0 [3, 3]).cachedTokens = (0 : Nat) :=
  (Req.cachedTokens_prefill_iff rfl rfl (by decide) (by decide) (by decide)).mpr
    ⟨by decide, .inr (by decide)⟩

/-- With chunks of two tokens the tokens of the first chunk are reported as cached. -/
theorem thirds_report_computed : ¬ ∀ (c : Nat) (sizes : List Nat), sizes ≠ [] →
    (∀ size ∈ sizes, 0 < size) → c + sizes.sum = sixTokens.originInputIds.length →
      (sixTokens.prefill c sizes).cachedTokens = c := by
  intro hall
  have hreported : (sixTokens.prefill 0 [2, 2, 2]).cachedTokens = 2 := by decide
  have hclaimed := hall 0 [2, 2, 2] (by decide) (by decide) (by decide)
  omega

end FastPP
