import FastPP.Arrivals
import FastPP.Lib.BlockWrites
import Mathlib.Data.Nat.Pairing
import Mathlib.Data.Rat.Cast.Order

namespace FastPP

/-- A row of `input_embeds`. -/
abbrev Embedding := List Rat

/-- A `TokenizedGenerateReqInput` with `len(input_embeds)`. The rows are looked up by the number
of the request: nothing but `prepare_for_extend` reads them. -/
structure EmbeddedInput where
  input : GenerateInput
  numEmbeds : Option Nat

/-- The messages, with the embeddings of the requests. -/
inductive EmbeddedReq
  | generate (embedded : EmbeddedInput)
  | abort (rid : Nat)

/-- The `fake_input_ids` of `handle_generate_request`. -/
def EmbeddedInput.tokenized (embedded : EmbeddedInput) : GenerateInput :=
  match embedded.numEmbeds with
  | none => embedded.input
  | some seqLength => { embedded.input with inputIds := List.replicate seqLength 1 }

def EmbeddedReq.recvReq : EmbeddedReq → RecvReq
  | .generate embedded => .generate embedded.tokenized
  | .abort rid => .abort rid

/-- `Req.input_embeds`. -/
def inputEmbeds (rows : Nat → Nat → Embedding) (numEmbeds : Nat → Option Nat) (q : Nat) :
    Option (List Embedding) :=
  (numEmbeds q).map fun n => (List.range n).map (rows q)

/-- `self.input_embeds` of `prepare_for_extend`. -/
def extendEmbeds (embeds : Nat → Option (List Embedding)) (reqs : List Nat) :
    Option (List Embedding) :=
  let rows := reqs.flatMap fun q => (embeds q).getD []
  if rows = [] then none else some rows

/-- How many embeddings the requests have. -/
def embedsOf (numEmbeds : Nat → Option Nat) (reqs : List Nat) : Nat :=
  (reqs.map fun q => (numEmbeds q).getD 0).sum

namespace Sched

variable {M : Type}

/-- The requests that `get_new_batch_prefill` mixes into a batch of `reqs`. -/
def mixedReqs (cfg : Config) (S : Sched M) (reqs : List Nat) : List Nat :=
  match S.stage.runningBatch with
  | none => []
  | some running =>
    if cfg.isMixedChunk &&
        !((reqs.any fun q => (S.heap q).returnLogprob) || running.returnLogprob) then
      S.unfinishedRunning
    else []

/-- If the batch has embeddings it has one row for each of its tokens, and at the token `j` of a
prompt that is given by embeddings stands the embedding `j` of the request. -/
def EmbedsAligned (S : Sched M) (embeds : Nat → Option (List Embedding)) (reqs : List Nat)
    (numTokens : Nat) : Prop :=
  ∀ tensor, extendEmbeds embeds reqs = some tensor → tensor.length = numTokens ∧
    ∀ before q after own, reqs = before ++ q :: after → embeds q = some own →
      ∀ j, (S.heap q).prefixLen ≤ j → j < (S.heap q).fillIds.length →
        j < (S.heap q).originInputIds.length →
          ∃ row, own[j]? = some row ∧
            tensor[S.extendNumTokens before + (j - (S.heap q).prefixLen)]? = some row

/-- The request computes tokens of its prompt. -/
def ComputesPrompt (S : Sched M) (q : Nat) : Prop :=
  (S.heap q).prefixLen < (S.heap q).fillIds.length ∧
    (S.heap q).prefixLen < (S.heap q).originInputIds.length

/-- The batch has no embeddings, or as many as tokens; then before each prompt that is given by
embeddings stand as many tokens as there are embeddings before those of its chunk. -/
def EmbedsLineUp (S : Sched M) (numEmbeds : Nat → Option Nat) (reqs : List Nat)
    (numTokens : Nat) : Prop :=
  embedsOf numEmbeds reqs = 0 ∨ embedsOf numEmbeds reqs = numTokens ∧
    ∀ before q after, reqs = before ++ q :: after → (numEmbeds q).isSome = true →
      S.ComputesPrompt q → ∃ before' after', reqs = before' ++ q :: after' ∧
        embedsOf numEmbeds before' + (S.heap q).prefixLen = S.extendNumTokens before

section Tensors

variable {S : Sched M} {rows : Nat → Nat → Embedding} {numEmbeds : Nat → Option Nat}
  {reqs : List Nat} {q n numTokens : Nat} {tensor : List Embedding}

/-- The rows that a request adds to the tensor. -/
def embedBlock (rows : Nat → Nat → Embedding) (numEmbeds : Nat → Option Nat) (q : Nat) :
    List Embedding :=
  (inputEmbeds rows numEmbeds q).getD []

theorem embedBlock_length : (embedBlock rows numEmbeds q).length = (numEmbeds q).getD 0 := by
  unfold embedBlock inputEmbeds
  cases numEmbeds q with
  | none => rfl
  | some n => simp

theorem embedBlock_get {j : Nat} {row : Embedding}
    (h : (embedBlock rows numEmbeds q)[j]? = some row) : row = rows q j := by
  have hlt := (List.getElem?_eq_some_iff.mp h).1
  rw [embedBlock_length] at hlt
  unfold embedBlock inputEmbeds at h
  cases hnum : numEmbeds q with
  | none =>
    rw [hnum] at hlt
    cases hlt
  | some n =>
    rw [hnum] at h hlt
    have hrange : (List.range n)[j]? = some j := List.getElem?_range hlt
    rw [Option.map_some, Option.getD_some, List.getElem?_map, hrange] at h
    exact (Option.some.inj h).symm

theorem embeds_offset : Blocks.offset (embedBlock rows numEmbeds) reqs =
    embedsOf numEmbeds reqs := by
  unfold Blocks.offset embedsOf
  congr 1
  exact List.map_congr_left fun q _ => embedBlock_length

theorem flatMap_length : (reqs.flatMap (embedBlock rows numEmbeds)).length =
    embedsOf numEmbeds reqs := by
  rw [Blocks.length_flatMap, embeds_offset]

theorem extendEmbeds_eq_some :
    extendEmbeds (inputEmbeds rows numEmbeds) reqs = some tensor ↔
      tensor = reqs.flatMap (embedBlock rows numEmbeds) ∧ embedsOf numEmbeds reqs ≠ 0 := by
  have hlen : (reqs.flatMap (embedBlock rows numEmbeds)).length = _ := flatMap_length
  rw [← hlen, Ne, List.length_eq_zero_iff]
  show (if reqs.flatMap (embedBlock rows numEmbeds) = [] then none
    else some (reqs.flatMap (embedBlock rows numEmbeds))) = some tensor ↔ _
  split
  next hnil => exact ⟨fun h => (nomatch h), fun h => absurd hnil h.2⟩
  next hne => exact ⟨fun h => ⟨(Option.some.inj h).symm, hne⟩, fun h => congrArg some h.1.symm⟩

/-- Where the counts line up so do the rows. -/
theorem EmbedsLineUp.aligned (h : S.EmbedsLineUp numEmbeds reqs numTokens)
    (hlong : ∀ q ∈ reqs, ∀ n, numEmbeds q = some n → (S.heap q).originInputIds.length ≤ n)
    (rows : Nat → Nat → Embedding) :
    S.EmbedsAligned (inputEmbeds rows numEmbeds) reqs numTokens := by
  intro tensor htensor
  obtain ⟨rfl, hne⟩ := extendEmbeds_eq_some.mp htensor
  obtain ⟨hall, hplaces⟩ := h.resolve_left hne
  refine ⟨flatMap_length.trans hall, ?_⟩
  intro before q after own hreqs hown j hstart hfill horigin
  obtain ⟨n, hn, rfl⟩ := Option.map_eq_some_iff.mp hown
  have hmem : q ∈ reqs := by
    rw [hreqs]
    exact List.mem_append_right _ List.mem_cons_self
  have hj : j < n := horigin.trans_le (hlong q hmem n hn)
  have hget : ((List.range n).map (rows q))[j]? = some (rows q j) := by
    rw [List.getElem?_map, List.getElem?_range hj]
    rfl
  obtain ⟨before', after', hreqs', hplace⟩ := hplaces before q after hreqs
    (by rw [hn]; rfl) ⟨by omega, by omega⟩
  have hblock : embedBlock rows numEmbeds q = (List.range n).map (rows q) := by
    unfold embedBlock inputEmbeds
    rw [hn]
    rfl
  have hlen : j < (embedBlock rows numEmbeds q).length := by
    rw [embedBlock_length, hn]
    exact hj
  have hat := Blocks.getElem?_offset hreqs' hlen
  rw [embeds_offset, hblock, hget] at hat
  refine ⟨rows q j, hget, ?_⟩
  have hindex : S.extendNumTokens before + (j - (S.heap q).prefixLen) =
      embedsOf numEmbeds before' + j := by omega
  rw [hindex]
  exact hat

/-- A batch of prompts that are given by embeddings and computed whole lines up. -/
theorem EmbedsLineUp.of_whole (h : ∀ q ∈ reqs, (S.heap q).prefixLen = 0 ∧
    numEmbeds q = some (S.heap q).fillIds.length) :
    S.EmbedsLineUp numEmbeds reqs (S.extendNumTokens reqs) := by
  have hcount : ∀ part : List Nat, (∀ q ∈ part, q ∈ reqs) →
      embedsOf numEmbeds part = S.extendNumTokens part := by
    intro part hpart
    unfold embedsOf extendNumTokens
    congr 1
    refine List.map_congr_left fun q hq => ?_
    obtain ⟨hlens, hnum⟩ := h q (hpart q hq)
    rw [hlens, hnum]
    rfl
  refine .inr ⟨hcount reqs fun _ hq => hq, ?_⟩
  intro before q after hreqs _ _
  refine ⟨before, after, hreqs, ?_⟩
  have hlens := (h q (hreqs ▸ List.mem_append_right _ List.mem_cons_self)).1
  rw [hlens, Nat.add_zero]
  exact hcount before fun p hp => hreqs ▸ List.mem_append_left _ hp

/-- Rows that tell their request and their place. -/
def labels (q j : Nat) : Embedding := [((Nat.pair q j : Nat) : Rat)]

theorem labels_inj {q j q' j' : Nat} (h : labels q j = labels q' j') : q = q' ∧ j = j' := by
  have hcast := Nat.cast_injective (List.cons.inj h).1
  exact Nat.pair_eq_pair.mp hcast

/-- Rows that tell their places are at their places only where the counts line up. -/
theorem EmbedsLineUp.of_aligned
    (h : S.EmbedsAligned (inputEmbeds labels numEmbeds) reqs numTokens) :
    S.EmbedsLineUp numEmbeds reqs numTokens := by
  by_cases hnone : embedsOf numEmbeds reqs = 0
  · exact .inl hnone
  · obtain ⟨hlen, hrows⟩ := h _ (extendEmbeds_eq_some.mpr ⟨rfl, hnone⟩)
    refine .inr ⟨flatMap_length.symm.trans hlen, ?_⟩
    intro before q after hreqs hsome ⟨hfill, horigin⟩
    obtain ⟨n, hn⟩ := Option.isSome_iff_exists.mp hsome
    obtain ⟨row, hown, hat⟩ := hrows before q after ((List.range n).map (labels q)) hreqs
      (by unfold inputEmbeds; rw [hn]; rfl) _ le_rfl hfill horigin
    rw [Nat.sub_self, Nat.add_zero] at hat
    obtain ⟨before', q', after', j, hreqs', hpos, hblock⟩ := Blocks.exists_block hat
    have hrow : labels q (S.heap q).prefixLen = labels q' j := by
      rw [← embedBlock_get hblock]
      have hsource : (embedBlock labels numEmbeds q)[(S.heap q).prefixLen]? = some row := by
        unfold embedBlock inputEmbeds
        rw [hn]
        exact hown
      exact (embedBlock_get hsource).symm
    obtain ⟨rfl, rfl⟩ := labels_inj hrow
    refine ⟨before', after', hreqs', ?_⟩
    rw [hpos, embeds_offset]

end Tensors

end Sched

end FastPP
