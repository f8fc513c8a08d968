import FastPP.Chunks
import FastPP.Selection

namespace FastPP

/-- The extend range of a listed request: up to its last token, or a proper part of it. -/
structure Req.Cut (req : Req) (goesOn : Prop) : Prop where
  le : req.prefixLen ≤ req.fillIds.length
  whole : ¬ goesOn → req.fillIds.length = req.target
  part : goesOn → req.prefixLen < req.fillIds.length ∧ req.fillIds.length < req.target

theorem Req.Cut.congr {req : Req} {p q : Prop} (h : req.Cut p) (hpq : p ↔ q) : req.Cut q :=
  ⟨h.le, fun hq => h.whole fun hp => hq (hpq.mp hp), fun hq => h.part (hpq.mpr hq)⟩

theorem Req.maxPrefixLen_le (req : Req) : req.maxPrefixLen ≤ req.target := by
  unfold maxPrefixLen target
  rw [List.length_append]
  dsimp only
  split
  next => split <;> split <;> omega
  next => split <;> omega

theorem sliceTo_nat_length {α : Type} {values : List α} {stop : Nat} (h : stop ≤ values.length) :
    (sliceTo values (stop : Int)).length = stop := by
  rw [sliceTo, if_pos (by omega), Int.toNat_natCast, List.length_take]
  omega

namespace PrefillAdder

theorem truncate_cut {req : Req} {n : Int} (hfill : req.fillIds.length = req.target)
    (hpos : 0 < n) (hlt : req.prefixLen + n < req.target) : (truncate req n).Cut True := by
  have hstop : (req.prefixLen : Int) + n = ((req.prefixLen + n.toNat : Nat) : Int) := by omega
  have hlen : (truncate req n).fillIds.length = req.prefixLen + n.toNat := by
    unfold truncate
    rw [hstop]
    exact sliceTo_nat_length (by omega)
  have htarget : (truncate req n).target = req.target := rfl
  have hlens : (truncate req n).prefixLen = req.prefixLen := rfl
  refine ⟨?_, fun h => absurd trivial h, fun _ => ⟨?_, ?_⟩⟩
  · omega
  · omega
  · omega

/-- A waiting request is turned away, or it is added or truncated. -/
theorem addOneReq_cases (cfg : Config) (heap : Nat → Req) (adder : PrefillAdder) (q : Nat)
    (req : Req) : ∃ states,
      (∃ result, result ≠ .continue ∧
        addOneReq cfg heap adder q req = (result, { adder with reqStates := states }, req)) ∨
      ∃ whole, addOneReq cfg heap adder q req =
          addOrTruncate cfg { adder with reqStates := states } q req whole ∧
        (whole = false → adder.remChunkTokens.all (req.extendInputLen ≤ ·) = false) := by
  unfold addOneReq
  split
  next =>
    unfold addOneReqIgnoreEosSafe
    dsimp only
    refine ⟨some (adder.nextReqStates cfg heap req), ?_⟩
    split
    next => exact Or.inl ⟨_, by simp, rfl⟩
    next => exact Or.inr ⟨_, rfl, id⟩
  next =>
    dsimp only
    refine ⟨adder.reqStates, ?_⟩
    split
    next => exact Or.inl ⟨_, by simp, rfl⟩
    next =>
      split
      next => exact Or.inl ⟨_, by simp, rfl⟩
      next =>
        split
        next => exact Or.inl ⟨_, by simp, rfl⟩
        next => exact Or.inr ⟨_, rfl, fun h => (Bool.or_eq_false_iff.mp h).1⟩

theorem budgetState_continue {adder : PrefillAdder} (h : adder.budgetState = .continue) :
    adder.remChunkTokens.all (0 ≤ ·) = true := by
  unfold budgetState at h
  split at h
  next => simp at h
  next =>
    split at h
    next => simp at h
    next hrem =>
      cases hr : adder.remChunkTokens with
      | none => rfl
      | some rem =>
        simp only [hr, Option.any_some, decide_eq_true_eq, not_or, not_le] at hrem
        simpa using hrem.2.le

/-- A listed request is whole, or it is the new chunked one and ends the loop. -/
theorem addOneReq_cut {cfg : Config} {heap : Nat → Req} {adder : PrefillAdder} {q : Nat}
    {req : Req} {out : AddReqResult × PrefillAdder × Req}
    (hle : req.prefixLen ≤ req.fillIds.length) (hfill : req.fillIds.length = req.target)
    (hlen : req.extendInputLen = (req.fillIds.length : Int) - req.prefixLen)
    (hrem : adder.remChunkTokens.all (0 ≤ ·) = true)
    (h : adder.addOneReq cfg heap q req = out) :
    (out.2.2.Cut False ∧ out.2.1.newBeingChunkedReq = adder.newBeingChunkedReq ∧
        (out.1 = .continue → out.2.1.remChunkTokens.all (0 ≤ ·) = true)) ∨
      (out.1 ≠ .continue ∧ out.2.1.newBeingChunkedReq = some q ∧ out.2.2.Cut True) := by
  have hwhole : req.Cut False := ⟨hle, fun _ => hfill, False.elim⟩
  obtain ⟨states, ⟨result, hstop, hout⟩ | ⟨whole, hout, hnot⟩⟩ :=
    addOneReq_cases cfg heap adder q req
  · rw [← h, hout]
    exact Or.inl ⟨hwhole, rfl, fun heq => absurd heq hstop⟩
  · rw [← h, hout]
    unfold addOrTruncate
    split
    next => exact Or.inl ⟨hwhole, rfl, budgetState_continue⟩
    next hpart =>
      dsimp only
      split
      next => exact Or.inl ⟨hwhole, rfl, fun heq => by simp at heq⟩
      next hpos =>
        have hpart := hnot (Bool.eq_false_iff.mpr hpart)
        cases hr : adder.remChunkTokens with
        | none => simp [hr] at hpart
        | some rem =>
          simp only [hr, Option.all_some, decide_eq_true_eq, decide_eq_false_iff_not,
            Option.getD_some] at hrem hpart hpos ⊢
          refine Or.inr ⟨?_, rfl, truncate_cut hfill (by omega) (by omega)⟩
          unfold budgetState
          split
          next => simp
          next => simp [prefillOneReq]

end PrefillAdder

namespace Sched

variable {M : Type} {cfg : Config} {S S' : Sched M}

/-- The carried chunked request computes its next tokens, at least one. -/
theorem addCarriedChunk_cut {adder adder' : PrefillAdder}
    (h : S.addCarriedChunk cfg adder = some (S', adder'))
    (hrem : ∀ rem, adder.remChunkTokens = some rem → 0 < rem) {q : Nat}
    (hq : S.stage.beingChunkedReq = some q) (hlt : (S.heap q).prefixLen < (S.heap q).target) :
    (S'.heap q).Cut (S'.stage.beingChunkedReq = some q) ∧
      (S'.heap q).prefixLen = (S.heap q).prefixLen ∧
      adder'.remChunkTokens.all (0 ≤ ·) = true := by
  unfold addCarriedChunk at h
  rw [hq] at h
  obtain ⟨added, hadd, h⟩ := Option.bind_eq_some_iff.mp h
  obtain ⟨rfl, rfl⟩ := Prod.mk.inj (Option.some.inj h)
  obtain ⟨rem, hsome, hadd⟩ := Option.bind_eq_some_iff.mp hadd
  have hpos := hrem rem hsome
  cases Option.some.inj hadd
  set req := (S.heap q).initNextRoundInput none with hreq
  have hfill : req.fillIds.length = req.target := by
    simp [hreq, Req.initNextRoundInput, Req.target]
  have hlens : req.prefixLen = (S.heap q).prefixLen := rfl
  have htarget : req.target = (S.heap q).target := rfl
  have hlen : req.extendInputLen = (req.fillIds.length : Int) - req.prefixLen := rfl
  have hself : ∀ (r : Req) (stage : Stage), ((S.setReq q r).setStage stage).heap q = r := by
    intro r stage
    simp [setReq, setStage]
  refine ⟨?_, ?_, ?_⟩
  · rw [setStage_stage]
    dsimp only
    rw [hself]
    by_cases htruncated : rem < req.extendInputLen
    · have hmin : min req.extendInputLen rem = rem := by omega
      rw [hmin]
      exact (PrefillAdder.truncate_cut hfill hpos (by omega)).congr (by simp [htruncated])
    · have hmin : min req.extendInputLen rem = req.extendInputLen := by omega
      have hwhole : (PrefillAdder.truncate req req.extendInputLen).fillIds = req.fillIds :=
        sliceTo_length (by omega)
      rw [hmin]
      refine ⟨?_, fun _ => ?_, fun hgoes => by simp [htruncated] at hgoes⟩
      · rw [hwhole]
        change req.prefixLen ≤ _
        omega
      · rw [hwhole]
        exact hfill
  · rw [hself]
    rfl
  · simp only [PrefillAdder.prefillOneReq, hsome, Option.map_some, Option.all_some,
      PrefillAdder.truncate, decide_eq_true_eq]
    omega

variable [MemoryPools M]

theorem initNextRoundInput_cut (S : Sched M) (q : Nat) :
    ((S.initNextRoundInput q).heap q).prefixLen ≤ ((S.initNextRoundInput q).heap q).target ∧
      ((S.initNextRoundInput q).heap q).fillIds.length =
        ((S.initNextRoundInput q).heap q).target ∧
      ((S.initNextRoundInput q).heap q).extendInputLen =
        (((S.initNextRoundInput q).heap q).fillIds.length : Int) -
          ((S.initNextRoundInput q).heap q).prefixLen := by
  have hmatch : (S.matchPrefix (S.heap q).rid (S.heap q).maxPrefixLen).2 ≤ (S.heap q).target := by
    unfold matchPrefix
    split
    next => exact Nat.zero_le _
    next => exact (Nat.min_le_right _ _).trans (S.heap q).maxPrefixLen_le
  simp only [initNextRoundInput, setReq, Function.update_self]
  exact ⟨hmatch, by simp [Req.initNextRoundInput, Req.target], rfl⟩

theorem addWaitingReqs_other {runningReqs queue : List Nat} {adder adder' : PrefillAdder}
    (h : addWaitingReqs cfg runningReqs queue S adder = (S', adder')) {q : Nat}
    (hq : q ∉ queue) : S'.heap q = S.heap q := by
  induction queue generalizing S adder with
  | nil =>
    obtain ⟨rfl, _⟩ := Prod.mk.inj h
    rfl
  | cons p queue ih =>
    obtain ⟨hne, hrest⟩ : q ≠ p ∧ q ∉ queue := by simpa using hq
    have hother : ∀ r : Req, ((S.initNextRoundInput p).setReq p r).heap q = S.heap q := fun r => by
      simp [setReq, initNextRoundInput, hne]
    unfold addWaitingReqs at h
    split at h
    next => obtain ⟨rfl, _⟩ := Prod.mk.inj h; rfl
    next =>
      split at h
      next => obtain ⟨rfl, _⟩ := Prod.mk.inj h; rfl
      next =>
        dsimp only at h
        split at h
        next => exact (ih h hrest).trans (hother _)
        next => obtain ⟨rfl, _⟩ := Prod.mk.inj h; exact hother _
        next => obtain ⟨rfl, _⟩ := Prod.mk.inj h; exact hother _

/-- The admission loop lists whole requests and at most one chunk that goes on. -/
theorem addWaitingReqs_cut {runningReqs queue : List Nat} {adder adder' : PrefillAdder}
    {chunk : Option Nat} (h : addWaitingReqs cfg runningReqs queue S adder = (S', adder'))
    (hnodup : (adder.canRunList ++ queue).Nodup) (hnew : adder.newBeingChunkedReq = none)
    (hrem : adder.remChunkTokens.all (0 ≤ ·) = true)
    (hchunk : ∀ q ∈ queue, chunk ≠ some q)
    (hold : ∀ q ∈ adder.canRunList, (S.heap q).Cut (chunk = some q)) :
    ∀ q ∈ adder'.canRunList,
      (S'.heap q).Cut (chunk = some q ∨ adder'.newBeingChunkedReq = some q) := by
  have hdone : ∀ q ∈ adder.canRunList,
      (S.heap q).Cut (chunk = some q ∨ adder.newBeingChunkedReq = some q) := fun q hq =>
    (hold q hq).congr (by simp [hnew])
  induction queue generalizing S adder with
  | nil =>
    obtain ⟨rfl, rfl⟩ := Prod.mk.inj h
    exact hdone
  | cons p queue ih =>
    unfold addWaitingReqs at h
    split at h
    next => obtain ⟨rfl, rfl⟩ := Prod.mk.inj h; exact hdone
    next =>
      split at h
      next => obtain ⟨rfl, rfl⟩ := Prod.mk.inj h; exact hdone
      next =>
        dsimp only at h
        generalize hout : adder.addOneReq cfg (S.initNextRoundInput p).heap p
          ((S.initNextRoundInput p).heap p) = out at h
        have hlists := (PrefillAdder.addOneReq_admitted cfg (S.initNextRoundInput p).heap adder p
          ((S.initNextRoundInput p).heap p)).lists
        rw [hout] at hlists
        obtain ⟨hle, hfill, hlen⟩ := initNextRoundInput_cut S p
        have hcut := PrefillAdder.addOneReq_cut (hle.trans hfill.ge) hfill hlen hrem hout
        have hp : p ∉ adder.canRunList := fun hmem =>
          (List.nodup_append.mp hnodup).2.2 p hmem p (by simp) rfl
        have hpchunk := hchunk p (by simp)
        have hself : ((S.initNextRoundInput p).setReq p out.2.2).heap p = out.2.2 := by
          simp [setReq]
        have hone : ∀ q ∈ out.2.1.canRunList,
            (((S.initNextRoundInput p).setReq p out.2.2).heap q).Cut
              (chunk = some q ∨ out.2.1.newBeingChunkedReq = some q) := by
          intro q hq
          by_cases hqp : q = p
          · subst hqp
            rw [hself]
            rcases hcut with ⟨hwhole, hsame, _⟩ | ⟨_, hsome, hpart⟩
            · exact hwhole.congr (by simp [hpchunk, hsame, hnew])
            · exact hpart.congr (by simp [hsome])
          · have hmem : q ∈ adder.canRunList := by
              rcases hlists with ⟨hsame, _⟩ | ⟨hmore, _⟩
              · exact hsame ▸ hq
              · rw [hmore] at hq
                simpa [hqp] using hq
            have hother : ((S.initNextRoundInput p).setReq p out.2.2).heap q = S.heap q := by
              simp [setReq, initNextRoundInput, hqp]
            have hnot : out.2.1.newBeingChunkedReq ≠ some q := by
              rcases hcut with ⟨_, hsame, _⟩ | ⟨_, hsome, _⟩
              · rw [hsame, hnew]
                simp
              · rw [hsome]
                simpa using Ne.symm hqp
            rw [hother]
            exact (hold q hmem).congr (by simp [hnot])
        split at h
        next hcontinue =>
          rcases hcut with ⟨_, hsame, hrem'⟩ | ⟨hstop, _⟩
          · have hnone : out.2.1.newBeingChunkedReq = none := hsame.trans hnew
            refine ih h ?_ hnone (hrem' hcontinue)
              (fun q hq => hchunk q (List.mem_cons_of_mem p hq))
              (fun q hq => (hone q hq).congr (by simp [hnone])) hone
            rcases hlists with ⟨hsame', _⟩ | ⟨hmore, _⟩
            · rw [hsame']
              exact hnodup.sublist ((List.sublist_cons_self _ _).append_left _)
            · rw [hmore]
              simpa using hnodup
          · exact absurd hcontinue hstop
        next => obtain ⟨rfl, rfl⟩ := Prod.mk.inj h; exact hone
        next => obtain ⟨rfl, rfl⟩ := Prod.mk.inj h; exact hone

/-- The chunk budget exceeds the number of decoding requests that may be mixed in. -/
def ChunkBudget (cfg : Config) (S : Sched M) : Prop :=
  ∀ size, S.chunkedPrefillSize = some size →
    (if cfg.isMixedChunk then S.runningBs else 0) < size

/-- Every listed request computes its next tokens, all of them unless it is the chunked one. -/
theorem selectPrefill_cut {adder : PrefillAdder} (h : S.selectPrefill cfg = some (S', adder))
    (hbudget : S.ChunkBudget cfg)
    (hnodup : (S.stage.beingChunkedReq.toList ++ S.waitingQueue).Nodup)
    (hlt : ∀ q, S.stage.beingChunkedReq = some q → (S.heap q).prefixLen < (S.heap q).target) :
    (∀ q ∈ adder.canRunList, (S'.heap q).Cut
        (S'.stage.beingChunkedReq = some q ∨ adder.newBeingChunkedReq = some q)) ∧
      ∀ q, S.stage.beingChunkedReq = some q →
        (S'.heap q).prefixLen = (S.heap q).prefixLen := by
  obtain ⟨⟨S₁, adder₁⟩, hcarried, h⟩ := Option.bind_eq_some_iff.mp h
  obtain ⟨queue, rng, hqueue, hperm⟩ := calcPriority_spec cfg S
  rw [hqueue] at hcarried h
  obtain ⟨_, _, _, _, ⟨chunk, hstage₁, hchunk⟩, hlist, hnew⟩ := addCarriedChunk_spec hcarried
  have hloop := Option.some.inj h
  have hstage := (addWaitingReqs_spec hloop).1.stage
  have hlist' : adder₁.canRunList = S.stage.beingChunkedReq.toList := by
    rw [hlist]
    rfl
  have hrem : ∀ rem, (PrefillAdder.init cfg { S with waitingQueue := queue, rng := rng }
      (if cfg.isMixedChunk then S.runningBs else 0)).remChunkTokens = some rem → 0 < rem := by
    intro rem hrem
    obtain ⟨size, hsize, rfl⟩ := Option.map_eq_some_iff.mp hrem
    obtain ⟨tokens, htokens, hsize⟩ := Option.bind_eq_some_iff.mp hsize
    cases Option.some.inj hsize
    have := hbudget tokens htokens
    omega
  have hnodup' : (S.stage.beingChunkedReq.toList ++ queue).Nodup :=
    (hperm.append_left _).nodup_iff.mpr hnodup
  have hapart : ∀ q, S.stage.beingChunkedReq = some q → q ∉ queue := fun q hq hmem =>
    (List.nodup_append.mp hnodup').2.2 q (by simp [hq]) q hmem rfl
  have hcut : (∀ q, S.stage.beingChunkedReq = some q →
      (S₁.heap q).Cut (S₁.stage.beingChunkedReq = some q) ∧
        (S₁.heap q).prefixLen = (S.heap q).prefixLen) ∧
      adder₁.remChunkTokens.all (0 ≤ ·) = true := by
    cases hb : S.stage.beingChunkedReq with
    | none =>
      refine ⟨by simp, ?_⟩
      unfold addCarriedChunk at hcarried
      rw [show ({ S with waitingQueue := queue, rng := rng } : Sched M).stage.beingChunkedReq = none
        from hb] at hcarried
      obtain ⟨_, rfl⟩ := Prod.mk.inj (Option.some.inj hcarried)
      cases hsome : (PrefillAdder.init cfg { S with waitingQueue := queue, rng := rng }
          (if cfg.isMixedChunk then S.runningBs else 0)).remChunkTokens with
      | none => exact hsome ▸ rfl
      | some rem =>
        have hpos := hrem rem hsome
        change Option.all _ (PrefillAdder.init cfg { S with waitingQueue := queue, rng := rng }
          (if cfg.isMixedChunk then S.runningBs else 0)).remChunkTokens = true
        rw [hsome]
        simpa using hpos.le
    | some q =>
      obtain ⟨hq, hlens, hall⟩ := addCarriedChunk_cut hcarried hrem hb (hlt q hb)
      refine ⟨fun p hp => ?_, hall⟩
      obtain rfl := Option.some.inj hp
      exact ⟨hq, hlens⟩
  rw [hstage]
  refine ⟨?_, fun q hq => ?_⟩
  · refine addWaitingReqs_cut hloop (hlist' ▸ hnodup') (by rw [hnew]; rfl) hcut.2
      (fun q hq hsome => ?_) fun q hq => ?_
    · rw [hstage₁] at hsome
      rcases hchunk with hnone | hsame
      · simp [hnone] at hsome
      · exact hapart q (hsame.symm.trans hsome) hq
    · rw [hlist', Option.mem_toList] at hq
      exact (hcut.1 q hq).1
  · rw [addWaitingReqs_other hloop (hapart q hq)]
    exact (hcut.1 q hq).2

end Sched

end FastPP
