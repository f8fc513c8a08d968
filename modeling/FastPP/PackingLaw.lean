import FastPP.PackingRuns

namespace FastPP

namespace Selecting

open PrefillAdder (mayBeChunked Outcome)

variable {T Node : Type} {cache : PrefixCache T Node} {good : T → Prop}
  {valid : T → Node → Prop} {cfg : Config} {carried : Option Nat} {prefixComputed : Bool}
  {runningReqs queue : List Nat} {s s' : Selecting T Node} {size rem : Int} {q : Nat}

/-- The prefixes that `calc_priority` computed, when it did, and their nodes. -/
def Matched (valid : T → Node → Prop) (prefixComputed : Bool) (s : Selecting T Node) (q : Nat) :
    Prop :=
  prefixComputed = true →
    (s.heap q).prefixLen ≤ (s.heap q).maxPrefixLen ∧ valid s.tree (s.lastNode q)

/-- A request with its input for the next round. -/
structure Next (valid : T → Node → Prop) (s s₁ : Selecting T Node) (q : Nat) (req : Req) :
    Prop where
  tree : ∀ n, valid s.tree n → valid s₁.tree n
  node : valid s₁.tree (s₁.lastNode q)
  nodes : ∀ r, r ≠ q → s₁.lastNode r = s.lastNode r
  heap : s₁.heap = Function.update s.heap q req
  adder : s₁.adder = s.adder
  carried : s₁.beingChunkedReq = s.beingChunkedReq
  laid : req.Laid ∧ 0 ≤ req.extendInputLen ∧ (req.HasIds → 1 ≤ req.extendInputLen)
  filled : req.Filled
  prepared : (s.heap q).Prepared req

theorem initNextRoundInput_next (hcache : cache.Usable good valid) (ht : good s.tree)
    (hmatched : s.Matched valid prefixComputed q) :
    ∃ s₁ req, s.initNextRoundInput cache prefixComputed q = some s₁ ∧ good s₁.tree ∧
      Next valid s s₁ q req := by
  unfold initNextRoundInput
  cases prefixComputed with
  | true =>
    obtain ⟨hle, hnode⟩ := hmatched rfl
    refine ⟨_, _, rfl, ht, fun _ hn => hn, hnode, fun _ _ => rfl, rfl, rfl, rfl, ?_, rfl, ?_⟩
    · exact ⟨Req.laid_initNextRoundInput _ _, Req.extend_initNextRoundInput hle⟩
    · exact Req.prepared_initNextRoundInput _ _
  | false =>
    obtain ⟨t', len, node, hrun, hgood, hlen, hnode, htree⟩ := hcache.matchPrefix s.tree
      (s.heap q).rid (((s.heap q).originInputIds ++ (s.heap q).outputIds).take
        (s.heap q).maxPrefixLen) ht
    simp only [Bool.false_eq_true, if_false, hrun, Option.bind_eq_bind, Option.bind_some,
      Option.pure_def]
    refine ⟨_, _, rfl, hgood, htree, ?_, ?_, rfl, rfl, rfl, ?_, rfl, ?_⟩
    · show valid t' (Function.update s.lastNode q node q)
      rw [Function.update_self]
      exact hnode
    · intro r hr
      exact Function.update_of_ne hr _ _
    · refine ⟨Req.laid_initNextRoundInput _ _, Req.extend_initNextRoundInput ?_⟩
      rw [List.length_take] at hlen
      exact hlen.trans (Nat.min_le_left _ _)
    · exact Req.prepared_initNextRoundInput _ _

/-- One waiting request. -/
structure Offered (cache : PrefixCache T Node) (valid : T → Node → Prop) (s s₂ : Selecting T Node)
    (q : Nat) (req req' : Req) (result : AddReqResult) : Prop where
  tree : ∀ n, valid s.tree n → valid s₂.tree n
  nodes : ∀ r, r ≠ q → s₂.lastNode r = s.lastNode r
  heap : s₂.heap = Function.update s.heap q req'
  carried : s₂.beingChunkedReq = s.beingChunkedReq
  laid : req.Laid ∧ 0 ≤ req.extendInputLen ∧ (req.HasIds → 1 ≤ req.extendInputLen)
  filled : req.Filled
  prepared : (s.heap q).Prepared req
  outcome : Outcome cache.disable s.adder s₂.adder q req req' result

theorem Offered.fills {s₂ : Selecting T Node} {req req' : Req} {result : AddReqResult}
    (h : Offered cache valid s s₂ q req req' result) : Fills s s₂ where
  heap r := by
    rw [h.heap]
    exact (h.prepared.trans h.outcome.prepared).update r
  listed := by
    rcases h.outcome.listed with e | e
    · rw [e]
    · rw [e]
      exact List.prefix_append _ _
  carried := h.carried

/-- The other requests of the queue are as before. -/
theorem Offered.matched {s₂ : Selecting T Node} {req req' : Req} {result : AddReqResult}
    (h : Offered cache valid s s₂ q req req' result) {r : Nat} (hr : r ≠ q)
    (hmatched : s.Matched valid prefixComputed r) : s₂.Matched valid prefixComputed r := by
  intro hcomputed
  obtain ⟨hle, hnode⟩ := hmatched hcomputed
  rw [h.heap, Function.update_of_ne hr, h.nodes r hr]
  exact ⟨hle, h.tree _ hnode⟩

theorem Offered.unlisted {s₂ : Selecting T Node} {req req' : Req} {result : AddReqResult}
    (h : Offered cache valid s s₂ q req req' result) {r : Nat} (hr : r ≠ q)
    (hout : r ∉ s.adder.canRunList) : r ∉ s₂.adder.canRunList := by
  rcases h.outcome.listed with e | e
  · rwa [e]
  · rw [e, List.mem_append, List.mem_singleton]
    exact not_or.mpr ⟨hout, hr⟩

/-- The loop over the waiting queue returns; it keeps within the chunk when it starts so. -/
theorem addWaitingReqs_fills (hcache : cache.Usable good valid) (cfg : Config)
    (runningReqs : List Nat) (carried : Option Nat) (size : Int) (hnodup : queue.Nodup) (ht : good s.tree)
    (hmatched : ∀ q ∈ queue, s.Matched valid prefixComputed q) :
    ∃ s', addWaitingReqs cache cfg prefixComputed runningReqs queue s = some s' ∧ Fills s s' ∧
      ((∀ q ∈ queue, q ∉ s.adder.canRunList ∧ carried ≠ some q) →
        ∀ rem, s.Room cache.disable size carried rem →
          s'.Packing cache.disable size carried) := by
  induction queue generalizing s with
  | nil => exact ⟨s, rfl, .refl s, fun _ rem hroom => hroom.packing⟩
  | cons q queue ih =>
    have hfull : ∃ s', some { s with batchIsFull := true } = some s' ∧ Fills s s' ∧
        ((∀ r ∈ q :: queue, r ∉ s.adder.canRunList ∧ carried ≠ some r) →
          ∀ rem, s.Room cache.disable size carried rem →
            s'.Packing cache.disable size carried) := by
      refine ⟨_, rfl, ⟨fun _ => .refl _, List.prefix_rfl, rfl⟩, ?_⟩
      intro _ rem hroom
      exact ⟨hroom.packing.laid, hroom.packing.budget, hroom.packing.cut, hroom.packing.new⟩
    unfold addWaitingReqs
    split
    next => exact hfull
    next =>
      split
      next => exact hfull
      next =>
        obtain ⟨s₁, req, hnext, ht₁, hs₁⟩ :=
          initNextRoundInput_next hcache ht (hmatched q List.mem_cons_self)
        obtain ⟨result, adder', req', t', hrun, ht', hvalid, ho⟩ :=
          PrefillAdder.addOneReqIn_outcome hcache ht₁ hs₁.node cfg s₁.heap s₁.adder q (s₁.heap q)
        obtain ⟨s₂, hs₂⟩ : ∃ s₂ : Selecting T Node,
          s₂ = { s₁.setReq q req' with adder := adder', tree := t' } := ⟨_, rfl⟩
        have hself : s₁.heap q = req := by rw [hs₁.heap, Function.update_self]
        have hoffered : Offered cache valid s s₂ q req req' result := by
          rw [hself, hs₁.adder] at ho
          subst hs₂
          refine ⟨fun n hn => hvalid n (hs₁.tree n hn), hs₁.nodes, ?_, hs₁.carried, hs₁.laid,
            hs₁.filled, hs₁.prepared, ho⟩
          show Function.update s₁.heap q req' = _
          rw [hs₁.heap, Function.update_idem]
        have hgood : good s₂.tree := by
          rw [hs₂]
          exact ht'
        have hstep : ∀ rem, q ∉ s.adder.canRunList → carried ≠ some q →
            s.Room cache.disable size carried rem → s₂.Packing cache.disable size carried ∧
              (result = .continue → ∃ rem', s₂.Room cache.disable size carried rem') :=
          fun rem hq hapart hroom => hroom.step hq hapart hoffered.laid hoffered.filled
            hoffered.outcome hoffered.heap rfl hoffered.carried
        simp only [hnext, hrun, Option.bind_eq_bind, Option.bind_some, ← hs₂]
        obtain ⟨hq, hnodup'⟩ := List.nodup_cons.mp hnodup
        have hne : ∀ r ∈ queue, r ≠ q := by
          rintro r hr rfl
          exact hq hr
        have hfull₂ : ∀ full, Fills s { s₂ with batchIsFull := full } ∧
            ((∀ r ∈ q :: queue, r ∉ s.adder.canRunList ∧ carried ≠ some r) →
              ∀ rem, s.Room cache.disable size carried rem →
                Packing cache.disable size carried { s₂ with batchIsFull := full }) := by
          intro full
          refine ⟨⟨hoffered.fills.heap, hoffered.fills.listed, hoffered.fills.carried⟩, ?_⟩
          intro hout rem hroom
          obtain ⟨hq, hapart⟩ := hout q List.mem_cons_self
          have hpack := (hstep rem hq hapart hroom).1
          exact ⟨hpack.laid, hpack.budget, hpack.cut, hpack.new⟩
        split
        next =>
          obtain ⟨s', hrest, hfills, hpacking⟩ := ih hnodup' hgood fun r hr =>
            hoffered.matched (hne r hr) (hmatched r (List.mem_cons_of_mem _ hr))
          refine ⟨s', hrest, hoffered.fills.trans hfills, ?_⟩
          intro hout rem hroom
          obtain ⟨hq, hapart⟩ := hout q List.mem_cons_self
          obtain ⟨rem', hroom'⟩ := (hstep rem hq hapart hroom).2 rfl
          apply hpacking _ rem' hroom'
          intro r hr
          obtain ⟨hr', hrapart⟩ := hout r (List.mem_cons_of_mem _ hr)
          exact ⟨hoffered.unlisted (hne r hr) hr', hrapart⟩
        next =>
          subst hs₂
          exact ⟨_, rfl, hfull₂ true⟩
        next => exact ⟨_, rfl, hfull₂ s₂.batchIsFull⟩

end Selecting

namespace Selecting

variable {T Node : Type} {cache : PrefixCache T Node} {good : T → Prop}
  {valid : T → Node → Prop} {cfg : Config} {prefixComputed : Bool} {runningReqs queue : List Nat}
  {s s₁ : Selecting T Node} {rem : Int} {q : Nat}

/-- The waiting requests are distinct and matched, and a carried request is none of them and
has tokens left. -/
structure Startable (valid : T → Node → Prop) (prefixComputed : Bool) (queue : List Nat)
    (s : Selecting T Node) : Prop where
  nodup : queue.Nodup
  matched : ∀ q ∈ queue, s.Matched valid prefixComputed q
  carried : ∀ q, s.beingChunkedReq = some q → q ∉ queue ∧
    (s.heap q).prefixLen < ((s.heap q).originInputIds ++ (s.heap q).outputIds).length

/-- The state after the carried request, if any, was added. -/
structure Carried (s s₁ : Selecting T Node) : Prop where
  tree : s₁.tree = s.tree
  nodes : s₁.lastNode = s.lastNode
  heap : ∀ q, (s.heap q).Prepared (s₁.heap q)
  others : ∀ q, s.beingChunkedReq ≠ some q → s₁.heap q = s.heap q
  listed : s₁.adder.canRunList = s.beingChunkedReq.toList

/-- The carried request takes what there is, up to its length. -/
theorem room_of_carried (disable : Bool) {req : Req} (hlaid : req.Laid) (hfilled : req.Filled)
    (hpos : 1 ≤ req.extendInputLen) (hrem : 0 < rem)
    (hlisted : s₁.adder.canRunList = [q])
    (hheap : s₁.heap q = PrefillAdder.truncate req (min req.extendInputLen rem))
    (hleft : s₁.adder.remChunkTokens = some (rem - min req.extendInputLen rem))
    (hnew : s₁.adder.newBeingChunkedReq = none)
    (hcarried : s₁.beingChunkedReq = if rem < req.extendInputLen then some q else none) :
    s₁.Room disable rem (some q) (rem - min req.extendInputLen rem) := by
  have hext : (s₁.heap q).extendInputLen = min req.extendInputLen rem := by
    rw [hheap]
    rfl
  have hzero : s₁.chunkTokens disable (some q) = min req.extendInputLen rem := by
    unfold chunkTokens
    rw [hlisted, List.map_singleton, List.sum_singleton]
    unfold chunkShare
    rw [if_pos (.inl rfl), hext]
  refine ⟨⟨?_, by omega, ?_, fun e => absurd hnew e⟩, hleft, by omega, by omega, hnew, ?_⟩
  · intro r hr
    rw [hlisted, List.mem_singleton] at hr
    subst hr
    refine ⟨?_, fun _ => by omega⟩
    rw [hheap]
    exact hlaid.truncate (by omega) (by omega)
  · intro r hr hcut
    rw [hlisted, List.mem_singleton] at hr
    subst hr
    left
    refine ⟨?_, rfl⟩
    rw [hcarried, if_pos]
    by_contra hle
    -- nothing is cut from a request that fits
    apply hcut
    rw [hheap, min_eq_left (by omega)]
    have hlen := hlaid.length
    have hall : sliceTo req.fillIds (req.prefixLen + req.extendInputLen) = req.fillIds :=
      sliceTo_length (by omega)
    show sliceTo req.fillIds (req.prefixLen + req.extendInputLen) = _
    rw [hall]
    exact hfilled
  · intro hsome
    rw [hcarried] at hsome
    split at hsome
    next hlt => omega
    next => exact absurd rfl hsome

/-- The carried request comes first, and leaves room if there is some. -/
theorem addCarriedChunk_carried (cfg : Config) (disable : Bool)
    (hrem : s.adder.remChunkTokens = some rem) (hlisted : s.adder.canRunList = [])
    (hnew : s.adder.newBeingChunkedReq = none)
    (hleft : ∀ q, s.beingChunkedReq = some q →
      (s.heap q).prefixLen < ((s.heap q).originInputIds ++ (s.heap q).outputIds).length) :
    ∃ s₁, s.addCarriedChunk cfg = some s₁ ∧ Carried s s₁ ∧
      (0 < rem ∨ rem = 0 ∧ s.beingChunkedReq = none →
        ∃ rem', s₁.Room disable rem s.beingChunkedReq rem') := by
  unfold addCarriedChunk
  cases hcarried : s.beingChunkedReq with
  | none =>
    refine ⟨s, rfl, ⟨rfl, rfl, fun _ => .refl _, fun _ _ => rfl, by rw [hlisted, hcarried]; rfl⟩, ?_⟩
    intro hroom
    have hzero : s.chunkTokens disable none = 0 := by
      unfold chunkTokens
      rw [hlisted]
      rfl
    refine ⟨rem, ⟨?_, by omega, ?_, ?_⟩, hrem, by omega, by omega, hnew, ?_⟩
    · intro q hq
      rw [hlisted] at hq
      cases hq
    · intro q hq
      rw [hlisted] at hq
      cases hq
    · exact fun e => absurd hnew e
    · exact fun e => absurd hcarried e
  | some q =>
    obtain ⟨req, hreq⟩ : ∃ req, req = (s.heap q).initNextRoundInput none := ⟨_, rfl⟩
    have hpos : 1 ≤ req.extendInputLen := by
      have hlt := hleft q hcarried
      rw [hreq]
      show 1 ≤ ((((s.heap q).originInputIds ++ (s.heap q).outputIds).length : Int)) -
        (s.heap q).prefixLen
      omega
    have hlaid : req.Laid := by
      rw [hreq]
      exact Req.laid_initNextRoundInput _ _
    have hfilled : req.Filled := by
      rw [hreq]
      exact Req.filled_initNextRoundInput _ _
    have hprepared : (s.heap q).Prepared (PrefillAdder.truncate req (min req.extendInputLen rem)) := by
      rw [hreq]
      exact (Req.prepared_initNextRoundInput _ _).trans (PrefillAdder.prepared_truncate _ _)
    simp only [← hreq]
    unfold PrefillAdder.addBeingChunkedReq
    simp only [hrem, Option.bind_eq_bind, Option.bind_some, Option.pure_def]
    refine ⟨_, rfl, ⟨rfl, rfl, hprepared.update, ?_, ?_⟩, ?_⟩
    · intro r hr
      have hne : r ≠ q := by
        rintro rfl
        exact hr hcarried
      exact Function.update_of_ne hne _ _
    · show s.adder.canRunList ++ [q] = _
      rw [hlisted, hcarried]
      rfl
    · intro hroom
      have hrempos : 0 < rem := by
        rcases hroom with h | h
        · exact h
        · cases h.2
      refine ⟨_, room_of_carried disable hlaid hfilled hpos hrempos ?_ ?_ ?_ hnew ?_⟩
      · show s.adder.canRunList ++ [q] = _
        rw [hlisted]
        rfl
      · exact Function.update_self _ _ _
      · rfl
      · by_cases hlt : rem < req.extendInputLen
        · simp only [hlt, decide_true, if_true]
        · simp only [hlt, decide_false, Bool.false_eq_true, if_false]

theorem Carried.matched (h : Carried s s₁) (hstart : Startable valid prefixComputed queue s)
    (hq : q ∈ queue) : s₁.Matched valid prefixComputed q := by
  have hne : s.beingChunkedReq ≠ some q := fun e => (hstart.carried q e).1 hq
  intro hcomputed
  rw [h.others q hne, h.tree, h.nodes]
  exact hstart.matched q hq hcomputed

end Selecting

end FastPP
