import FastPP.Packing

namespace FastPP

/-- The tokens to extend follow the prefix, and the two are a prefix of the token ids. -/
structure Req.Laid (req : Req) : Prop where
  length : (req.fillIds.length : Int) = req.prefixLen + req.extendInputLen
  fill : req.fillIds <+: req.originInputIds ++ req.outputIds

/-- A request has token ids. -/
def Req.HasIds (req : Req) : Prop := req.originInputIds ++ req.outputIds ≠ []

theorem Req.Prepared.ids {r r' : Req} (h : r.Prepared r') :
    r'.originInputIds ++ r'.outputIds = r.originInputIds ++ r.outputIds := by
  obtain ⟨_, _, _, _, _, _, _, rfl⟩ := h
  rfl

theorem Req.maxPrefixLen_lt {req : Req} (h : req.HasIds) :
    req.maxPrefixLen < (req.originInputIds ++ req.outputIds).length := by
  have hpos := List.length_pos_iff.mpr h
  unfold maxPrefixLen
  dsimp only
  split <;> split <;> (try split) <;> omega

theorem Req.maxPrefixLen_le_length (req : Req) :
    req.maxPrefixLen ≤ (req.originInputIds ++ req.outputIds).length := by
  unfold maxPrefixLen
  dsimp only
  split <;> split <;> (try split) <;> omega

/-- The input of the next round is all that follows the prefix. -/
theorem Req.laid_initNextRoundInput (req : Req) (matched : Option (Nat → Nat)) :
    (req.initNextRoundInput matched).Laid := by
  refine ⟨?_, List.prefix_rfl⟩
  show ((req.originInputIds ++ req.outputIds).length : Int) =
    (req.initNextRoundInput matched).prefixLen +
      (((req.originInputIds ++ req.outputIds).length : Int) -
        (req.initNextRoundInput matched).prefixLen)
  omega

theorem Req.extend_initNextRoundInput {req : Req} {matched : Option (Nat → Nat)}
    (h : (req.initNextRoundInput matched).prefixLen ≤ req.maxPrefixLen) :
    0 ≤ (req.initNextRoundInput matched).extendInputLen ∧
      (req.HasIds → 1 ≤ (req.initNextRoundInput matched).extendInputLen) := by
  have hext : (req.initNextRoundInput matched).extendInputLen =
      ((req.originInputIds ++ req.outputIds).length : Int) -
        (req.initNextRoundInput matched).prefixLen := rfl
  have hle := Req.maxPrefixLen_le_length req
  refine ⟨by omega, ?_⟩
  intro hids
  have hlt := Req.maxPrefixLen_lt hids
  omega

theorem Req.Laid.truncate {req : Req} (h : req.Laid) {size : Int} (h0 : 0 ≤ size)
    (hlt : size ≤ req.extendInputLen) : (PrefillAdder.truncate req size).Laid := by
  have hlen := h.length
  have hfill : (PrefillAdder.truncate req size).fillIds =
      req.fillIds.take (req.prefixLen + size).toNat := by
    show sliceTo req.fillIds (req.prefixLen + size) = _
    unfold sliceTo
    rw [if_pos (by omega)]
  refine ⟨?_, ?_⟩
  · rw [hfill, List.length_take]
    show _ = (req.prefixLen : Int) + size
    omega
  · rw [hfill]
    exact (List.take_prefix _ _).trans h.fill

namespace Selecting

open PrefillAdder (mayBeChunked Outcome)

variable {T Node : Type} {cache : PrefixCache T Node} {good : T → Prop}
  {valid : T → Node → Prop} {cfg : Config} {disable : Bool} {carried : Option Nat}
  {s s' : Selecting T Node} {size rem : Int} {q : Nat}

/-- The tokens of a request that count against the chunk. -/
def chunkShare (disable : Bool) (carried : Option Nat) (q : Nat) (req : Req) : Int :=
  if carried = some q ∨ mayBeChunked disable req = true then req.extendInputLen else 0

/-- The tokens of all listed requests, but for those that may not be chunked. -/
def chunkTokens (disable : Bool) (carried : Option Nat) (s : Selecting T Node) : Int :=
  (s.adder.canRunList.map fun q => chunkShare disable carried q (s.heap q)).sum

/-- The listed requests respect the chunk: each one is laid out right, those that may be
chunked fit, and only the recorded one is cut. -/
structure Packed (disable : Bool) (chunkSize mixedWithDecodeTokens : Nat) (carried : Option Nat)
    (s : Selecting T Node) : Prop where
  laid : ∀ q ∈ s.adder.canRunList, (s.heap q).Laid ∧ 1 ≤ (s.heap q).extendInputLen
  budget : s.chunkTokens disable carried + mixedWithDecodeTokens ≤ chunkSize
  cut : ∀ q ∈ s.adder.canRunList, ¬ (s.heap q).Filled → s.beingChunkedReq = some q ∧
    (s.adder.canRunList.getLast? = some q ∨ carried = some q)

/-- `Packed` while the list is filled, before the new chunked request is recorded. -/
structure Packing (disable : Bool) (size : Int) (carried : Option Nat) (s : Selecting T Node) :
    Prop where
  laid : ∀ q ∈ s.adder.canRunList, (s.heap q).Laid ∧
    ((s.heap q).HasIds → 1 ≤ (s.heap q).extendInputLen)
  budget : s.chunkTokens disable carried ≤ size
  cut : ∀ q ∈ s.adder.canRunList, ¬ (s.heap q).Filled →
    s.beingChunkedReq = some q ∧ carried = some q ∨
      s.adder.newBeingChunkedReq = some q ∧ s.adder.canRunList.getLast? = some q
  new : s.adder.newBeingChunkedReq ≠ none → s.beingChunkedReq = none

/-- What is left of the chunk while requests are admitted. -/
structure Room (disable : Bool) (size : Int) (carried : Option Nat) (s : Selecting T Node)
    (rem : Int) : Prop where
  packing : s.Packing disable size carried
  left : s.adder.remChunkTokens = some rem
  nonneg : 0 ≤ rem
  budget : s.chunkTokens disable carried + rem ≤ size
  new : s.adder.newBeingChunkedReq = none
  carried : s.beingChunkedReq ≠ none → rem = 0

/-- What filling leaves alone. -/
structure Fills (s s' : Selecting T Node) : Prop where
  heap : ∀ q, (s.heap q).Prepared (s'.heap q)
  listed : s.adder.canRunList <+: s'.adder.canRunList
  carried : s'.beingChunkedReq = s.beingChunkedReq

theorem Fills.refl (s : Selecting T Node) : Fills s s :=
  ⟨fun _ => .refl _, List.prefix_rfl, rfl⟩

theorem Fills.trans {s'' : Selecting T Node} (h : Fills s s') (h' : Fills s' s'') :
    Fills s s'' where
  heap q := (h.heap q).trans (h'.heap q)
  listed := h.listed.trans h'.listed
  carried := h'.carried.trans h.carried

theorem update_listed {heap : Nat → Req} {listed : List Nat} {req : Req} (hq : q ∉ listed) {r : Nat}
    (hr : r ∈ listed) : Function.update heap q req r = heap r := by
  have hne : r ≠ q := by
    rintro rfl
    exact hq hr
  exact Function.update_of_ne hne _ _

theorem chunkTokens_append {req : Req} (hq : q ∉ s.adder.canRunList)
    (hheap : s'.heap = Function.update s.heap q req)
    (hcan : s'.adder.canRunList = s.adder.canRunList ++ [q]) :
    s'.chunkTokens disable carried =
      s.chunkTokens disable carried + chunkShare disable carried q req := by
  unfold chunkTokens
  rw [hcan, hheap, List.map_append, List.sum_append, List.map_singleton, List.sum_singleton,
    Function.update_self]
  congr 2
  apply List.map_congr_left
  intro r hr
  rw [update_listed hq hr]

theorem chunkTokens_same {req : Req} (hq : q ∉ s.adder.canRunList)
    (hheap : s'.heap = Function.update s.heap q req)
    (hcan : s'.adder.canRunList = s.adder.canRunList) :
    s'.chunkTokens disable carried = s.chunkTokens disable carried := by
  unfold chunkTokens
  rw [hcan, hheap]
  congr 1
  apply List.map_congr_left
  intro r hr
  rw [update_listed hq hr]

/-- A request joins the list. -/
theorem Packing.append {req : Req} (h : s.Packing disable size carried)
    (hq : q ∉ s.adder.canRunList) (hheap : s'.heap = Function.update s.heap q req)
    (hcan : s'.adder.canRunList = s.adder.canRunList ++ [q])
    (hcarried : s'.beingChunkedReq = s.beingChunkedReq)
    (hlaid : req.Laid ∧ (req.HasIds → 1 ≤ req.extendInputLen))
    (hbudget : s.chunkTokens disable carried + chunkShare disable carried q req ≤ size)
    (hfirst : s.adder.newBeingChunkedReq = none)
    (hcut : req.Filled ∧ s'.adder.newBeingChunkedReq = none ∨
      s'.adder.newBeingChunkedReq = some q ∧ s.beingChunkedReq = none) :
    s'.Packing disable size carried where
  laid r hr := by
    rw [hcan, List.mem_append, List.mem_singleton] at hr
    rw [hheap]
    rcases hr with hr | rfl
    · rw [update_listed hq hr]
      exact h.laid r hr
    · rw [Function.update_self]
      exact hlaid
  budget := by
    rw [chunkTokens_append hq hheap hcan]
    exact hbudget
  cut r hr hne := by
    rw [hcan, List.mem_append, List.mem_singleton] at hr
    rw [hheap] at hne
    rcases hr with hr | rfl
    · rw [update_listed hq hr] at hne
      rcases h.cut r hr hne with hold | hold
      · rw [hcarried]
        exact .inl hold
      · rw [hfirst] at hold
        cases hold.1
    · rw [Function.update_self] at hne
      rcases hcut with hwhole | hnew
      · exact absurd hwhole.1 hne
      · right
        rw [hcan, List.getLast?_concat]
        exact ⟨hnew.1, rfl⟩
  new hnew := by
    rcases hcut with hwhole | hcut
    · exact absurd hwhole.2 hnew
    · rw [hcarried]
      exact hcut.2

/-- One call of `add_one_req` on a waiting request. -/
theorem Room.step {req req' : Req} {adder' : PrefillAdder} {result : AddReqResult}
    (h : s.Room disable size carried rem) (hq : q ∉ s.adder.canRunList) (hapart : carried ≠ some q)
    (hlaid : req.Laid ∧ 0 ≤ req.extendInputLen ∧ (req.HasIds → 1 ≤ req.extendInputLen))
    (hfilled : req.Filled)
    (ho : Outcome disable s.adder adder' q req req' result)
    (hheap : s'.heap = Function.update s.heap q req') (hadder : s'.adder = adder')
    (hcarried : s'.beingChunkedReq = s.beingChunkedReq) :
    s'.Packing disable size carried ∧
      (result = .continue → ∃ rem', s'.Room disable size carried rem') := by
  have hbudget := h.budget
  have hnonneg := h.nonneg
  have hext := hlaid.2.1
  cases ho with
  | refused can new left same stop =>
    refine ⟨⟨?_, ?_, ?_, ?_⟩, fun e => absurd e stop⟩
    · intro r hr
      rw [hadder, can] at hr
      rw [hheap, update_listed hq hr]
      exact h.packing.laid r hr
    · rw [chunkTokens_same hq hheap (by rw [hadder, can])]
      exact h.packing.budget
    · intro r hr hne
      rw [hadder, can] at hr
      rw [hheap, update_listed hq hr] at hne
      rw [hadder, can, new, hcarried]
      exact h.packing.cut r hr hne
    · rw [hadder, new, h.new]
      exact fun e => absurd rfl e
  | whole fits can new left same room =>
    have hcan : s'.adder.canRunList = s.adder.canRunList ++ [q] := by rw [hadder, can]
    have hshare : chunkShare disable carried q req ≤ rem := by
      unfold chunkShare
      split
      next hmay =>
        rcases fits with hfits | hfits
        · rw [h.left] at hfits
          simpa using hfits
        · rcases hmay with e | e
          · exact absurd e hapart
          · rw [hfits] at e
            cases e
      next => exact h.nonneg
    have hpack : s'.Packing disable size carried := by
      apply h.packing.append hq hheap hcan hcarried
      · rw [same]
        exact ⟨hlaid.1, hlaid.2.2⟩
      · rw [same]
        omega
      · exact h.new
      · left
        rw [same, hadder, new, h.new]
        exact ⟨hfilled, rfl⟩
    refine ⟨hpack, ?_⟩
    intro hcontinue
    have hroom := room hcontinue
    rw [left, h.left] at hroom
    have hpos : 0 < rem - req.extendInputLen := by simpa using hroom
    refine ⟨rem - req.extendInputLen, hpack, ?_, by omega, ?_, ?_, ?_⟩
    · rw [hadder, left, h.left]
      rfl
    · have hle : chunkShare disable carried q req ≤ req.extendInputLen := by
        unfold chunkShare
        split <;> omega
      rw [chunkTokens_append hq hheap hcan, same]
      omega
    · rw [hadder, new, h.new]
    · rw [hcarried]
      intro e
      have hzero := h.carried e
      omega
  | cut left ne lt can new left' short room =>
    rw [h.left] at left
    cases left
    have hcan : s'.adder.canRunList = s.adder.canRunList ++ [q] := by rw [hadder, can]
    refine ⟨?_, ?_⟩
    · apply h.packing.append hq hheap hcan hcarried
      · rw [short]
        refine ⟨hlaid.1.truncate hnonneg lt.le, ?_⟩
        intro _
        show 1 ≤ rem
        omega
      · have hshare : chunkShare disable carried q req' ≤ rem := by
          unfold chunkShare
          rw [short]
          split
          next => exact le_rfl
          next => exact hnonneg
        omega
      · exact h.new
      · right
        rw [hadder, new]
        refine ⟨rfl, ?_⟩
        by_contra hsome
        exact ne (h.carried hsome)
    · intro hcontinue
      have hroom := room hcontinue
      rw [left'] at hroom
      cases hroom

end Selecting

end FastPP
