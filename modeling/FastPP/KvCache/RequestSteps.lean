import FastPP.KvCache.MemorySteps

namespace FastPP

/-- Between two operations nothing is in hand. -/
def KvSystem.Kept {κ : Type} (env : KvEnv κ) (reqSlots tokenSlots : Nat) (flag : Bool)
    (σ : KvSystem κ) : Prop :=
  σ.tokenToKVPool.isNotInFreeGroup = flag ∧
    ∃ tree spell slots, KvInv env reqSlots tokenSlots σ tree spell slots ⟨0, 0, 0⟩

variable {κ : Type} {env : KvEnv κ} {reqSlots tokenSlots q p n : Nat} {σ σ' : KvSystem κ}
  {tree tree' : Finset Nat} {spell slots spell' slots' : Nat → List Nat} {hand k : Hand}
  {L R H : Multiset Nat} {r w : KvReq} {key value : List Nat} {flag : Bool}
  {pool : ReqToTokenPool} {kvBuffer : Nat → κ}

namespace KvReq

theorem lockOf_waiting (h : r.phase = .waiting ∨ r.phase = .matched ∨ r.phase = .finished) :
    r.lockOf = 0 := by
  unfold lockOf holdsLock
  rcases h with h | h | h <;> rw [h] <;> rfl

theorem lockOf_eq (h : r.holdsLock = true) : r.lockOf = {r.lastNode} := if_pos h

theorem rowOf_none (h : r.holdsRow = false) : r.rowOf = 0 := by
  unfold rowOf
  rw [h]
  rfl

theorem rowOf_eq (h : r.holdsRow = true) : r.rowOf = {r.reqPoolIdx} := if_pos h

/-- A request in no batch has a match at most, and the tokens of its next chunk. -/
theorem Own.of_noRow (hrow : r.holdsRow = false)
    (haligned : r.hasNode = true → r.Aligned tree spell slots)
    (hcut : ∀ truncated, r.phase = .canRun truncated → r.Cut truncated) :
    r.Own env pool kvBuffer tree spell slots := by
  have hno : ∀ phase, r.phase = phase → KvReq.holdsRow { r with phase } = false := by
    intro phase hphase
    rw [← hphase]
    exact hrow
  refine ⟨haligned, fun hr => absurd (hrow.symm.trans hr) (by decide), hcut, ?_, ?_, ?_⟩
  · exact fun t ht => absurd (hno _ ht) (by simp [holdsRow])
  · exact fun ht => absurd (hno _ ht) (by simp [holdsRow])
  · exact fun ht => absurd (hno _ ht) (by simp [holdsRow])

theorem Own.idle (h : r.phase = .waiting ∨ r.phase = .finished) :
    r.Own env pool kvBuffer tree spell slots := by
  apply Own.of_noRow
  · unfold holdsRow
    rcases h with h | h <;> rw [h]
  · intro hn
    unfold hasNode at hn
    rcases h with h | h <;> rw [h] at hn <;> exact absurd hn (by decide)
  · intro t ht
    rcases h with h | h <;> rw [h] at ht <;> cases ht

theorem Own.of_aligned (h : r.Aligned tree spell slots)
    (hphase : r.phase = .matched ∨ r.phase = .beingChunked) :
    r.Own env pool kvBuffer tree spell slots := by
  apply Own.of_noRow
  · unfold holdsRow
    rcases hphase with h | h <;> rw [h]
  · exact fun _ => h
  · intro t ht
    rcases hphase with h | h <;> rw [h] at ht <;> cases ht

theorem Own.of_canRun (h : r.Aligned tree spell slots) {truncated : Bool}
    (hphase : r.phase = .canRun truncated) (hcut : r.Cut truncated) :
    r.Own env pool kvBuffer tree spell slots := by
  apply Own.of_noRow
  · unfold holdsRow
    rw [hphase]
  · exact fun _ => h
  · intro t ht
    cases hphase.symm.trans ht
    exact hcut

end KvReq

theorem KvSystem.privateSlots_none (h : r.holdsRow = false) : σ.privateSlots r = [] := by
  unfold privateSlots
  rw [h]
  rfl

theorem KvSystem.privateSlots_eq (h : r.holdsRow = true) :
    σ.privateSlots r = (σ.kvIndices r r.seqLen).drop r.prefixIndices.length := if_pos h

@[simp] theorem KvSystem.setReq_setReq (σ : KvSystem κ) (q : Nat) (r w : KvReq) :
    (σ.setReq q w).setReq q r = σ.setReq q r := by
  unfold setReq
  rw [Function.update_idem]

namespace KvInv

/-- A request lets go of all it has. -/
theorem release (h : KvInv env reqSlots tokenSlots σ tree spell slots ⟨L, R, H⟩)
    (hq : q < σ.numReqs) :
    KvInv env reqSlots tokenSlots (σ.setReq q { σ.reqs q with phase := .waiting }) tree spell
      slots ⟨(σ.reqs q).lockOf + L, (σ.reqs q).rowOf + R,
        (σ.privateSlots (σ.reqs q) : Multiset Nat) + H⟩ := by
  refine h.setReq hq ?_ ?_ ?_ (.idle (.inl rfl))
  · rw [KvReq.lockOf_waiting (r := { σ.reqs q with phase := .waiting }) (.inl rfl), zero_add]
  · rw [KvReq.rowOf_none (r := { σ.reqs q with phase := .waiting }) rfl, zero_add]
  · rw [KvSystem.privateSlots_none (r := { σ.reqs q with phase := .waiting }) rfl]
    exact (zero_add _).symm

/-- A request gets what is in hand. -/
theorem grant (h : KvInv env reqSlots tokenSlots σ tree spell slots hand) (hq : q < σ.numReqs)
    (hidle : (σ.reqs q).phase = .waiting) (hlock : hand.locks = r.lockOf + k.locks)
    (hrow : hand.rows = r.rowOf + k.rows)
    (hslots : hand.slots = (σ.privateSlots r : Multiset Nat) + k.slots)
    (hown : r.Own env σ.reqToTokenPool σ.kvBuffer tree spell slots) :
    KvInv env reqSlots tokenSlots (σ.setReq q r) tree spell slots k := by
  have hnone : (σ.reqs q).holdsRow = false := by
    unfold KvReq.holdsRow
    rw [hidle]
  refine h.setReq hq ?_ ?_ ?_ hown
  · rw [KvReq.lockOf_waiting (.inl hidle), zero_add, hlock]
  · rw [KvReq.rowOf_none hnone, zero_add, hrow]
  · rw [KvSystem.privateSlots_none hnone, hslots]
    exact zero_add _

/-- A request with nothing goes on with nothing. -/
theorem setIdle (h : KvInv env reqSlots tokenSlots σ tree spell slots hand) (hq : q < σ.numReqs)
    (hidle : (σ.reqs q).phase = .waiting) (hr : r.phase = .waiting ∨ r.phase = .finished) :
    KvInv env reqSlots tokenSlots (σ.setReq q r) tree spell slots hand := by
  have hrow : (σ.reqs q).holdsRow = false := by
    unfold KvReq.holdsRow
    rw [hidle]
  have hrow' : r.holdsRow = false := by
    unfold KvReq.holdsRow
    rcases hr with e | e <;> rw [e]
  refine h.setReq hq ?_ ?_ ?_ (.idle hr)
  · rw [KvReq.lockOf_waiting (.inl hidle), KvReq.lockOf_waiting (by tauto)]
  · rw [KvReq.rowOf_none hrow, KvReq.rowOf_none hrow']
  · rw [KvSystem.privateSlots_none hrow, KvSystem.privateSlots_none hrow']

end KvInv

namespace KvSystem.Kept

/-- A new request has nothing. -/
theorem submit (h : σ.Kept env reqSlots tokenSlots flag) (req : Req) :
    (σ.submit req).Kept env reqSlots tokenSlots flag := by
  obtain ⟨hflag, tree, spell, slots, h⟩ := h
  have hreq : (σ.submit req).reqs σ.numReqs = .new req := σ.setReq_self σ.numReqs (.new req)
  have hother : ∀ p, p ≠ σ.numReqs → (σ.submit req).reqs p = σ.reqs p := fun p hp =>
    setReq_other σ (.new req) hp
  have hsum : ∀ f : KvReq → Multiset Nat, f (.new req) = 0 →
      (∑ p ∈ Finset.range (σ.numReqs + 1), f ((σ.submit req).reqs p)) =
        ∑ p ∈ Finset.range σ.numReqs, f (σ.reqs p) := by
    intro f hf
    rw [Finset.sum_range_succ, hreq, hf, add_zero]
    apply Finset.sum_congr rfl
    intro p hp
    rw [hother p (Finset.mem_range.mp hp).ne]
  refine ⟨hflag, tree, spell, slots, ?_, ?_, ?_, h.cached, ?_, ?_⟩
  · have hlocks : (σ.submit req).locks = σ.locks := hsum KvReq.lockOf rfl
    rw [hlocks]
    exact h.locked
  · have hprivates : (σ.submit req).privates = σ.privates :=
      hsum (fun r => (σ.privateSlots r : Multiset Nat)) rfl
    rw [hprivates]
    exact h.slots_eq
  · have hrows : (σ.submit req).rows = σ.rows := hsum KvReq.rowOf rfl
    rw [hrows]
    exact h.rows_eq
  · intro p hp
    have hp' : σ.numReqs + 1 ≤ p := hp
    rw [hother p (by omega)]
    exact h.beyond p (by omega)
  · intro p
    by_cases hp : p = σ.numReqs
    · rw [hp, hreq]
      exact .idle (.inl rfl)
    · rw [hother p hp]
      exact h.own p

theorem lookup (h : σ.Kept env reqSlots tokenSlots flag) (hrun : σ.lookup env q = some σ') :
    σ'.Kept env reqSlots tokenSlots flag := by
  obtain ⟨hflag, tree, spell, slots, h⟩ := h
  unfold KvSystem.lookup at hrun
  simp only at hrun
  split at hrun
  next => exact nomatch hrun
  next hphase =>
    have hphase : (σ.reqs q).phase = .waiting ∨ (σ.reqs q).phase = .matched := by tauto
    have hq : q < σ.numReqs := h.lt_numReqs (by rcases hphase with e | e <;> rw [e] <;> decide)
    have hrow : (σ.reqs q).holdsRow = false := by
      unfold KvReq.holdsRow
      rcases hphase with e | e <;> rw [e]
    obtain ⟨S', found, last, tree', spell', slots', hmatch, h', _, hlast, hslots, hspell, _⟩ :=
      h.matchPrefix (σ.reqs q).prefixIds
    rw [hmatch] at hrun
    cases Option.some.inj hrun
    have hle : spell' last <+: (σ.reqs q).tokens := by
      rw [hspell]
      exact (List.take_prefix _ _).trans (List.take_prefix _ _)
    refine ⟨hflag, tree', spell', slots', ?_⟩
    refine h'.setReq hq ?_ ?_ ?_ (.of_aligned ⟨hlast, hslots, hle, rfl⟩ (.inl rfl))
    · rw [KvReq.lockOf_waiting (by tauto)]
      rfl
    · rw [KvReq.rowOf_none hrow]
      rfl
    · rw [KvSystem.privateSlots_none hrow]
      rfl

theorem pass (h : σ.Kept env reqSlots tokenSlots flag) (hrun : σ.pass q = some σ') :
    σ'.Kept env reqSlots tokenSlots flag := by
  obtain ⟨hflag, tree, spell, slots, h⟩ := h
  unfold KvSystem.pass at hrun
  split at hrun
  next => exact nomatch hrun
  next hphase =>
    rw [ne_eq, not_not] at hphase
    cases Option.some.inj hrun
    have hq : q < σ.numReqs := h.lt_numReqs (by rw [hphase]; decide)
    have h' := h.release hq
    have hrow : (σ.reqs q).holdsRow = false := by
      unfold KvReq.holdsRow
      rw [hphase]
    rw [KvReq.lockOf_waiting (.inr (.inl hphase)), KvReq.rowOf_none hrow,
      KvSystem.privateSlots_none hrow] at h'
    exact ⟨hflag, tree, spell, slots, h'⟩

theorem refuse (h : σ.Kept env reqSlots tokenSlots flag) (hrun : σ.refuse q = some σ') :
    σ'.Kept env reqSlots tokenSlots flag := by
  obtain ⟨hflag, tree, spell, slots, h⟩ := h
  unfold KvSystem.refuse at hrun
  simp only at hrun
  split at hrun
  next => exact nomatch hrun
  next hphase =>
    rw [ne_eq, not_not] at hphase
    have ha := (h.own q).aligned (by unfold KvReq.hasNode; rw [hphase])
    obtain ⟨S₁, _, hinc, h₁⟩ := h.incLockRef ha.mem
    rw [KvSystem.incLockRef_eq hinc] at hrun
    obtain ⟨S₂, _, hdec, h₂⟩ := h₁.decLockRef
    cases (KvSystem.decLockRef_eq hdec).symm.trans hrun
    exact ⟨hflag, tree, spell, slots, h₂⟩

theorem sliceTo_prefix {α : Type} (values : List α) (stop : Int) : sliceTo values stop <+: values := by
  unfold sliceTo
  split
  next => exact List.take_prefix _ _
  next => exact List.take_prefix _ _

theorem admitReq {truncLen : Option Int} (h : σ.Kept env reqSlots tokenSlots flag)
    (hrun : σ.admitReq q truncLen = some σ') : σ'.Kept env reqSlots tokenSlots flag := by
  obtain ⟨hflag, tree, spell, slots, h⟩ := h
  unfold KvSystem.admitReq at hrun
  simp only at hrun
  split at hrun
  next => exact nomatch hrun
  next hphase =>
    rw [ne_eq, not_not] at hphase
    have hq : q < σ.numReqs := h.lt_numReqs (by rw [hphase]; decide)
    have hrow : (σ.reqs q).holdsRow = false := by
      unfold KvReq.holdsRow
      rw [hphase]
    have ha := (h.own q).aligned (by unfold KvReq.hasNode; rw [hphase])
    obtain ⟨S₁, _, hinc₁, h₁⟩ := h.incLockRef ha.mem
    rw [KvSystem.incLockRef_eq hinc₁] at hrun
    obtain ⟨S₂, _, hinc₂, h₂⟩ := h₁.incLockRef ha.mem
    simp only [Option.bind_eq_bind, Option.bind_some, KvSystem.incLockRef_eq hinc₂] at hrun
    obtain ⟨S₃, _, hdec, h₃⟩ := h₂.decLockRef
    simp only [KvSystem.decLockRef_eq hdec, Option.bind_some] at hrun
    cases Option.some.inj hrun
    refine ⟨hflag, tree, spell, slots, ?_⟩
    refine h₃.setReq hq ?_ ?_ ?_ (.of_canRun ?_ rfl ?_)
    · rw [KvReq.lockOf_waiting (.inr (.inl hphase)), KvReq.lockOf_eq rfl]
      exact add_comm _ _
    · rw [KvReq.rowOf_none hrow]
      rfl
    · rw [KvSystem.privateSlots_none hrow]
      rfl
    · refine ⟨ha.mem, ha.slots_eq, ?_, ?_⟩
      · cases truncLen <;> exact ha.spell_le
      · cases truncLen <;> exact ha.prefixLen
    · cases truncLen with
      | none => exact ⟨List.prefix_rfl, fun _ => rfl⟩
      | some n => exact ⟨ sliceTo_prefix _ _, fun ht => absurd ht (by simp)⟩

theorem addBeingChunkedReq {remChunkTokens : Int} (h : σ.Kept env reqSlots tokenSlots flag)
    (hrun : σ.addBeingChunkedReq q remChunkTokens = some σ') :
    σ'.Kept env reqSlots tokenSlots flag := by
  obtain ⟨hflag, tree, spell, slots, h⟩ := h
  unfold KvSystem.addBeingChunkedReq at hrun
  simp only at hrun
  split at hrun
  next => exact nomatch hrun
  next hphase =>
    rw [ne_eq, not_not] at hphase
    cases Option.some.inj hrun
    have hq : q < σ.numReqs := h.lt_numReqs (by rw [hphase]; decide)
    have hrow : (σ.reqs q).holdsRow = false := by
      unfold KvReq.holdsRow
      rw [hphase]
    have hlock : (σ.reqs q).holdsLock = true := by
      unfold KvReq.holdsLock
      rw [hphase]
    have ha := (h.own q).aligned (KvReq.hasNode_of_holdsLock hlock)
    refine ⟨hflag, tree, spell, slots, ?_⟩
    refine h.setReq hq ?_ ?_ ?_
      (.of_canRun ⟨ha.mem, ha.slots_eq, ha.spell_le, ha.prefixLen⟩ rfl ⟨ sliceTo_prefix _ _, ?_⟩)
    · rw [KvReq.lockOf_eq hlock]
      rfl
    · rw [KvReq.rowOf_none hrow]
      rfl
    · rw [KvSystem.privateSlots_none hrow]
      rfl
    · intro ht
      have hle : (σ.reqs q).req.prefixLen ≤ (σ.reqs q).tokens.length := by
        have hlen := ha.spell_le.length_le
        have hslots := h.locked.shape.slots_length ha.mem
        rw [ha.slots_eq] at hslots
        rw [ha.prefixLen]
        omega
      have hrem := of_decide_eq_false ht
      show sliceTo (σ.reqs q).tokens _ = (σ.reqs q).tokens
      have hstop : ((σ.reqs q).req.prefixLen : Int) + min
          (((σ.reqs q).tokens.length : Int) - (σ.reqs q).req.prefixLen) remChunkTokens =
          (σ.reqs q).tokens.length := by
        have hrem' : ¬ remChunkTokens <
          ((σ.reqs q).tokens.length : Int) - (σ.reqs q).req.prefixLen := hrem
        omega
      have hslice : sliceTo (σ.reqs q).tokens ((σ.reqs q).tokens.length : Int) =
          (σ.reqs q).tokens := by
        unfold sliceTo
        rw [if_pos (by omega), Int.toNat_natCast, List.take_length]
      exact (congrArg (sliceTo (σ.reqs q).tokens) hstop).trans hslice

theorem abort (h : σ.Kept env reqSlots tokenSlots flag) :
    (σ.abort q).Kept env reqSlots tokenSlots flag := by
  have hall := h
  obtain ⟨hflag, tree, spell, slots, h⟩ := h
  unfold KvSystem.abort
  simp only
  split
  next => exact hall
  next hq =>
    split
    next hphase =>
      have hrow : (σ.reqs q).holdsRow = false := by
        unfold KvReq.holdsRow
        rw [hphase]
      refine ⟨hflag, tree, spell, slots, ?_⟩
      refine h.setReq (by omega) ?_ ?_ ?_ (.idle (.inr rfl))
      · rw [KvReq.lockOf_waiting (.inl hphase)]
        rfl
      · rw [KvReq.rowOf_none hrow]
        rfl
      · rw [KvSystem.privateSlots_none hrow]
        rfl
    next =>
      have hown := h.own q
      refine ⟨hflag, tree, spell, slots, h.setReq (by omega) rfl rfl rfl ?_⟩
      refine ⟨?_, ?_, ?_, ?_, hown.running, hown.decode⟩
      · intro hn
        have ha := hown.aligned hn
        exact ⟨ha.mem, ha.slots_eq, ha.spell_le, ha.prefixLen⟩
      · intro hr
        have hi := hown.inRow hr
        exact ⟨hi.seq_le, hi.cached, hi.covered, hi.kvLen_le, hi.out, hi.computed⟩
      · intro t ht
        have hc := hown.canRun t ht
        exact ⟨hc.le, hc.whole⟩
      · intro t ht
        have hc := (hown.extend t ht).1
        exact ⟨⟨hc.le, hc.whole⟩, (hown.extend t ht).2⟩

end KvSystem.Kept

end FastPP
