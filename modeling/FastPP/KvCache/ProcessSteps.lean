import FastPP.KvCache.CachingSteps

namespace FastPP

variable {κ : Type} {env : KvEnv κ} {reqSlots tokenSlots q : Nat} {σ σ' : KvSystem κ}
  {tree : Finset Nat} {spell slots : Nat → List Nat} {hand : Hand} {r : KvReq} {flag : Bool}
  {pool : ReqToTokenPool} {kvBuffer : Nat → κ}

/-- All that has a slot is computed. -/
theorem KvReq.InRow.out_nil (h : r.InRow env pool kvBuffer) (hkv : r.kvLen = r.seqLen) :
    r.outCacheLoc = [] := by
  rw [← h.out, hkv]
  apply List.drop_of_length_le
  rw [ReqToTokenPool.read_length]

/-- A row with the slots of a path, for the tokens of the path. -/
theorem KvReq.InRow.of_path (hread : pool.read r.reqPoolIdx r.prefixIndices.length = r.prefixIndices)
    (hseq : r.seqLen = r.prefixIndices.length) (hkv : r.kvLen = r.seqLen)
    (hout : r.outCacheLoc = []) (hle : r.seqLen ≤ r.tokens.length)
    (hcomputed : r.prefixIndices.map kvBuffer =
      Causal.states env.attend (r.tokens.take r.seqLen)) : r.InRow env pool kvBuffer where
  seq_le := hle
  cached := by rw [hseq, hread]
  covered := by omega
  kvLen_le := by omega
  out := by
    rw [hout, hkv]
    apply List.drop_of_length_le
    rw [ReqToTokenPool.read_length]
  computed := by rw [hkv, ← hcomputed, hseq, hread]

/-- More tokens leave the row as it is. -/
theorem KvReq.InRow.append (h : r.InRow env pool kvBuffer) {req : Req} {token : Nat}
    {phase : KvPhase} (happend : r.req.appendToken env.tokenizer token = some req) :
    KvReq.InRow { r with req, phase } env pool kvBuffer := by
  have htokens : KvReq.tokens { r with req, phase } = r.tokens ++ [token] :=
    KvSystem.tokens_append happend
  have hle := h.seq_le
  have hkv := h.kvLen_le
  refine ⟨?_, h.cached, h.covered, h.kvLen_le, h.out, ?_⟩
  · rw [htokens, List.length_append]
    exact Nat.le_add_right_of_le hle
  · rw [htokens, List.take_append_of_le_length (by show r.kvLen ≤ _; omega)]
    exact h.computed

theorem KvReq.Aligned.append (h : r.Aligned tree spell slots) {req : Req} {token : Nat}
    {phase : KvPhase} (happend : r.req.appendToken env.tokenizer token = some req) :
    KvReq.Aligned { r with req, phase } tree spell slots := by
  have htokens : KvReq.tokens { r with req, phase } = r.tokens ++ [token] :=
    KvSystem.tokens_append happend
  refine ⟨h.mem, h.slots_eq, ?_, ?_⟩
  · rw [htokens]
    exact h.spell_le.trans (List.prefix_append _ _)
  · obtain ⟨_, _, rfl⟩ := Req.appendToken_spec happend
    exact h.prefixLen

theorem KvReq.Own.of_running (hphase : r.phase = .running) (haligned : r.Aligned tree spell slots)
    (hin : r.InRow env pool kvBuffer) (hkv : r.kvLen = r.seqLen)
    (hle : r.prefixIndices.length ≤ r.seqLen) (hlen : r.seqLen + 1 = r.tokens.length) :
    r.Own env pool kvBuffer tree spell slots := by
  refine ⟨fun _ => haligned, fun _ => hin, ?_, ?_, fun _ => ⟨hkv, hle, hlen⟩, ?_⟩
  · intro t ht
    cases hphase.symm.trans ht
  · intro t ht
    cases hphase.symm.trans ht
  · intro ht
    cases hphase.symm.trans ht

/-- A request whose slots are all the cache's own has the node and the row. -/
theorem KvInv.grantRunning (h : KvInv env reqSlots tokenSlots σ tree spell slots
      ⟨0 + {r.lastNode}, {r.reqPoolIdx} + 0, 0⟩) (hq : q < σ.numReqs)
    (hidle : (σ.reqs q).phase = .waiting) (hphase : r.phase = .running)
    (haligned : r.Aligned tree spell slots) (hin : r.InRow env σ.reqToTokenPool σ.kvBuffer)
    (hkv : r.kvLen = r.seqLen) (hseq : r.seqLen = r.prefixIndices.length)
    (hlen : r.seqLen + 1 = r.tokens.length) :
    KvInv env reqSlots tokenSlots (σ.setReq q r) tree spell slots ⟨0, 0, 0⟩ := by
  have hrow : r.holdsRow = true := by
    unfold KvReq.holdsRow
    rw [hphase]
  have hprivate : σ.privateSlots r = [] := by
    rw [KvSystem.privateSlots_eq hrow]
    apply List.drop_of_length_le
    unfold KvSystem.kvIndices
    rw [ReqToTokenPool.read_length, hseq]
  refine h.grant hq hidle ?_ ?_ ?_ (.of_running hphase haligned hin hkv (by omega) hlen)
  · rw [KvReq.lockOf_eq (KvReq.holdsLock_of_holdsRow hrow)]
    exact add_comm _ _
  · rw [KvReq.rowOf_eq hrow]
  · rw [hprivate]
    rfl

namespace KvSystem.Kept

theorem processPrefillReq {token : Nat} (h : σ.Kept env reqSlots tokenSlots flag)
    (hrun : σ.processPrefillReq env q token = some σ') :
    σ'.Kept env reqSlots tokenSlots flag := by
  obtain ⟨hflag, tree, spell, slots, h⟩ := h
  unfold KvSystem.processPrefillReq at hrun
  simp only at hrun
  split at hrun
  next => exact nomatch hrun
  next hguard =>
    obtain ⟨hphase, hkv⟩ : (σ.reqs q).phase = .extend false ∧
        (σ.reqs q).kvLen = (σ.reqs q).seqLen := by tauto
    obtain ⟨hcut, hseq⟩ := (h.own q).extend false hphase
    have hwhole := hcut.whole rfl
    have hrow : (σ.reqs q).holdsRow = true := by
      unfold KvReq.holdsRow
      rw [hphase]
    have hc := computed_of h hrow hkv
    obtain ⟨req, happend, hrun⟩ := Option.bind_eq_some_iff.mp hrun
    split at hrun
    next =>
      obtain ⟨σ₁, tree', spell', slots', hfinish, hflag', h'⟩ :=
        hc.finish (by rw [hseq, hwhole]) happend
      obtain ⟨σ₂, hσ₂, hrun⟩ := Option.bind_eq_some_iff.mp hrun
      cases hfinish.symm.trans hσ₂
      cases Option.some.inj hrun
      exact ⟨hflag'.trans hflag, tree', spell', slots', h'⟩
    next =>
      have htokens := tokens_append happend
      have hfill : req.fillIds = (σ.reqs q).req.fillIds := by
        obtain ⟨_, _, rfl⟩ := Req.appendToken_spec happend
        rfl
      obtain ⟨S', pool, rows, found, last, tree', spell', slots', hshare, hflag', h', hlast,
        hslots, hspell, hlen, hread⟩ := hc.share hseq hcut.le hfill
      obtain ⟨σ₂, hσ₂, hrun⟩ := Option.bind_eq_some_iff.mp hrun
      cases hshare.symm.trans hσ₂
      cases Option.some.inj hrun
      have htake : (KvReq.tokens { σ.reqs q with req }).take (σ.reqs q).seqLen =
          (σ.reqs q).req.fillIds := by
        rw [htokens, List.take_append_of_le_length (by rw [hseq, hwhole]), hseq, hwhole,
          List.take_length]
      have hcomputed : found.map σ.kvBuffer = Causal.states env.attend (spell' last) := by
        rw [← hslots]
        exact h'.path_computed hlast
      have hout := ((h.own q).inRow hrow).out_nil hkv
      have hseq' : (σ.reqs q).seqLen = found.length := by omega
      obtain ⟨r, hr⟩ : ∃ r : KvReq, r = { σ.reqs q with
        req := { req with prefixLen := found.length }
        prefixIndices := found
        lastNode := last
        phase := .running } := ⟨_, rfl⟩
      have hlast' : r.tokens = (σ.reqs q).tokens ++ [token] := by
        rw [hr]
        exact htokens
      have hrtake : r.tokens.take r.seqLen = spell' last := by
        rw [hlast', hspell, ← htake, htokens, hr]
      have hin : r.InRow env rows σ.kvBuffer := by
        apply KvReq.InRow.of_path
        · rw [hr]
          exact hread
        · rw [hr]
          exact hseq'
        · rw [hr]
          exact hkv
        · rw [hr]
          exact hout
        · rw [hlast', List.length_append, hr]
          exact Nat.le_add_right_of_le (by rw [hseq, hwhole])
        · rw [hrtake, hr]
          exact hcomputed
      have haligned : r.Aligned tree' spell' slots' := by
        rw [hr]
        refine ⟨hlast, hslots, ?_, rfl⟩
        show spell' last <+: KvReq.tokens { σ.reqs q with req }
        rw [hspell, htokens, hwhole]
        exact List.prefix_append _ _
      have hlen' : r.seqLen + 1 = r.tokens.length := by
        rw [hlast', List.length_append, hr]
        show (σ.reqs q).seqLen + 1 = _
        rw [hseq, hwhole]
        rfl
      have hnode : r.lastNode = last := by rw [hr]
      have hidx : r.reqPoolIdx = (σ.reqs q).reqPoolIdx := by rw [hr]
      rw [← hnode, ← hidx] at h'
      have hgrant := h'.grantRunning hc.lt (by rw [setReq_self]) (by rw [hr]) haligned hin
        (by rw [hr]; exact hkv) (by rw [hr]; exact hseq') hlen'
      refine ⟨hflag'.trans hflag, tree', spell', slots', ?_⟩
      unfold setPhase
      rw [hr] at hgrant
      simpa [setReq] using hgrant

theorem processDecodeReq {item : Nat × Nat} (h : σ.Kept env reqSlots tokenSlots flag)
    (hrun : σ.processDecodeReq env item = some σ') : σ'.Kept env reqSlots tokenSlots flag := by
  obtain ⟨q, token⟩ := item
  obtain ⟨hflag, tree, spell, slots, h⟩ := h
  unfold KvSystem.processDecodeReq at hrun
  simp only at hrun
  split at hrun
  next => exact nomatch hrun
  next hguard =>
    obtain ⟨hphase, hkv⟩ : (σ.reqs q).phase = .decode ∧
        (σ.reqs q).kvLen = (σ.reqs q).seqLen := by tauto
    obtain ⟨hle, _, hseq⟩ := (h.own q).decode hphase
    have hrow : (σ.reqs q).holdsRow = true := by
      unfold KvReq.holdsRow
      rw [hphase]
    have hc := computed_of h hrow hkv
    obtain ⟨req, happend, hrun⟩ := Option.bind_eq_some_iff.mp hrun
    split at hrun
    next =>
      obtain ⟨σ₁, tree', spell', slots', hfinish, hflag', h'⟩ := hc.finish hseq happend
      obtain ⟨σ₂, hσ₂, hrun⟩ := Option.bind_eq_some_iff.mp hrun
      cases hfinish.symm.trans hσ₂
      cases Option.some.inj hrun
      exact ⟨hflag'.trans hflag, tree', spell', slots', h'⟩
    next =>
      cases Option.some.inj hrun
      have hset : KvInv env reqSlots tokenSlots
          (σ.setReq q { σ.reqs q with req, phase := .running }) tree spell slots ⟨0, 0, 0⟩ := by
        refine h.setReq hc.lt ?_ ?_ ?_ ?_
        · rw [KvReq.lockOf_eq (KvReq.holdsLock_of_holdsRow hrow)]
          rfl
        · rw [KvReq.rowOf_eq hrow]
          rfl
        · rw [privateSlots_eq hrow]
          rfl
        · refine .of_running rfl (hc.aligned.append happend) (hc.inRow.append happend) hkv hle ?_
          have htokens : KvReq.tokens { σ.reqs q with req, phase := .running } =
            (σ.reqs q).tokens ++ [token] := tokens_append happend
          rw [htokens, List.length_append, ← hseq]
          rfl
      refine ⟨hflag, tree, spell, slots, ?_⟩
      unfold setPhase
      simpa [setReq] using hset

theorem freeGroupBegin (h : σ.Kept env reqSlots tokenSlots true) :
    KvSystem.Kept env reqSlots tokenSlots false
      { σ with tokenToKVPool := σ.tokenToKVPool.freeGroupBegin } := by
  obtain ⟨hflag, tree, spell, slots, h⟩ := h
  refine ⟨rfl, tree, spell, slots, h.locked, ?_, h.rows_eq, h.cached, h.beyond, h.own⟩
  show (σ.tokenToKVPool.freeGroupBegin.contents : Multiset Nat) + _ + _ + _ = _
  rw [TokenToKVPool.freeGroupBegin_contents hflag]
  exact h.slots_eq

/-- The frees of the whole batch take effect when its group ends. -/
theorem processDecode {items : List (Nat × Nat)} (h : σ.Kept env reqSlots tokenSlots true)
    (hrun : σ.processDecode env items = some σ') : σ'.Kept env reqSlots tokenSlots true := by
  have hfold : ∀ (items : List (Nat × Nat)) {σ σ' : KvSystem κ},
      σ.Kept env reqSlots tokenSlots false →
      items.foldlM (KvSystem.processDecodeReq env) σ = some σ' →
      σ'.Kept env reqSlots tokenSlots false := by
    intro items
    induction items with
    | nil =>
      intro σ σ' h hrun
      cases Option.some.inj hrun
      exact h
    | cons item items ih =>
      intro σ σ' h hrun
      obtain ⟨σ₁, hstep, hrest⟩ := Option.bind_eq_some_iff.mp hrun
      exact ih (h.processDecodeReq hstep) hrest
  obtain ⟨σ₁, hitems, hrun⟩ := Option.bind_eq_some_iff.mp hrun
  cases Option.some.inj hrun
  obtain ⟨hflag₁, tree₁, spell₁, slots₁, h₁⟩ := hfold items h.freeGroupBegin hitems
  refine ⟨TokenToKVPool.freeGroupEnd_flag, tree₁, spell₁, slots₁, h₁.locked, ?_, h₁.rows_eq,
    h₁.cached, h₁.beyond, h₁.own⟩
  show (σ₁.tokenToKVPool.freeGroupEnd.contents : Multiset Nat) + _ + _ + _ = _
  rw [TokenToKVPool.freeGroupEnd_contents hflag₁]
  exact h₁.slots_eq

theorem cacheChunk (h : σ.Kept env reqSlots tokenSlots flag)
    (hrun : σ.cacheChunk env q = some σ') : σ'.Kept env reqSlots tokenSlots flag := by
  obtain ⟨hflag, tree, spell, slots, h⟩ := h
  unfold KvSystem.cacheChunk at hrun
  simp only at hrun
  split at hrun
  next => exact nomatch hrun
  next hguard =>
    obtain ⟨hphase, hkv⟩ : (σ.reqs q).phase = .extend true ∧
        (σ.reqs q).kvLen = (σ.reqs q).seqLen := by tauto
    obtain ⟨hcut, hseq⟩ := (h.own q).extend true hphase
    have hrow : (σ.reqs q).holdsRow = true := by
      unfold KvReq.holdsRow
      rw [hphase]
    have hc := computed_of h hrow hkv
    obtain ⟨S', pool, rows, found, last, tree', spell', slots', hshare, hflag', h', hlast,
      hslots, hspell, _, _⟩ := hc.share hseq hcut.le (Eq.refl (σ.reqs q).req.fillIds)
    have hsame : σ.setReq q { σ.reqs q with req := (σ.reqs q).req } = σ := by
      unfold setReq
      rw [Function.update_eq_self_iff.mpr rfl]
    rw [hsame] at hshare
    obtain ⟨σ₂, hσ₂, hrun⟩ := Option.bind_eq_some_iff.mp hrun
    cases hshare.symm.trans hσ₂
    cases Option.some.inj hrun
    obtain ⟨r, hr⟩ : ∃ r : KvReq, r = { σ.reqs q with
      req := { (σ.reqs q).req with prefixLen := found.length }
      prefixIndices := found
      lastNode := last
      phase := .beingChunked } := ⟨_, rfl⟩
    have hfreed := KvInv.freeRow (r := σ.reqs q) h'
    have haligned : r.Aligned tree' spell' slots' := by
      rw [hr]
      refine ⟨hlast, hslots, ?_, rfl⟩
      show spell' last <+: (σ.reqs q).tokens
      rw [hspell]
      exact hcut.le
    have hidle : (((KvSystem.setReq { σ with
        treeCache := S', tokenToKVPool := pool, reqToTokenPool := rows } q
        { σ.reqs q with phase := .waiting }).freeRow (σ.reqs q)).reqs q).phase = .waiting := by
      show ((KvSystem.setReq _ q _).reqs q).phase = _
      rw [setReq_self]
    have hgrant := hfreed.grant (r := r) (k := ⟨0, 0, 0⟩) hc.lt hidle
      (by rw [hr, KvReq.lockOf_eq rfl]; exact add_comm _ _)
      (by rw [hr, KvReq.rowOf_none rfl]; rfl) (by rw [hr, privateSlots_none rfl]; rfl)
      (.of_aligned haligned (.inr (by rw [hr])))
    refine ⟨hflag'.trans hflag, tree', spell', slots', ?_⟩
    rw [hr] at hgrant
    simpa [setReq, setPhase, freeRow] using hgrant

theorem evict (h : σ.Kept env reqSlots tokenSlots flag) (hnone : σ.NoneMatched)
    {numTokens : Nat} (hrun : σ.evict env numTokens = some σ') :
    σ'.Kept env reqSlots tokenSlots flag := by
  obtain ⟨hflag, tree, spell, slots, h⟩ := h
  obtain ⟨S', evicted, tree', hevict, h'⟩ := h.evict hnone numTokens
  cases (KvSystem.evict_eq hevict).symm.trans hrun
  exact ⟨(TokenToKVPool.freeAll_contents _ evicted).2.trans hflag, tree', spell, slots, h'⟩

theorem retractReq {residualSize : Nat} (h : σ.Kept env reqSlots tokenSlots flag)
    (hrun : σ.retractReq env q residualSize = some σ') :
    σ'.Kept env reqSlots tokenSlots flag := by
  obtain ⟨hflag, tree, spell, slots, h⟩ := h
  unfold KvSystem.retractReq at hrun
  simp only at hrun
  split at hrun
  next => exact nomatch hrun
  next hguard =>
    obtain ⟨hphase, hnone⟩ : (σ.reqs q).phase = .running ∧ σ.NoneMatched := by tauto
    have hrow : (σ.reqs q).holdsRow = true := by
      unfold KvReq.holdsRow
      rw [hphase]
    have hlock := KvReq.holdsLock_of_holdsRow hrow
    have hq := h.lt_of_holdsRow hrow
    have h₁ := h.release hq
    rw [KvReq.lockOf_eq hlock, KvReq.rowOf_eq hrow, privateSlots_eq hrow,
      add_comm ({(σ.reqs q).lastNode} : Multiset Nat)] at h₁
    have h₂ := KvInv.freeRow (r := σ.reqs q) h₁.freeSlots
    obtain ⟨S₁, _, hdec, h₃⟩ := h₂.decLockRef
    have hnone' : KvSystem.NoneMatched (σ.setReq q { σ.reqs q with phase := .waiting }) := by
      intro p hp
      by_cases hpq : p = q
      · rw [hpq, setReq_self]
        exact nofun
      · rw [setReq_other σ _ hpq]
        exact hnone p hp
    obtain ⟨S₂, evicted, tree', hevict, h₄⟩ := h₃.evict hnone' residualSize
    obtain ⟨σ₁, hσ₁, hrun⟩ := Option.bind_eq_some_iff.mp hrun
    cases Option.some.inj (hσ₁.symm.trans (decLockRef_eq hdec))
    obtain ⟨σ₂, hσ₂, hrun⟩ := Option.bind_eq_some_iff.mp hrun
    cases Option.some.inj (hσ₂.symm.trans (KvSystem.evict_eq hevict))
    cases Option.some.inj hrun
    have h₅ := h₄.setIdle (r := { σ.reqs q with
      req := (σ.reqs q).req.resetForRetract, prefixIndices := [], phase := .waiting }) hq (by
        show ((KvSystem.setReq _ q _).reqs q).phase = _
        rw [setReq_self]) (.inl rfl)
    refine ⟨?_, tree', spell, slots, ?_⟩
    · exact (TokenToKVPool.freeAll_contents _ evicted).2.trans
        ((TokenToKVPool.free_flag _).trans hflag)
    · simpa [setReq, freeRow] using h₅

end KvSystem.Kept

end FastPP
