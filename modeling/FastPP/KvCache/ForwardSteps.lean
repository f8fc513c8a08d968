import FastPP.KvCache.DecodeSteps

namespace FastPP

variable {κ : Type} {env : KvEnv κ} {reqSlots tokenSlots q p loc : Nat} {σ σ' : KvSystem κ}
  {tree : Finset Nat} {spell slots : Nat → List Nat} {r : KvReq} {flag : Bool}
  {rest : List Nat}

namespace KvReq

def advanced (r : KvReq) : KvReq :=
  { r with kvLen := r.kvLen + 1, outCacheLoc := r.outCacheLoc.tail }

/-- The batch feeds the next token of the request. -/
theorem Own.nextInput_eq {pool : ReqToTokenPool} {kvBuffer : Nat → κ}
    (h : r.Own env pool kvBuffer tree spell slots)
    (hphase : (∃ truncated, r.phase = .extend truncated) ∨ r.phase = .decode)
    (hlt : r.kvLen < r.seqLen) : r.tokens[r.kvLen]? = some r.nextInput := by
  rcases hphase with ⟨truncated, hphase⟩ | hphase
  · obtain ⟨hcut, hseq⟩ := h.extend truncated hphase
    have hlt' : r.kvLen < r.req.fillIds.length := by omega
    have hnext : r.nextInput = r.req.fillIds.getD r.kvLen 0 := by
      unfold nextInput
      rw [hphase]
    obtain ⟨back, hback⟩ := hcut.le
    rw [hnext, List.getD_eq_getElem?_getD, ← hback, List.getElem?_append_left hlt',
      List.getElem?_eq_getElem hlt']
    rfl
  · obtain ⟨_, hle, hseq⟩ := h.decode hphase
    have hnext : r.nextInput = r.tokens.getLastD 0 := by
      unfold nextInput
      rw [hphase]
    have hlast : r.kvLen = r.tokens.length - 1 := by omega
    have hlt' : r.tokens.length - 1 < r.tokens.length := by omega
    rw [hnext, hlast, ← List.getLast?_eq_getElem?, List.getLastD_eq_getLast?]
    cases htokens : r.tokens.getLast? with
    | none =>
      rw [List.getLast?_eq_none_iff] at htokens
      rw [htokens] at hlt'
      exact absurd hlt' (by simp)
    | some token => rfl

/-- One more token of a row has its KV data. -/
theorem Own.advance {pool : ReqToTokenPool} {kvBuffer : Nat → κ}
    (h : r.Own env pool kvBuffer tree spell slots) (hrow : r.holdsRow = true)
    (hrun : r.phase ≠ .running) (hout : r.outCacheLoc = loc :: rest) (hlt : r.kvLen < r.seqLen)
    (hcell : pool.reqToToken r.reqPoolIdx r.kvLen = loc)
    (hnext : r.tokens[r.kvLen]? = some r.nextInput)
    (hloc : kvBuffer loc =
      env.attend (Causal.states env.attend (r.tokens.take r.kvLen)) r.nextInput) :
    r.advanced.Own env pool kvBuffer tree spell slots := by
  have hin := h.inRow hrow
  have hcovered := hin.covered
  refine ⟨?_, fun _ => ⟨hin.seq_le, hin.cached, ?_, ?_, ?_, ?_⟩, ?_, ?_, ?_, ?_⟩
  · intro hn
    have ha := h.aligned hn
    exact ⟨ha.mem, ha.slots_eq, ha.spell_le, ha.prefixLen⟩
  · show min r.prefixIndices.length r.seqLen ≤ r.kvLen + 1
    omega
  · show r.kvLen + 1 ≤ r.seqLen
    omega
  · show (pool.read r.reqPoolIdx r.seqLen).drop (r.kvLen + 1) = r.outCacheLoc.tail
    rw [← List.drop_drop, hin.out, hout]
    rfl
  · show (pool.read r.reqPoolIdx (r.kvLen + 1)).map kvBuffer =
      Causal.states env.attend (r.tokens.take (r.kvLen + 1))
    rw [ReqToTokenPool.read_succ, List.map_append, hin.computed, hcell,
      Causal.states_next env.attend hnext, ← hloc]
    rfl
  · intro truncated hphase
    have hcut := h.canRun truncated hphase
    exact ⟨hcut.le, hcut.whole⟩
  · intro truncated hphase
    obtain ⟨hcut, hseq⟩ := h.extend truncated hphase
    exact ⟨⟨hcut.le, hcut.whole⟩, hseq⟩
  · intro hphase
    exact absurd hphase hrun
  · intro hphase
    obtain ⟨hle, hseq, hlen⟩ := h.decode hphase
    refine ⟨hle, ?_, hlen⟩
    show r.seqLen ≤ r.kvLen + 1 + 1
    omega

end KvReq

namespace KvInv

/-- The KV data of one token is computed from that of the tokens before it and stored in the
slot that the token has. -/
theorem computeToken (h : KvInv env reqSlots tokenSlots σ tree spell slots ⟨0, 0, 0⟩)
    (hphase : (∃ truncated, (σ.reqs q).phase = .extend truncated) ∨ (σ.reqs q).phase = .decode)
    (hout : (σ.reqs q).outCacheLoc = loc :: rest) :
    KvInv env reqSlots tokenSlots (σ.computeToken env q loc) tree spell slots ⟨0, 0, 0⟩ := by
  have hrow : (σ.reqs q).holdsRow = true := by
    unfold KvReq.holdsRow
    rcases hphase with ⟨_, e⟩ | e <;> rw [e]
  have hown := h.own q
  have hin := hown.inRow hrow
  have hlength := ReqToTokenPool.read_length σ.reqToTokenPool (σ.reqs q).reqPoolIdx (σ.reqs q).seqLen
  have hdrop := hin.out
  rw [hout] at hdrop
  have hlt : (σ.reqs q).kvLen < (σ.reqs q).seqLen := by
    have hlen := congrArg List.length hdrop
    rw [List.length_drop, hlength, List.length_cons] at hlen
    omega
  have hcell : σ.reqToTokenPool.reqToToken (σ.reqs q).reqPoolIdx (σ.reqs q).kvLen = loc := by
    have hhead := congrArg (fun xs => xs[0]?) hdrop
    simp only [List.getElem?_drop, Nat.add_zero, List.getElem?_cons_zero] at hhead
    rw [ReqToTokenPool.read_getElem? _ _ hlt] at hhead
    exact Option.some.inj hhead
  have hcovered := hin.covered
  -- the token is behind the prefix, so its slot is private
  have hprivate : (σ.privateSlots (σ.reqs q))[(σ.reqs q).kvLen -
      (σ.reqs q).prefixIndices.length]? = some loc := by
    rcases h.cell_cases hrow hlt with ⟨hpre, _⟩ | ⟨_, hget⟩
    · omega
    · rw [hget, hcell]
  obtain ⟨hfreshTree, hnodup, hfreshOther⟩ := h.private_fresh hrow (List.mem_of_getElem? hprivate)
  have hother : ∀ p, (σ.reqs p).holdsRow = true → ∀ i < (σ.reqs p).kvLen,
      σ.reqToTokenPool.reqToToken (σ.reqs p).reqPoolIdx i ≠ loc := by
    intro p hp i hi heq
    have hle := ((h.own p).inRow hp).kvLen_le
    rcases h.cell_cases hp (i := i) (by omega) with ⟨_, htree⟩ | ⟨hge, hget⟩
    · exact hfreshTree (heq ▸ htree)
    · by_cases hne : p = q
      · subst hne
        rw [heq] at hget
        have hlen : i - (σ.reqs p).prefixIndices.length <
            (σ.privateSlots (σ.reqs p)).length := (List.getElem?_eq_some_iff.mp hget).1
        have hsame := (List.getElem?_inj hlen hnodup).mp (hget.trans hprivate.symm)
        omega
      · exact hfreshOther p hne hp (heq ▸ List.mem_of_getElem? hget)
  have hwrite : ∀ s, s ≠ loc → (σ.computeToken env q loc).kvBuffer s = σ.kvBuffer s := fun s hs =>
    Function.update_of_ne hs _ _
  have hself : (σ.computeToken env q loc).kvBuffer loc =
      env.attend ((σ.kvIndices (σ.reqs q) (σ.reqs q).kvLen).map σ.kvBuffer)
        (σ.reqs q).nextInput := Function.update_self _ _ _
  have hcached : ∀ seq s, RadixCache.Leads tree spell slots seq s →
      (Causal.states env.attend seq).getLast? =
        some ((σ.computeToken env q loc).kvBuffer s) := by
    intro seq s hl
    rw [hwrite s fun e => hfreshTree (e ▸ hl.mem_slotsOf h.locked.shape)]
    exact h.cached seq s hl
  have hkv : ∀ p, (σ.reqs p).holdsRow = true → ∀ i < (σ.reqs p).kvLen,
      (σ.computeToken env q loc).kvBuffer
        (σ.reqToTokenPool.reqToToken (σ.reqs p).reqPoolIdx i) =
      σ.kvBuffer (σ.reqToTokenPool.reqToToken (σ.reqs p).reqPoolIdx i) := fun p hp i hi =>
    hwrite _ (hother p hp i hi)
  have hbase : KvInv env reqSlots tokenSlots
      { σ with kvBuffer := (σ.computeToken env q loc).kvBuffer } tree spell slots ⟨0, 0, 0⟩ :=
    ⟨h.locked, h.slots_eq, h.rows_eq, hcached, h.beyond, fun p =>
      (h.own p).frame (fun _ _ _ => rfl) (hkv p)⟩
  refine hbase.setReq (r := (σ.reqs q).advanced) (h.lt_of_holdsRow hrow) rfl rfl rfl
    ((hbase.own q).advance hrow ?_ hout hlt hcell (hown.nextInput_eq hphase hlt) ?_)
  · rcases hphase with ⟨_, e⟩ | e <;> exact fun e' => nomatch e.symm.trans e'
  · rw [← hin.computed]
    exact hself

/-- Only the phase of a request says whether the forward pass may run for it. -/
theorem computeTokens (locs : List Nat) {σ : KvSystem κ}
    (h : KvInv env reqSlots tokenSlots σ tree spell slots ⟨0, 0, 0⟩)
    (hphase : (∃ truncated, (σ.reqs q).phase = .extend truncated) ∨ (σ.reqs q).phase = .decode)
    (hout : (σ.reqs q).outCacheLoc = locs) :
    KvInv env reqSlots tokenSlots (locs.foldl (KvSystem.computeToken env q) σ) tree spell slots
        ⟨0, 0, 0⟩ ∧
      ∀ p, ((locs.foldl (KvSystem.computeToken env q) σ).reqs p).phase = (σ.reqs p).phase := by
  induction locs generalizing σ with
  | nil => exact ⟨h, fun _ => rfl⟩
  | cons loc locs ih =>
    have hstep := h.computeToken hphase hout
    have hself : (σ.computeToken env q loc).reqs q = (σ.reqs q).advanced :=
      KvSystem.setReq_self σ q (σ.reqs q).advanced
    have hphases : ∀ p, ((σ.computeToken env q loc).reqs p).phase = (σ.reqs p).phase := by
      intro p
      by_cases hp : p = q
      · rw [hp, hself]
        rfl
      · exact congrArg KvReq.phase (KvSystem.setReq_other σ (σ.reqs q).advanced hp)
    obtain ⟨hinv, hrest⟩ := ih hstep (by rw [hphases]; exact hphase) (by
      rw [hself]
      show (σ.reqs q).outCacheLoc.tail = locs
      rw [hout]
      rfl)
    exact ⟨hinv, fun p => (hrest p).trans (hphases p)⟩

theorem computeReqs (qs : List Nat) {σ : KvSystem κ}
    (h : KvInv env reqSlots tokenSlots σ tree spell slots ⟨0, 0, 0⟩)
    (hphase : ∀ q ∈ qs, (∃ truncated, (σ.reqs q).phase = .extend truncated) ∨
      (σ.reqs q).phase = .decode) :
    KvInv env reqSlots tokenSlots (qs.foldl (KvSystem.computeReq env) σ) tree spell slots
      ⟨0, 0, 0⟩ := by
  induction qs generalizing σ with
  | nil => exact h
  | cons q qs ih =>
    obtain ⟨hinv, hphases⟩ := h.computeTokens _ (hphase q List.mem_cons_self) rfl
    apply ih hinv
    intro p hp
    rw [hphases p]
    exact hphase p (List.mem_cons_of_mem _ hp)

end KvInv

theorem KvSystem.computeReq_pool (σ : KvSystem κ) (q : Nat) :
    (σ.computeReq env q).tokenToKVPool = σ.tokenToKVPool := by
  unfold computeReq
  generalize (σ.reqs q).outCacheLoc = locs
  induction locs generalizing σ with
  | nil => rfl
  | cons loc locs ih => exact ih (σ.computeToken env q loc)

theorem KvSystem.computeReqs_pool (qs : List Nat) (σ : KvSystem κ) :
    (qs.foldl (KvSystem.computeReq env) σ).tokenToKVPool = σ.tokenToKVPool := by
  induction qs generalizing σ with
  | nil => rfl
  | cons q qs ih => exact (ih (σ.computeReq env q)).trans (σ.computeReq_pool q)

theorem KvSystem.Kept.forwardBatch {qs : List Nat} (h : σ.Kept env reqSlots tokenSlots flag)
    (hrun : σ.forwardBatch env qs = some σ') : σ'.Kept env reqSlots tokenSlots flag := by
  obtain ⟨hflag, tree, spell, slots, h⟩ := h
  unfold KvSystem.forwardBatch at hrun
  split at hrun
  next => exact nomatch hrun
  next hphase =>
    rw [not_not] at hphase
    split at hrun
    next => exact nomatch hrun
    next =>
      cases Option.some.inj hrun
      refine ⟨?_, tree, spell, slots, h.computeReqs qs ?_⟩
      · rw [KvSystem.computeReqs_pool]
        exact hflag
      · intro q hq
        rcases hphase q hq with e | e | e
        · exact .inl ⟨_, e⟩
        · exact .inl ⟨_, e⟩
        · exact .inr e

end FastPP
