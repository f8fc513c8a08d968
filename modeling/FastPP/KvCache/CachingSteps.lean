import FastPP.Delivery
import FastPP.KvCache.RequestSteps

namespace FastPP

open RadixCache (Leads)

variable {κ : Type} {env : KvEnv κ} {reqSlots tokenSlots q p n : Nat} {σ σ' : KvSystem κ}
  {tree tree' : Finset Nat} {spell slots spell' slots' : Nat → List Nat} {hand : Hand}
  {L R H : Multiset Nat} {r w : KvReq} {key value tokenIds : List Nat} {flag : Bool}
  {reqs : Nat → KvReq}

/-- What is behind the prefix of a request is freed or cached. -/
theorem drop_parts {α : Type} (values : List α) (start len : Nat)
    (h : min start values.length ≤ len) (hle : len ≤ values.length) :
    values.drop start = (values.take len).drop start ++ values.drop len := by
  by_cases hlen : start ≤ len
  · rw [List.drop_take]
    have hsplit := List.take_append_drop (len - start) (values.drop start)
    rw [List.drop_drop, Nat.add_sub_cancel' hlen] at hsplit
    exact hsplit.symm
  · have hall : len = values.length := by omega
    rw [List.drop_of_length_le (by omega), List.drop_of_length_le (by
      rw [List.length_take]
      omega), hall, List.drop_length, List.append_nil]

namespace KvInv

/-- The slots of a row go to the cache or are freed; the cache has a slot for each prefix of
the tokens, on the request's own prefix the one that the row has. -/
theorem insertRow (σ : KvSystem κ) (reqs : Nat → KvReq) (r : KvReq) (tokenIds : List Nat)
    (h : KvInv env reqSlots tokenSlots { σ with reqs } tree spell slots
      ⟨L, R, ((σ.kvIndices r tokenIds.length).drop r.prefixIndices.length : List Nat) + H⟩)
    (hvalue : (σ.kvIndices r tokenIds.length).map σ.kvBuffer =
      Causal.states env.attend tokenIds)
    (hrow : (σ.kvIndices r tokenIds.length).take r.prefixIndices.length =
      r.prefixIndices.take tokenIds.length)
    (hnode : n ∈ tree) (hslots : slots n = r.prefixIndices) (hspell : spell n <+: key)
    (hkey : tokenIds <+: key) :
    ∃ S' pool tree' spell' slots', σ.insertRow env r tokenIds =
        some { σ with treeCache := S', tokenToKVPool := pool } ∧
      pool.isNotInFreeGroup = σ.tokenToKVPool.isNotInFreeGroup ∧
      KvInv env reqSlots tokenSlots
        { σ with treeCache := S', tokenToKVPool := pool, reqs } tree' spell' slots' ⟨L, R, H⟩ ∧
      ∀ i < tokenIds.length, ∃ s, Leads tree' spell' slots' (tokenIds.take (i + 1)) s ∧
        (i < r.prefixIndices.length → (σ.kvIndices r tokenIds.length)[i]? = some s) := by
  have hlength : (σ.kvIndices r tokenIds.length).length = tokenIds.length :=
    ReqToTokenPool.read_length _ _ _
  have hshape := h.locked.shape
  have hnodeLen : r.prefixIndices.length = (spell n).length := by
    rw [← hslots, hshape.slots_length hnode]
  -- a prefix of the tokens that the request's own prefix covers is on the path of its node
  have hsame : ∀ m, m ≤ tokenIds.length → m ≤ r.prefixIndices.length →
      tokenIds.take m = (spell n).take m := by
    intro m hm hm'
    have hone := List.prefix_iff_eq_take.mp (((List.take_prefix m tokenIds).trans hkey))
    have htwo := List.prefix_iff_eq_take.mp (((List.take_prefix m (spell n)).trans hspell))
    rw [hone, htwo, List.length_take, List.length_take]
    congr 1
    omega
  obtain ⟨S', len, tree', spell', slots', hrun, hi, hkept⟩ := h.insert hvalue
  have hmin : min r.prefixIndices.length tokenIds.length ≤ len := by
    by_contra hlt
    have hlen : len < tokenIds.length := by omega
    have hnil : tokenIds.take (len + 1) ≠ [] := by
      intro hnil
      have hzero := congrArg List.length hnil
      rw [List.length_take, List.length_nil] at hzero
      omega
    have hpre : tokenIds.take (len + 1) <+: spell n := by
      rw [hsame (len + 1) (by omega) (by omega)]
      exact List.take_prefix _ _
    obtain ⟨s, hs⟩ := hshape.leads_of_prefix hnode hnil hpre
    apply hi.longest tokenIds[len] s (List.getElem?_eq_getElem hlen)
    rw [hshape.root_spell, List.nil_append]
    rwa [List.take_add_one, List.getElem?_eq_getElem hlen] at hs
  have hparts := drop_parts (σ.kvIndices r tokenIds.length) r.prefixIndices.length len (by omega)
    (by rw [hlength]; exact hi.le)
  have h₁ := hkept ((((σ.kvIndices r tokenIds.length).take len).drop r.prefixIndices.length :
    List Nat) + H) (by
      rw [hparts, ← Multiset.coe_add]
      abel)
  refine ⟨S', σ.tokenToKVPool.free (((σ.kvIndices r tokenIds.length).take len).drop
    r.prefixIndices.length), tree', spell', slots', ?_, TokenToKVPool.free_flag _, h₁.freeSlots,
    ?_⟩
  · unfold KvSystem.insertRow
    simp only
    rw [hrun]
    rfl
  · intro i hi'
    obtain ⟨s, hs, _, hold⟩ := hi.leads_all hshape hlength hi'
    refine ⟨s, hs, ?_⟩
    intro hp
    have hleads := hold (by omega)
    rw [hsame (i + 1) (by omega) (by omega)] at hleads
    have hpre := hshape.getElem?_of_leads hnode (by omega) hleads
    rw [← List.getElem?_take_of_lt hp, hrow, List.getElem?_take_of_lt hi', ← hslots]
    exact hpre

/-- A match after the insertion finds all tokens. -/
theorem rematch (σ : KvSystem κ) (h : KvInv env reqSlots tokenSlots { σ with reqs } tree spell slots hand)
    (hall : ∀ i < key.length, ∃ s, Leads tree spell slots (key.take (i + 1)) s) :
    ∃ S' found last tree' spell' slots',
      σ.treeCache.matchPrefix env.clock key = some (S', found, last) ∧
      KvInv env reqSlots tokenSlots { σ with treeCache := S', reqs } tree' spell' slots' hand ∧
      found.length = key.length ∧ last ∈ tree' ∧ slots' last = found ∧ spell' last = key ∧
      ∀ i s, i < key.length → Leads tree spell slots (key.take (i + 1)) s →
        found[i]? = some s := by
  obtain ⟨S', found, last, tree', spell', slots', hrun, h', hmap, hlast, hslots, hspell,
    hlongest⟩ := h.matchPrefix key
  have hshape := h'.locked.shape
  have hlen : found.length = (spell' last).length := by
    rw [← hslots, hshape.slots_length hlast]
  rw [hspell, List.length_take] at hlen
  have hfound : found.length = key.length := by
    by_contra hne
    have hlt : found.length < key.length := by omega
    obtain ⟨s, hs⟩ := hall found.length hlt
    apply hlongest key[found.length] s (List.getElem?_eq_getElem hlt)
    rwa [List.take_add_one, List.getElem?_eq_getElem hlt] at hs
  have hkey : spell' last = key := by
    rw [hspell, hfound, List.take_length]
  refine ⟨S', found, last, tree', spell', slots', hrun, h', hfound, hlast, hslots, hkey, ?_⟩
  intro i s hi hl
  rw [← hslots]
  apply hshape.getElem?_of_leads hlast (by rw [hkey]; exact hi)
  rw [hkey]
  exact (hmap.leads _ _).mpr hl

/-- The slots on a path have the KV data of the tokens on it. -/
theorem path_computed (h : KvInv env reqSlots tokenSlots σ tree spell slots hand) (hn : n ∈ tree) :
    (slots n).map σ.kvBuffer = Causal.states env.attend (spell n) := by
  have hlen := h.locked.shape.slots_length hn
  apply Causal.eq_states
  · rw [List.length_map, hlen]
  · intro i hi
    have hi' : i < (slots n).length := by omega
    rw [h.cached _ _ (h.locked.shape.leads_on hn hi'), List.getElem?_map,
      List.getElem?_eq_getElem hi']
    rfl

end KvInv

namespace ReqToTokenPool

variable {pool : ReqToTokenPool} {row row' start i : Nat} {values : List Nat}

theorem writeSlice_other (h : row' ≠ row ∨ i < start ∨ start + values.length ≤ i) :
    (pool.writeSlice row start values).reqToToken row' i = pool.reqToToken row' i := by
  unfold writeSlice
  exact if_neg fun hin => by omega

theorem writeSlice_self (hi : start ≤ i) (hlt : i < start + values.length) :
    (pool.writeSlice row start values).reqToToken row i = values.getD (i - start) 0 := by
  unfold writeSlice
  exact if_pos ⟨rfl, hi, hlt⟩

/-- The end of a list is written where it belongs, over a row that has its beginning. -/
theorem writeSlice_drop (h : ∀ i < values.length, i < start →
      values[i]? = some (pool.reqToToken row i)) :
    (pool.writeSlice row start (values.drop start)).read row values.length = values := by
  apply List.ext_getElem?
  intro i
  by_cases hi : i < values.length
  · rw [read_getElem? _ _ hi]
    by_cases hstart : i < start
    · rw [writeSlice_other (.inr (.inl hstart)), h i hi hstart]
    · have hlen : (values.drop start).length = values.length - start := List.length_drop
      rw [writeSlice_self (by omega) (by omega), List.getD_eq_getElem?_getD, List.getElem?_drop,
        Nat.add_sub_cancel' (by omega), List.getElem?_eq_getElem hi]
      rfl
  · have hlen := read_length (pool.writeSlice row start (values.drop start)) row values.length
    rw [List.getElem?_eq_none (by omega), List.getElem?_eq_none (by omega)]

end ReqToTokenPool

namespace KvSystem

/-- A request whose computed tokens are all in its row, with what it has in hand. -/
structure Computed (σ : KvSystem κ) (env : KvEnv κ) (reqSlots tokenSlots q : Nat) (r : KvReq)
    (tree : Finset Nat) (spell slots : Nat → List Nat) : Prop where
  lt : q < σ.numReqs
  inv : KvInv env reqSlots tokenSlots (σ.setReq q { r with phase := .waiting }) tree spell slots
    ⟨0 + {r.lastNode}, {r.reqPoolIdx} + 0,
      ((σ.kvIndices r r.seqLen).drop r.prefixIndices.length : List Nat) + 0⟩
  aligned : r.Aligned tree spell slots
  inRow : r.InRow env σ.reqToTokenPool σ.kvBuffer
  kvLen_eq : r.kvLen = r.seqLen

/-- A request of a batch whose forward pass is done. -/
theorem computed_of (h : KvInv env reqSlots tokenSlots σ tree spell slots ⟨0, 0, 0⟩)
    (hrow : (σ.reqs q).holdsRow = true) (hkv : (σ.reqs q).kvLen = (σ.reqs q).seqLen) :
    σ.Computed env reqSlots tokenSlots q (σ.reqs q) tree spell slots := by
  have hlock := KvReq.holdsLock_of_holdsRow hrow
  have hq := h.lt_of_holdsRow hrow
  have hinv := h.release hq
  rw [KvReq.lockOf_eq hlock, KvReq.rowOf_eq hrow, privateSlots_eq hrow,
    add_comm ({(σ.reqs q).lastNode} : Multiset Nat)] at hinv
  exact ⟨hq, hinv, (h.own q).aligned (KvReq.hasNode_of_holdsLock hlock), (h.own q).inRow hrow,
    hkv⟩

/-- The tokens of a request that got one more. -/
theorem tokens_append {req : Req} {token : Nat}
    (h : r.req.appendToken env.tokenizer token = some req) :
    KvReq.tokens { r with req } = r.tokens ++ [token] := by
  obtain ⟨_, _, rfl⟩ := Req.appendToken_spec h
  unfold KvReq.tokens
  rw [List.append_assoc]

/-- A request that has finished leaves its slots to the cache. -/
theorem Computed.finish (h : σ.Computed env reqSlots tokenSlots q r tree spell slots)
    (hseq : r.seqLen = r.tokens.length) {req : Req} {token : Nat}
    (happend : r.req.appendToken env.tokenizer token = some req) :
    ∃ σ₁ tree' spell' slots', (σ.setReq q { r with req }).cacheFinishedReq env q = some σ₁ ∧
      σ₁.tokenToKVPool.isNotInFreeGroup = σ.tokenToKVPool.isNotInFreeGroup ∧
      KvInv env reqSlots tokenSlots (σ₁.setPhase q .finished) tree' spell' slots' ⟨0, 0, 0⟩ := by
  have htokens : (KvReq.tokens { r with req }).dropLast = r.tokens := by
    rw [tokens_append happend, List.dropLast_concat]
  have hcomputed := h.inRow.computed
  rw [h.kvLen_eq, hseq, List.take_length] at hcomputed
  have hcached := h.inRow.cached
  rw [hseq] at hcached
  obtain ⟨S₁, pool, tree', spell', slots', hinsert, hflag, h₁, _⟩ :=
    KvInv.insertRow (σ.setReq q { r with req }) (σ.setReq q { r with phase := .waiting }).reqs
      { r with req } r.tokens (by rw [← hseq]; exact h.inv) hcomputed hcached h.aligned.mem
      h.aligned.slots_eq h.aligned.spell_le List.prefix_rfl
  have h₂ := KvInv.freeRow (r := { r with req }) h₁
  obtain ⟨S₂, _, hdec, h₃⟩ := h₂.decLockRef
  have hwaiting : ∀ σ₁ : KvSystem κ, σ₁.reqs = (σ.setReq q { r with phase := .waiting }).reqs →
      (σ₁.reqs q).phase = .waiting := by
    intro σ₁ hreqs
    rw [hreqs, setReq_self]
  refine ⟨{ σ.setReq q { r with req } with
    treeCache := S₂
    tokenToKVPool := pool
    reqToTokenPool := σ.reqToTokenPool.free r.reqPoolIdx }, tree', spell', slots', ?_, hflag, ?_⟩
  · unfold cacheFinishedReq
    simp only [setReq_self, htokens]
    rw [hinsert]
    exact decLockRef_eq hdec
  · have h₄ := h₃.setIdle (r := { r with req, phase := .finished }) h.lt (hwaiting _ rfl) (.inr rfl)
    unfold setPhase
    simpa [setReq, freeRow] using h₄

/-- A request that goes on shares its slots with the cache and gets the cache's own. -/
theorem Computed.share (h : σ.Computed env reqSlots tokenSlots q r tree spell slots)
    (hseq : r.seqLen = r.req.fillIds.length) (hfill : r.req.fillIds <+: r.tokens) {req : Req}
    (hreq : req.fillIds = r.req.fillIds) :
    ∃ S' pool rows found last tree' spell' slots',
      (σ.setReq q { r with req }).cacheUnfinishedReq env q =
        some (KvSystem.setReq { σ with
          treeCache := S', tokenToKVPool := pool, reqToTokenPool := rows } q
          { r with
            req := { req with prefixLen := found.length }
            prefixIndices := found
            lastNode := last }) ∧
      pool.isNotInFreeGroup = σ.tokenToKVPool.isNotInFreeGroup ∧
      KvInv env reqSlots tokenSlots (KvSystem.setReq { σ with
          treeCache := S', tokenToKVPool := pool, reqToTokenPool := rows } q
          { r with phase := .waiting }) tree' spell' slots' ⟨0 + {last}, {r.reqPoolIdx} + 0, 0⟩ ∧
      last ∈ tree' ∧ slots' last = found ∧ spell' last = r.req.fillIds ∧
      found.length = r.req.fillIds.length ∧ rows.read r.reqPoolIdx found.length = found := by
  have hcomputed := h.inRow.computed
  rw [h.kvLen_eq, hseq, ← List.prefix_iff_eq_take.mp hfill] at hcomputed
  have hcached := h.inRow.cached
  rw [hseq] at hcached
  obtain ⟨S₁, pool, tree₁, spell₁, slots₁, hinsert, hflag, h₁, hall⟩ :=
    KvInv.insertRow (σ.setReq q { r with req }) (σ.setReq q { r with phase := .waiting }).reqs
      { r with req } r.req.fillIds (by rw [← hseq]; exact h.inv) hcomputed hcached h.aligned.mem
      h.aligned.slots_eq
      h.aligned.spell_le hfill
  obtain ⟨S₂, found, last, tree₂, spell₂, slots₂, hmatch, h₂, hlen, hlast, hslots, hspell, hon⟩ :=
    KvInv.rematch { σ.setReq q { r with req } with treeCache := S₁, tokenToKVPool := pool } h₁
      fun i hi => (hall i hi).imp fun s hs => hs.1
  obtain ⟨rows, hrows⟩ : ∃ rows, rows = σ.reqToTokenPool.writeSlice r.reqPoolIdx
    r.prefixIndices.length (found.drop r.prefixIndices.length) := ⟨_, rfl⟩
  have hread : rows.read r.reqPoolIdx found.length = found := by
    rw [hrows]
    apply ReqToTokenPool.writeSlice_drop
    intro i hi hp
    obtain ⟨s, hs, hcell⟩ := hall i (by omega)
    rw [hon i s (by omega) hs, ← hcell hp]
    exact ReqToTokenPool.read_getElem? _ _ (by omega)
  have h₃ := h₂.writeRows rows (by rw [hrows]; rfl) (by
    intro p hp i _
    have hne := h₂.row_not_held hp
    rw [hrows, ReqToTokenPool.writeSlice_other]
    · rfl
    · left
      intro heq
      apply hne
      rw [heq]
      exact Multiset.mem_add.mpr (.inl (Multiset.mem_singleton_self _)))
  obtain ⟨S₃, _, hdec, h₄⟩ := h₃.decLockRef
  obtain ⟨S₄, _, hinc, h₅⟩ := h₄.incLockRef hlast
  refine ⟨S₄, pool, rows, found, last, tree₂, spell₂, slots₂, ?_, hflag, h₅, hlast, hslots,
    hspell, hlen, hread⟩
  unfold cacheUnfinishedReq
  simp only [setReq_self, hreq]
  rw [hinsert]
  simp only [Option.bind_eq_bind, Option.bind_some]
  rw [hmatch]
  simp only [Option.bind_some]
  rw [if_neg (by rw [hlen]; exact fun hne => hne rfl)]
  subst hrows
  refine (Option.bind_eq_some_iff.mpr ⟨_, decLockRef_eq hdec, ?_⟩)
  refine (Option.bind_eq_some_iff.mpr ⟨_, incLockRef_eq hinc, ?_⟩)
  simp [setReq]

end KvSystem

end FastPP
