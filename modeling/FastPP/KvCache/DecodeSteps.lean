import FastPP.KvCache.ExtendSteps

namespace FastPP

variable {κ : Type} {env : KvEnv κ} {reqSlots tokenSlots q p loc : Nat} {σ σ' : KvSystem κ}
  {tree : Finset Nat} {spell slots : Nat → List Nat} {r : KvReq} {flag : Bool}
  {pool pool' : ReqToTokenPool} {kvBuffer : Nat → κ} {items : List (Nat × Nat)}
  {out : List Nat} {L R H : Multiset Nat}

namespace ReqToTokenPool

/-- Cells in different rows. -/
theorem writeCells_spec {cells : List (Nat × Nat × Nat)} (pool : ReqToTokenPool)
    (hrows : (cells.map Prod.fst).Nodup) :
    (∀ cell ∈ cells, (pool.writeCells cells).reqToToken cell.1 cell.2.1 = cell.2.2) ∧
      ∀ row col, (∀ cell ∈ cells, ¬ (row = cell.1 ∧ col = cell.2.1)) →
        (pool.writeCells cells).reqToToken row col = pool.reqToToken row col := by
  induction cells generalizing pool with
  | nil => exact ⟨fun _ hmem => absurd hmem List.not_mem_nil, fun _ _ _ => rfl⟩
  | cons cell cells ih =>
    obtain ⟨row', col', value⟩ := cell
    obtain ⟨hnot, hrest⟩ := List.nodup_cons.mp hrows
    obtain ⟨hin, hother⟩ := ih { pool with reqToToken := fun r c =>
      if r = row' ∧ c = col' then value else pool.reqToToken r c } hrest
    constructor
    · intro cell hmem
      rcases List.mem_cons.mp hmem with rfl | hmem
      · rw [writeCells, hother row' col']
        · exact if_pos ⟨rfl, rfl⟩
        · intro cell hcell heq
          exact hnot (List.mem_map.mpr ⟨cell, hcell, heq.1.symm⟩)
      · exact hin cell hmem
    · intro row col hnone
      rw [writeCells, hother row col fun cell hcell =>
        hnone cell (List.mem_cons_of_mem _ hcell)]
      exact if_neg (hnone (row', col', value) List.mem_cons_self)

theorem writeIndexed_eq {rows cols values : List Nat} (hcols : cols.length = rows.length)
    (hvalues : values.length = rows.length)
    (hrun : pool.writeIndexed rows cols values = some pool') :
    pool' = pool.writeCells (rows.zip (cols.zip values)) := by
  unfold writeIndexed at hrun
  rw [if_neg (by omega), if_pos hvalues] at hrun
  exact (Option.some.inj hrun).symm

theorem read_succ (pool : ReqToTokenPool) (row n : Nat) :
    pool.read row (n + 1) = pool.read row n ++ [pool.reqToToken row n] := by
  unfold read
  rw [List.range_succ, List.map_append]
  rfl

end ReqToTokenPool

/-- Each request finds its new slot behind the others in its row. -/
def Appended (pool : ReqToTokenPool) (reqs : Nat → KvReq) (items : List (Nat × Nat)) : Prop :=
  ∀ item ∈ items, pool.reqToToken (reqs item.1).reqPoolIdx (reqs item.1).seqLen = item.2

namespace KvReq

def stepped (r : KvReq) (loc : Nat) : KvReq :=
  { r with seqLen := r.seqLen + 1, outCacheLoc := [loc], phase := .decode }

theorem Own.of_stepped (h : r.Own env pool kvBuffer tree spell slots) (hphase : r.phase = .running)
    (hloc : pool.reqToToken r.reqPoolIdx r.seqLen = loc) :
    (r.stepped loc).Own env pool kvBuffer tree spell slots := by
  have hrow : r.holdsRow = true := by
    unfold holdsRow
    rw [hphase]
  obtain ⟨hkv, hle, hlen⟩ := h.running hphase
  have hin := h.inRow hrow
  have ha := h.aligned (hasNode_of_holdsLock (holdsLock_of_holdsRow hrow))
  have hread : pool.read r.reqPoolIdx (r.seqLen + 1) = pool.read r.reqPoolIdx r.seqLen ++ [loc] := by
    rw [ReqToTokenPool.read_succ, hloc]
  have hlength := ReqToTokenPool.read_length pool r.reqPoolIdx r.seqLen
  refine ⟨fun _ => ⟨ha.mem, ha.slots_eq, ha.spell_le, ha.prefixLen⟩, fun _ => ⟨?_, ?_, ?_, ?_, ?_,
    hin.computed⟩, ?_, ?_, ?_, fun _ => ⟨?_, ?_, hlen⟩⟩
  · exact hlen.le
  · show (pool.read r.reqPoolIdx (r.seqLen + 1)).take r.prefixIndices.length =
      r.prefixIndices.take (r.seqLen + 1)
    rw [hread, List.take_append_of_le_length (by omega), hin.cached, List.take_of_length_le hle,
      List.take_of_length_le (by omega)]
  · show min r.prefixIndices.length (r.seqLen + 1) ≤ r.kvLen
    omega
  · show r.kvLen ≤ r.seqLen + 1
    omega
  · show (pool.read r.reqPoolIdx (r.seqLen + 1)).drop r.kvLen = [loc]
    rw [hread, List.drop_append_of_le_length (by omega), List.drop_of_length_le (by omega)]
    rfl
  · exact nofun
  · exact nofun
  · exact nofun
  · show r.prefixIndices.length ≤ r.seqLen + 1
    omega
  · show r.seqLen + 1 ≤ r.kvLen + 1
    omega

end KvReq

/-- The requests of a decode batch take their slots one after the other. -/
theorem KvInv.stepReqs (items : List (Nat × Nat)) {σ : KvSystem κ}
    (h : KvInv env reqSlots tokenSlots σ tree spell slots
      ⟨L, R, (items.map Prod.snd : List Nat) + H⟩)
    (happended : Appended σ.reqToTokenPool σ.reqs items) (hqs : (items.map Prod.fst).Nodup)
    (hphase : ∀ item ∈ items, (σ.reqs item.1).phase = .running) :
    KvInv env reqSlots tokenSlots { σ with reqs := KvSystem.stepReqs σ.reqs items } tree spell
      slots ⟨L, R, H⟩ := by
  induction items generalizing σ with
  | nil => exact (zero_add H) ▸ h
  | cons item items ih =>
    obtain ⟨q, loc⟩ := item
    obtain ⟨hnot, hqs'⟩ := List.nodup_cons.mp hqs
    have hrun : (σ.reqs q).phase = .running := hphase (q, loc) List.mem_cons_self
    have hloc : σ.reqToTokenPool.reqToToken (σ.reqs q).reqPoolIdx (σ.reqs q).seqLen = loc :=
      happended (q, loc) List.mem_cons_self
    have hother : ∀ item ∈ items, (σ.setReq q ((σ.reqs q).stepped loc)).reqs item.1 =
        σ.reqs item.1 := by
      intro item hmem
      apply KvSystem.setReq_other
      intro heq
      exact hnot (List.mem_map.mpr ⟨item, hmem, heq⟩)
    have hrow : (σ.reqs q).holdsRow = true := by
      unfold KvReq.holdsRow
      rw [hrun]
    have hrow' : ((σ.reqs q).stepped loc).holdsRow = true := rfl
    have hle := ((h.own q).running hrun).2.1
    have hprivate : σ.privateSlots ((σ.reqs q).stepped loc) = σ.privateSlots (σ.reqs q) ++ [loc] := by
      rw [KvSystem.privateSlots_eq hrow, KvSystem.privateSlots_eq hrow']
      show (σ.reqToTokenPool.read (σ.reqs q).reqPoolIdx ((σ.reqs q).seqLen + 1)).drop
        (σ.reqs q).prefixIndices.length = _
      rw [ReqToTokenPool.read_succ, hloc, List.drop_append_of_le_length (by
        rw [ReqToTokenPool.read_length]
        exact hle)]
      rfl
    have hset := h.setReq (r := (σ.reqs q).stepped loc)
      (k := ⟨L, R, (items.map Prod.snd : List Nat) + H⟩) (h.lt_of_holdsRow hrow) ?_ ?_ ?_
      ((h.own q).of_stepped hrun hloc)
    · refine ih hset ?_ hqs' ?_
      · intro item hmem
        rw [hother item hmem]
        exact happended item (List.mem_cons_of_mem _ hmem)
      · intro item hmem
        rw [hother item hmem]
        exact hphase item (List.mem_cons_of_mem _ hmem)
    · rw [KvReq.lockOf_eq (KvReq.holdsLock_of_holdsRow hrow),
        KvReq.lockOf_eq (KvReq.holdsLock_of_holdsRow hrow')]
      rfl
    · rw [KvReq.rowOf_eq hrow, KvReq.rowOf_eq hrow']
      rfl
    · rw [hprivate, ← Multiset.coe_add, add_assoc]
      show _ + (((loc :: items.map Prod.snd : List Nat) : Multiset Nat) + H) =
        _ + (((([loc] : List Nat) : Multiset Nat)) + ((items.map Prod.snd : List Nat) + H))
      rw [← add_assoc ([loc] : Multiset Nat), Multiset.coe_add]
      rfl

theorem zip_entries (f g : Nat → Nat) (qs out : List Nat) :
    (qs.map f).zip ((qs.map g).zip out) =
      (qs.zip out).map fun item => (f item.1, g item.1, item.2) := by
  induction qs generalizing out with
  | nil => rfl
  | cons q qs ih =>
    rcases out with _ | ⟨loc, out⟩
    · rfl
    · rw [List.map_cons, List.map_cons, List.zip_cons_cons, List.zip_cons_cons, ih,
        List.zip_cons_cons, List.map_cons]

theorem KvSystem.Kept.prepareForDecode {qs : List Nat}
    (h : σ.Kept env reqSlots tokenSlots flag) (hrun : σ.prepareForDecode env qs = some σ') :
    σ'.Kept env reqSlots tokenSlots flag := by
  obtain ⟨hflag, tree, spell, slots, h⟩ := h
  unfold KvSystem.prepareForDecode at hrun
  split at hrun
  next => exact nomatch hrun
  next hguard =>
    rw [not_not] at hguard
    obtain ⟨hnodup, hnone, hphase⟩ := hguard
    obtain ⟨⟨out, σ₁⟩, hout, hrun⟩ := Option.bind_eq_some_iff.mp hrun
    obtain ⟨S', pool₁, tree', rfl, hlen, hflag', h₁⟩ := h.allocTokenSlots hnone hout
    obtain ⟨pool₂, hwrite, hrun⟩ := Option.bind_eq_some_iff.mp hrun
    cases Option.some.inj hrun
    have hcells := ReqToTokenPool.writeIndexed_eq (by simp) (by simpa using hlen) hwrite
    rw [zip_entries] at hcells
    have hfst : (qs.zip out).map Prod.fst = qs := List.map_fst_zip (by omega)
    have hsnd : (qs.zip out).map Prod.snd = out := List.map_snd_zip (by omega)
    have hrow : ∀ q ∈ qs, (σ.reqs q).holdsRow = true := by
      intro q hq
      unfold KvReq.holdsRow
      rw [hphase q hq]
    have hmem : ∀ item ∈ qs.zip out, item.1 ∈ qs := fun item hitem =>
      hfst ▸ List.mem_map.mpr ⟨item, hitem, rfl⟩
    have hrows : (((qs.zip out).map fun item => ((σ.reqs item.1).reqPoolIdx,
        (σ.reqs item.1).seqLen, item.2)).map Prod.fst).Nodup := by
      rw [List.map_map]
      have hmap : (qs.zip out).map (Prod.fst ∘ fun item => ((σ.reqs item.1).reqPoolIdx,
          (σ.reqs item.1).seqLen, item.2)) = qs.map fun q => (σ.reqs q).reqPoolIdx := by
        conv_rhs => rw [← hfst, List.map_map]
        rfl
      rw [hmap]
      apply List.Nodup.map_on _ hnodup
      intro p hp q hq heq
      by_contra hne
      exact h.row_ne (hrow q hq) (hrow p hp) hne heq
    obtain ⟨hin, hother⟩ := ReqToTokenPool.writeCells_spec σ.reqToTokenPool hrows
    have h₂ := h₁.writeRows pool₂ (by rw [hcells]; exact ReqToTokenPool.writeCells_freeSlots _ _)
      (by
        intro p hp i hi
        rw [hcells]
        apply hother
        rintro cell hcell ⟨heq, hcol⟩
        obtain ⟨item, hitem, rfl⟩ := List.mem_map.mp hcell
        by_cases hne : p = item.1
        · subst hne
          exact absurd hcol hi.ne
        · exact h.row_ne (hrow _ (hmem item hitem)) hp hne heq)
    refine ⟨hflag'.trans hflag, tree', spell, slots, ?_⟩
    apply KvInv.stepReqs (σ := { σ with
      reqToTokenPool := pool₂, tokenToKVPool := pool₁, treeCache := S' }) (qs.zip out)
    · rw [hsnd]
      exact h₂
    · intro item hitem
      show pool₂.reqToToken _ _ = item.2
      rw [hcells]
      exact hin _ (List.mem_map.mpr ⟨item, hitem, rfl⟩)
    · rw [hfst]
      exact hnodup
    · exact fun item hitem => hphase item.1 (hmem item hitem)

namespace KvInv

/-- A slot that a request has to itself. -/
theorem private_fresh {hand : Hand}
    (h : KvInv env reqSlots tokenSlots σ tree spell slots hand)
    (hq : (σ.reqs q).holdsRow = true) (hloc : loc ∈ σ.privateSlots (σ.reqs q)) :
    loc ∉ σ.treeCache.slotsOf tree ∧ (σ.privateSlots (σ.reqs q)).Nodup ∧
      ∀ p, p ≠ q → (σ.reqs p).holdsRow = true → loc ∉ σ.privateSlots (σ.reqs p) := by
  have hall : (List.range' 1 tokenSlots : Multiset Nat).Nodup :=
    Multiset.coe_nodup.mpr List.nodup_range'
  rw [← h.slots_eq] at hall
  have hnodup : (σ.treeCache.slotsOf tree + σ.privates).Nodup := by
    apply Multiset.nodup_of_le _ hall
    rw [add_assoc (σ.tokenToKVPool.contents : Multiset Nat), add_assoc]
    exact (Multiset.le_add_right _ _).trans (Multiset.le_add_left _ _)
  have hlt := h.lt_of_holdsRow hq
  have hle := KvSystem.le_sum (σ := σ) (fun r => (σ.privateSlots r : Multiset Nat)) hlt
  obtain ⟨_, hprivates, hdisjoint⟩ := Multiset.nodup_add.mp hnodup
  refine ⟨?_, ?_, ?_⟩
  · intro hmem
    exact Multiset.disjoint_left.mp hdisjoint hmem
      (Multiset.mem_of_le hle (Multiset.mem_coe.mpr hloc))
  · exact Multiset.coe_nodup.mp (Multiset.nodup_of_le hle hprivates)
  · intro p hne hp hmem
    have htwo := KvSystem.add_le_sum (σ := σ) (fun r => (σ.privateSlots r : Multiset Nat)) hlt
      (h.lt_of_holdsRow hp) hne
    have hboth := Multiset.nodup_of_le htwo hprivates
    exact Multiset.disjoint_left.mp (Multiset.nodup_add.mp hboth).2.2 (Multiset.mem_coe.mpr hloc)
      (Multiset.mem_coe.mpr hmem)

/-- An entry of a row is a slot of the cache or a private one. -/
theorem cell_cases {hand : Hand} (h : KvInv env reqSlots tokenSlots σ tree spell slots hand)
    (hq : (σ.reqs q).holdsRow = true) {i : Nat} (hi : i < (σ.reqs q).seqLen) :
    (i < (σ.reqs q).prefixIndices.length ∧
        σ.reqToTokenPool.reqToToken (σ.reqs q).reqPoolIdx i ∈ σ.treeCache.slotsOf tree) ∨
      ((σ.reqs q).prefixIndices.length ≤ i ∧
        (σ.privateSlots (σ.reqs q))[i - (σ.reqs q).prefixIndices.length]? =
          some (σ.reqToTokenPool.reqToToken (σ.reqs q).reqPoolIdx i)) := by
  have hcell := ReqToTokenPool.read_getElem? σ.reqToTokenPool (σ.reqs q).reqPoolIdx hi
  by_cases hlt : i < (σ.reqs q).prefixIndices.length
  · left
    refine ⟨hlt, ?_⟩
    have ha := (h.own q).aligned (KvReq.hasNode_of_holdsLock (KvReq.holdsLock_of_holdsRow hq))
    apply RadixCache.slots_mem h.locked.shape ha.mem
    rw [ha.slots_eq]
    apply List.mem_of_mem_take (i := (σ.reqs q).seqLen)
    rw [← ((h.own q).inRow hq).cached]
    exact List.mem_of_getElem? ((List.getElem?_take_of_lt hlt).trans hcell)
  · right
    refine ⟨by omega, ?_⟩
    rw [KvSystem.privateSlots_eq hq, List.getElem?_drop, Nat.add_sub_cancel' (by omega)]
    exact hcell

end KvInv

end FastPP
