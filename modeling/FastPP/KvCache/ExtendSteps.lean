import FastPP.KvCache.ProcessSteps

namespace FastPP

variable {κ : Type} {env : KvEnv κ} {reqSlots tokenSlots q row c : Nat} {σ σ' : KvSystem κ}
  {tree : Finset Nat} {spell slots : Nat → List Nat} {r : KvReq} {flag : Bool}
  {pool pool' : ReqToTokenPool} {reqs : Nat → KvReq} {items : List (Nat × Nat)}
  {out : List Nat} {L R H : Multiset Nat}

namespace ReqToTokenPool

theorem writeSlice_row {row' start : Nat} {values : List Nat} (h : row' ≠ row) (i : Nat) :
    (pool.writeSlice row start values).reqToToken row' i = pool.reqToToken row' i :=
  writeSlice_other (.inl h)

end ReqToTokenPool

/-- Each request finds its prefix and its part of `out_cache_loc` in its row. -/
def Laid (pool : ReqToTokenPool) (reqs : Nat → KvReq) : List (Nat × Nat) → List Nat → Prop
  | [], _ => True
  | (q, row) :: items, out =>
    pool.read row (reqs q).req.fillIds.length =
        (reqs q).prefixIndices.take (reqs q).req.fillIds.length ++
          out.take (reqs q).inputIds.length ∧
      Laid pool reqs items (out.drop (reqs q).inputIds.length)

theorem Laid.congr (h : Laid pool reqs items out)
    (hsame : ∀ item ∈ items, ∀ i, pool'.reqToToken item.2 i = pool.reqToToken item.2 i) :
    Laid pool' reqs items out := by
  induction items generalizing out with
  | nil => trivial
  | cons item items ih =>
    obtain ⟨q, row⟩ := item
    refine ⟨?_, ih h.2 fun item hmem => hsame item (List.mem_cons_of_mem _ hmem)⟩
    rw [ReqToTokenPool.read_congr fun i _ => hsame (q, row) List.mem_cons_self i]
    exact h.1

/-- The rows have the prefixes of their requests. -/
def Prefixed (pool : ReqToTokenPool) (reqs : Nat → KvReq) (items : List (Nat × Nat)) : Prop :=
  ∀ item ∈ items, ∀ i < (reqs item.1).prefixIndices.length,
    pool.reqToToken item.2 i = (reqs item.1).prefixIndices.getD i 0

theorem Prefixed.congr (h : Prefixed pool reqs items)
    (hsame : ∀ item ∈ items, ∀ i, pool'.reqToToken item.2 i = pool.reqToToken item.2 i) :
    Prefixed pool' reqs items := fun item hitem i hi =>
  (hsame item hitem i).trans (h item hitem i hi)

theorem Prefixed.read (h : Prefixed pool reqs ((q, row) :: items)) {n : Nat}
    (hn : n ≤ (reqs q).prefixIndices.length) :
    pool.read row n = (reqs q).prefixIndices.take n := by
  apply List.ext_getElem?
  intro i
  by_cases hi : i < n
  · have hlt : i < (reqs q).prefixIndices.length := by omega
    rw [ReqToTokenPool.read_getElem? _ _ hi, List.getElem?_take_of_lt hi,
      h (q, row) List.mem_cons_self i hlt, List.getD_eq_getElem?_getD,
      List.getElem?_eq_getElem hlt]
    rfl
  · have hlen := ReqToTokenPool.read_length pool row n
    have htake : ((reqs q).prefixIndices.take n).length = n := by
      rw [List.length_take]
      omega
    rw [List.getElem?_eq_none (by omega), List.getElem?_eq_none (by omega)]

/-- The loop that writes the prefixes. -/
theorem prefixes_written (reqs : Nat → KvReq) (items : List (Nat × Nat)) (pool : ReqToTokenPool)
    (hrows : (items.map Prod.snd).Nodup) :
    Prefixed (items.foldl (fun pool item =>
        pool.writeSlice item.2 0 (reqs item.1).prefixIndices) pool) reqs items ∧
      (items.foldl (fun pool item =>
        pool.writeSlice item.2 0 (reqs item.1).prefixIndices) pool).freeSlots = pool.freeSlots ∧
      ∀ row ∉ items.map Prod.snd, ∀ i, (items.foldl (fun pool item =>
        pool.writeSlice item.2 0 (reqs item.1).prefixIndices) pool).reqToToken row i =
          pool.reqToToken row i := by
  induction items generalizing pool with
  | nil => exact ⟨fun _ hmem => absurd hmem List.not_mem_nil, rfl, fun _ _ _ => rfl⟩
  | cons item items ih =>
    obtain ⟨hnot, hrest⟩ := List.nodup_cons.mp hrows
    obtain ⟨hpre, hfree, hother⟩ :=
      ih (pool.writeSlice item.2 0 (reqs item.1).prefixIndices) hrest
    refine ⟨?_, hfree, ?_⟩
    · intro item' hmem i hi
      rcases List.mem_cons.mp hmem with rfl | hmem
      · rw [List.foldl_cons, hother _ hnot,
          ReqToTokenPool.writeSlice_self (Nat.zero_le i) (by omega), Nat.sub_zero]
      · exact hpre item' hmem i hi
    · intro row hrow i
      rw [List.map_cons, List.mem_cons, not_or] at hrow
      rw [List.foldl_cons, hother row hrow.2, ReqToTokenPool.writeSlice_row hrow.1]

/-- The lengths of the batch fit together. -/
def Fits (reqs : Nat → KvReq) (q : Nat) : Prop :=
  ((reqs q).req.fillIds.length : Int) - (reqs q).prefixIndices.length =
    (reqs q).req.extendInputLen

theorem inputIds_length (r : KvReq) :
    r.inputIds.length = r.req.fillIds.length - r.prefixIndices.length := by
  unfold KvReq.inputIds
  rw [List.length_drop]

theorem writeExtendFrom_other (outCacheLoc : List Nat) {start : Int}
    {entries : List (Nat × Nat × Nat × Int)}
    (hrun : Memory.writeExtendFrom outCacheLoc start pool entries = some pool') :
    pool'.freeSlots = pool.freeSlots ∧
      ∀ row ∉ entries.map Prod.fst, ∀ i, pool'.reqToToken row i = pool.reqToToken row i := by
  induction entries generalizing pool start with
  | nil =>
    cases Option.some.inj hrun
    exact ⟨rfl, fun _ _ _ => rfl⟩
  | cons entry entries ih =>
    obtain ⟨row', preLen, seqLen, extendLen⟩ := entry
    unfold Memory.writeExtendFrom at hrun
    simp only at hrun
    split at hrun
    next =>
      obtain ⟨hfree, hother⟩ := ih hrun
      refine ⟨hfree, ?_⟩
      intro row hrow i
      rw [List.map_cons, List.mem_cons, not_or] at hrow
      exact hother row hrow.2 i
    next =>
      split at hrun
      next => exact nomatch hrun
      next =>
        obtain ⟨hfree, hother⟩ := ih hrun
        refine ⟨hfree, ?_⟩
        intro row hrow i
        rw [List.map_cons, List.mem_cons, not_or] at hrow
        rw [hother row hrow.2, ReqToTokenPool.writeSlice_row hrow.1]

/-- A segment written behind a prefix. -/
theorem read_writeSlice {prefixIndices values : List Nat} {n : Nat}
    (hpre : ∀ i < prefixIndices.length, pool.reqToToken row i = prefixIndices.getD i 0)
    (hn : n = prefixIndices.length + values.length) :
    (pool.writeSlice row prefixIndices.length values).read row n = prefixIndices ++ values := by
  apply List.ext_getElem?
  intro i
  by_cases hi : i < n
  · rw [ReqToTokenPool.read_getElem? _ _ hi]
    by_cases hlt : i < prefixIndices.length
    · rw [ReqToTokenPool.writeSlice_other (.inr (.inl hlt)), hpre i hlt,
        List.getElem?_append_left hlt, List.getD_eq_getElem?_getD, List.getElem?_eq_getElem hlt]
      rfl
    · have hin : i - prefixIndices.length < values.length := by omega
      rw [ReqToTokenPool.writeSlice_self (by omega) (by omega),
        List.getElem?_append_right (by omega), List.getD_eq_getElem?_getD,
        List.getElem?_eq_getElem hin]
      rfl
  · have hlen := ReqToTokenPool.read_length (pool.writeSlice row prefixIndices.length values) row n
    rw [List.getElem?_eq_none (by omega), List.getElem?_eq_none (by
      rw [List.length_append]
      omega)]

theorem writeExtendFrom_cons (outCacheLoc : List Nat) (start : Int) (pool : ReqToTokenPool)
    (reqs : Nat → KvReq) (q row : Nat) (items : List (Nat × Nat)) :
    Memory.writeExtendFrom outCacheLoc start pool
        (((q, row) :: items).map (KvSystem.extendEntry reqs)) =
      if (reqs q).req.fillIds.length - (reqs q).prefixIndices.length = 0 then
        Memory.writeExtendFrom outCacheLoc (start + (reqs q).req.extendInputLen) pool
          (items.map (KvSystem.extendEntry reqs))
      else if start < 0 ∨ (outCacheLoc.length : Int) < start +
          ((reqs q).req.fillIds.length - (reqs q).prefixIndices.length : Nat) then none
      else Memory.writeExtendFrom outCacheLoc (start + (reqs q).req.extendInputLen)
        (pool.writeSlice row (reqs q).prefixIndices.length
          ((outCacheLoc.drop start.toNat).take
            ((reqs q).req.fillIds.length - (reqs q).prefixIndices.length)))
        (items.map (KvSystem.extendEntry reqs)) := rfl

/-- `write_req_to_token_pool_triton` for requests without a negative length. -/
theorem writeExtendFrom_laid (outCacheLoc : List Nat) {start : Int}
    (hrun : Memory.writeExtendFrom outCacheLoc start pool
      (items.map (KvSystem.extendEntry reqs)) = some pool')
    (hrows : (items.map Prod.snd).Nodup) (hpre : Prefixed pool reqs items)
    (hfits : ∀ item ∈ items, Fits reqs item.1)
    (hpos : ∀ item ∈ items, 0 ≤ (reqs item.1).req.extendInputLen)
    (hout : 0 ≤ start → out = outCacheLoc.drop start.toNat) : Laid pool' reqs items out := by
  induction items generalizing pool start out with
  | nil => trivial
  | cons item items ih =>
    obtain ⟨q, row⟩ := item
    obtain ⟨hnot, hrest⟩ := List.nodup_cons.mp hrows
    have hfit : ((reqs q).req.fillIds.length : Int) - (reqs q).prefixIndices.length =
      (reqs q).req.extendInputLen := hfits (q, row) List.mem_cons_self
    have hge : 0 ≤ (reqs q).req.extendInputLen := hpos (q, row) List.mem_cons_self
    have hlen := inputIds_length (reqs q)
    have hnotEntry : row ∉ (items.map (KvSystem.extendEntry reqs)).map Prod.fst := by
      rw [List.map_map]
      exact hnot
    have hpre' : Prefixed pool reqs items := fun item hmem =>
      hpre item (List.mem_cons_of_mem _ hmem)
    have hfits' : ∀ item ∈ items, Fits reqs item.1 := fun item hmem =>
      hfits item (List.mem_cons_of_mem _ hmem)
    have hpos' : ∀ item ∈ items, 0 ≤ (reqs item.1).req.extendInputLen := fun item hmem =>
      hpos item (List.mem_cons_of_mem _ hmem)
    rw [writeExtendFrom_cons] at hrun
    split at hrun
    next hzero =>
      have hn : (reqs q).inputIds.length = 0 := by omega
      refine ⟨?_, ih hrun hrest hpre' hfits' hpos' ?_⟩
      · rw [ReqToTokenPool.read_congr fun i _ => (writeExtendFrom_other _ hrun).2 row hnotEntry i,
          hpre.read (by omega), hn, List.take_zero, List.append_nil]
      · intro hstart
        rw [hn, List.drop_zero, hout (by omega)]
        congr 1
        omega
    next hcount =>
      split at hrun
      next => exact nomatch hrun
      next hbounds =>
        have hsame : ∀ item ∈ items, ∀ (values : List Nat) (i : Nat),
            (pool.writeSlice row (reqs q).prefixIndices.length values).reqToToken item.2 i =
              pool.reqToToken item.2 i := by
          intro item hmem values i
          apply ReqToTokenPool.writeSlice_row
          intro heq
          exact hnot (List.mem_map.mpr ⟨item, hmem, heq⟩)
        have hstart : 0 ≤ start := by omega
        have hseg : ((outCacheLoc.drop start.toNat).take
            ((reqs q).req.fillIds.length - (reqs q).prefixIndices.length)).length =
            (reqs q).inputIds.length := by
          rw [List.length_take, List.length_drop]
          omega
        refine ⟨?_, ih hrun hrest (hpre'.congr fun item hmem => hsame item hmem _) hfits' hpos' ?_⟩
        · have hrow : ∀ i < (reqs q).prefixIndices.length,
              pool.reqToToken row i = (reqs q).prefixIndices.getD i 0 :=
            hpre (q, row) List.mem_cons_self
          have hle : (reqs q).prefixIndices.length ≤ (reqs q).req.fillIds.length := by omega
          rw [ReqToTokenPool.read_congr fun i _ => (writeExtendFrom_other _ hrun).2 row hnotEntry i,
            read_writeSlice hrow (by omega), hout hstart, hlen, List.take_of_length_le hle]
        · intro _
          rw [hout hstart, List.drop_drop]
          congr 1
          omega

/-- The batch of `prepare_for_extend`: only its first request may have a negative length. -/
theorem writeExtend_laid (outCacheLoc : List Nat)
    (hrun : Memory.writeExtendFrom outCacheLoc 0 pool
      (items.map (KvSystem.extendEntry reqs)) = some pool')
    (hrows : (items.map Prod.snd).Nodup) (hpre : Prefixed pool reqs items)
    (hfits : ∀ item ∈ items, Fits reqs item.1)
    (hpos : ∀ item ∈ items.tail, 0 ≤ (reqs item.1).req.extendInputLen) :
    Laid pool' reqs items outCacheLoc := by
  rcases items with _ | ⟨⟨q, row⟩, items⟩
  · trivial
  · by_cases hge : 0 ≤ (reqs q).req.extendInputLen
    · apply writeExtendFrom_laid outCacheLoc hrun hrows hpre hfits
      · intro item hmem
        rcases List.mem_cons.mp hmem with rfl | hmem
        · exact hge
        · exact hpos item hmem
      · intro _
        exact List.drop_zero.symm
    · -- nothing is written for the first request, and a token of a later one would be read
      -- in front of the tensor
      have hfit : ((reqs q).req.fillIds.length : Int) - (reqs q).prefixIndices.length =
        (reqs q).req.extendInputLen := hfits (q, row) List.mem_cons_self
      have hlen := inputIds_length (reqs q)
      have hn : (reqs q).inputIds.length = 0 := by omega
      obtain ⟨hnot, hrest⟩ := List.nodup_cons.mp hrows
      have hnotEntry : row ∉ (items.map (KvSystem.extendEntry reqs)).map Prod.fst := by
        rw [List.map_map]
        exact hnot
      rw [writeExtendFrom_cons, if_pos (by omega)] at hrun
      refine ⟨?_, writeExtendFrom_laid outCacheLoc hrun hrest
        (fun item hmem => hpre item (List.mem_cons_of_mem _ hmem))
        (fun item hmem => hfits item (List.mem_cons_of_mem _ hmem)) hpos (by omega)⟩
      rw [ReqToTokenPool.read_congr fun i _ => (writeExtendFrom_other _ hrun).2 row hnotEntry i,
        hpre.read (by omega), hn, List.take_zero, List.append_nil]

theorem Laid.congr_reqs {reqs' : Nat → KvReq} (h : Laid pool reqs items out)
    (hsame : ∀ item ∈ items, reqs' item.1 = reqs item.1) : Laid pool reqs' items out := by
  induction items generalizing out with
  | nil => trivial
  | cons item items ih =>
    obtain ⟨q, row⟩ := item
    have hq : reqs' q = reqs q := hsame (q, row) List.mem_cons_self
    unfold Laid
    rw [hq]
    exact ⟨h.1, ih h.2 fun item hmem => hsame item (List.mem_cons_of_mem _ hmem)⟩

namespace KvReq

/-- A request of a new batch, with its prefix and its new slots in its row. -/
theorem Own.of_placed {kvBuffer : Nat → κ} {truncated : Bool}
    (hphase : r.phase = .canRun truncated) (haligned : r.Aligned tree spell slots)
    (hcut : r.Cut truncated)
    (hcomputed : r.prefixIndices.map kvBuffer = Causal.states env.attend (spell r.lastNode))
    (hread : pool.read row r.req.fillIds.length =
      r.prefixIndices.take r.req.fillIds.length ++ out) :
    (KvSystem.placed r row out).Own env pool kvBuffer tree spell slots := by
  have hnew : (KvSystem.placed r row out).phase = .extend truncated := by
    unfold KvSystem.placed
    simp only
    rw [hphase]
  have hmin : min r.prefixIndices.length r.req.fillIds.length =
      (r.prefixIndices.take r.req.fillIds.length).length := by
    rw [List.length_take, Nat.min_comm]
  refine ⟨fun _ => ⟨haligned.mem, haligned.slots_eq, haligned.spell_le, haligned.prefixLen⟩,
    fun _ => ⟨hcut.le.length_le, ?_, Nat.le_refl _, Nat.min_le_right _ _, ?_, ?_⟩, ?_, ?_, ?_, ?_⟩
  · show (pool.read row r.req.fillIds.length).take r.prefixIndices.length =
      r.prefixIndices.take r.req.fillIds.length
    have hlen := congrArg List.length hread
    rw [ReqToTokenPool.read_length, List.length_append, List.length_take] at hlen
    rw [hread, List.take_append, List.take_take, List.length_take]
    by_cases hle : r.prefixIndices.length ≤ r.req.fillIds.length
    · rw [Nat.min_eq_right hle, Nat.sub_self, List.take_zero, List.append_nil, Nat.min_eq_left hle,
        List.take_length, List.take_of_length_le hle]
    · have hnil : out = [] := List.length_eq_zero_iff.mp (by omega)
      rw [hnil, List.take_nil, List.append_nil, Nat.min_eq_right (by omega)]
  · show (pool.read row r.req.fillIds.length).drop (min _ r.req.fillIds.length) = out
    rw [hread, hmin, List.drop_left]
  · show (pool.read row (min _ r.req.fillIds.length)).map kvBuffer =
      Causal.states env.attend (r.tokens.take (min _ r.req.fillIds.length))
    have hspell : (spell r.lastNode).length = r.prefixIndices.length := by
      have hlen := congrArg List.length hcomputed
      rw [List.length_map, Causal.states_length] at hlen
      exact hlen.symm
    have htokens : r.tokens.take (min r.prefixIndices.length r.req.fillIds.length) =
        (spell r.lastNode).take r.req.fillIds.length := by
      rw [Nat.min_comm, ← List.take_take, ← hspell, ← List.prefix_iff_eq_take.mp haligned.spell_le]
    rw [htokens, ← ReqToTokenPool.read_take pool row (Nat.min_le_right _ _), hread, hmin,
      List.take_left, List.map_take, hcomputed, Causal.states_take]
  · intro t ht
    cases hnew.symm.trans ht
  · intro t ht
    cases hnew.symm.trans ht
    exact ⟨⟨hcut.le, hcut.whole⟩, rfl⟩
  · intro ht
    cases hnew.symm.trans ht
  · intro ht
    cases hnew.symm.trans ht

end KvReq

/-- The requests of the batch take their rows and slots one after the other. -/
theorem KvInv.placeReqs (items : List (Nat × Nat)) {σ : KvSystem κ} {out : List Nat}
    (h : KvInv env reqSlots tokenSlots σ tree spell slots
      ⟨L, (items.map Prod.snd : List Nat) + R, (out : Multiset Nat) + H⟩)
    (hlaid : Laid σ.reqToTokenPool σ.reqs items out) (hqs : (items.map Prod.fst).Nodup)
    (hphase : ∀ item ∈ items, ∃ truncated, (σ.reqs item.1).phase = .canRun truncated)
    (hout : out.length = (items.map fun item => (σ.reqs item.1).inputIds.length).sum) :
    KvInv env reqSlots tokenSlots { σ with reqs := KvSystem.placeReqs σ.reqs items out } tree
      spell slots ⟨L, R, H⟩ := by
  induction items generalizing σ out with
  | nil =>
    rw [List.map_nil, List.sum_nil, List.length_eq_zero_iff] at hout
    rw [hout] at h ⊢
    exact (zero_add R) ▸ (zero_add H) ▸ h
  | cons item items ih =>
    obtain ⟨q, row⟩ := item
    obtain ⟨hnot, hqs'⟩ := List.nodup_cons.mp hqs
    obtain ⟨truncated, hcan⟩ : ∃ truncated, (σ.reqs q).phase = .canRun truncated :=
      hphase (q, row) List.mem_cons_self
    have hother : ∀ r : KvReq, ∀ item ∈ items, (σ.setReq q r).reqs item.1 = σ.reqs item.1 := by
      intro r item hmem
      apply KvSystem.setReq_other
      intro heq
      exact hnot (List.mem_map.mpr ⟨item, hmem, heq⟩)
    rw [List.map_cons, List.sum_cons] at hout
    have hlock : (σ.reqs q).holdsLock = true := by
      unfold KvReq.holdsLock
      rw [hcan]
    have hnoRow : (σ.reqs q).holdsRow = false := by
      unfold KvReq.holdsRow
      rw [hcan]
    have haligned := (h.own q).aligned (KvReq.hasNode_of_holdsLock hlock)
    have hcomputed := h.path_computed haligned.mem
    rw [haligned.slots_eq] at hcomputed
    have hrow : (KvSystem.placed (σ.reqs q) row
        (out.take (σ.reqs q).inputIds.length)).holdsRow = true := by
      unfold KvReq.holdsRow KvSystem.placed
      simp only
      rw [hcan]
    have hprivate : σ.privateSlots (KvSystem.placed (σ.reqs q) row
        (out.take (σ.reqs q).inputIds.length)) = out.take (σ.reqs q).inputIds.length := by
      rw [KvSystem.privateSlots_eq hrow]
      show (σ.reqToTokenPool.read row (σ.reqs q).req.fillIds.length).drop
        (σ.reqs q).prefixIndices.length = _
      rw [hlaid.1, List.drop_append, List.length_take, inputIds_length]
      by_cases hle : (σ.reqs q).prefixIndices.length ≤ (σ.reqs q).req.fillIds.length
      · rw [List.drop_of_length_le (by rw [List.length_take]; omega), Nat.min_eq_right hle,
          Nat.sub_self, List.drop_zero, List.nil_append]
      · have hzero : (σ.reqs q).req.fillIds.length - (σ.reqs q).prefixIndices.length = 0 := by
          omega
        rw [List.drop_of_length_le (by rw [List.length_take]; omega), hzero, List.take_zero,
          List.drop_nil, List.nil_append]
    have hset := h.setReq
      (r := KvSystem.placed (σ.reqs q) row (out.take (σ.reqs q).inputIds.length))
      (k := ⟨L, (items.map Prod.snd : List Nat) + R,
        (out.drop (σ.reqs q).inputIds.length : Multiset Nat) + H⟩)
      (h.lt_numReqs (by rw [hcan]; exact nofun)) ?_ ?_ ?_
      (.of_placed hcan haligned ((h.own q).canRun truncated hcan) hcomputed hlaid.1)
    · have hrest := ih hset (hlaid.2.congr_reqs (hother _)) hqs' ?_ ?_
      · exact hrest
      · intro item hmem
        rw [hother _ item hmem]
        exact hphase item (List.mem_cons_of_mem _ hmem)
      · rw [List.length_drop, hout, Nat.add_sub_cancel_left]
        congr 1
        apply List.map_congr_left
        intro item hmem
        rw [hother _ item hmem]
    · rw [KvReq.lockOf_eq hlock, KvReq.lockOf_eq (KvReq.holdsLock_of_holdsRow hrow)]
      rfl
    · rw [KvReq.rowOf_none hnoRow, KvReq.rowOf_eq hrow, zero_add, ← add_assoc]
      rfl
    · rw [KvSystem.privateSlots_none hnoRow, hprivate]
      show (0 : Multiset Nat) + ((out : Multiset Nat) + H) =
        (out.take (σ.reqs q).inputIds.length : List Nat) +
          ((out.drop (σ.reqs q).inputIds.length : List Nat) + H)
      rw [zero_add, ← add_assoc, Multiset.coe_add, List.take_append_drop]

theorem KvSystem.Kept.prepareForExtend {qs : List Nat}
    (h : σ.Kept env reqSlots tokenSlots flag) (hrun : σ.prepareForExtend env qs = some σ') :
    σ'.Kept env reqSlots tokenSlots flag := by
  obtain ⟨hflag, tree, spell, slots, h⟩ := h
  unfold KvSystem.prepareForExtend at hrun
  split at hrun
  next => exact nomatch hrun
  next hguard =>
    rw [not_not] at hguard
    obtain ⟨hnodup, hnone, hphase, hpos⟩ := hguard
    obtain ⟨⟨rows, σ₁⟩, hrows, hrun⟩ := Option.bind_eq_some_iff.mp hrun
    obtain ⟨pool₁, rfl, hlen, hcells, h₁⟩ := h.allocReqSlots hrows
    obtain ⟨⟨out, σ₂⟩, hout, hrun⟩ := Option.bind_eq_some_iff.mp hrun
    obtain ⟨S', pool₂, tree', rfl, hlen', hflag', h₂⟩ := h₁.allocTokenSlots hnone hout
    simp only at hrun
    split at hrun
    next => exact nomatch hrun
    next hfits =>
      rw [not_not] at hfits
      obtain ⟨pool₃, hwrite, hrun⟩ := Option.bind_eq_some_iff.mp hrun
      cases Option.some.inj hrun
      have hfst : (qs.zip rows).map Prod.fst = qs := List.map_fst_zip (by omega)
      have hsnd : (qs.zip rows).map Prod.snd = rows := List.map_snd_zip (by omega)
      have hmem : ∀ item ∈ qs.zip rows, item.1 ∈ qs := fun item hitem =>
        hfst ▸ List.mem_map.mpr ⟨item, hitem, rfl⟩
      have hrowsNodup : ((qs.zip rows).map Prod.snd).Nodup := by
        have hall := (Multiset.nodup_add.mp h₂.rows_nodup).2.1
        rw [hsnd]
        exact Multiset.coe_nodup.mp (Multiset.nodup_add.mp hall).1
      obtain ⟨hpre, hfree, hother⟩ := prefixes_written σ.reqs (qs.zip rows) pool₁ hrowsNodup
      obtain ⟨hfree', hother'⟩ := writeExtendFrom_other out hwrite
      have hlaid : Laid pool₃ σ.reqs (qs.zip rows) out := by
        refine writeExtend_laid out hwrite hrowsNodup hpre (fun item hitem =>
          hfits item.1 (hmem item hitem)) ?_
        intro item hitem
        apply hpos
        rw [← hfst, ← List.map_tail]
        exact List.mem_map.mpr ⟨item, hitem, rfl⟩
      have h₃ := h₂.writeRows pool₃ (hfree'.trans hfree) (by
        intro p hp i _
        have hnot : (σ.reqs p).reqPoolIdx ∉ (qs.zip rows).map Prod.snd := by
          intro hin
          rw [hsnd] at hin
          exact h₂.row_not_held hp (Multiset.mem_add.mpr (.inl hin))
        rw [hother' _ (by rwa [List.map_map]) i]
        exact hother _ hnot i)
      have h₄ := KvInv.placeReqs (qs.zip rows) (by rw [hsnd]; exact h₃) hlaid
        (by rw [hfst]; exact hnodup) (by
          intro item hitem
          rcases hphase item.1 (hmem item hitem) with e | e
          · exact ⟨true, e⟩
          · exact ⟨false, e⟩) (by
          rw [hlen']
          conv_lhs => rw [← hfst, List.map_map]
          rfl)
      exact ⟨hflag'.trans hflag, tree', spell, slots, h₄⟩

end FastPP
