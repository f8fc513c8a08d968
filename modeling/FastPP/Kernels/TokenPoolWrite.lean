import FastPP.KvCache.KvLaw
import FastPP.Lib.GridStores
import FastPP.LogprobLayout

namespace FastPP

open GridStores

variable {pool pool' : ReqToTokenPool} {items : List (Nat × Nat × Nat × Int)} {outCacheLoc : List Nat}
  {load : Int → Nat} {memory : Nat → Nat} {stride : Nat}

/-- One program of `write_req_to_token_pool_triton`; `load i` is what a load finds `i` entries
behind `out_cache_loc`. -/
def writeReqToTokenPoolProgram (load : Int → Nat) (stride : Nat)
    (before : List (Nat × Nat × Nat × Int)) (item : Nat × Nat × Nat × Int) : List (Nat × Nat) :=
  let (reqPoolIndex, preLen, seqLen, _) := item
  let cumsumStart := (before.map fun item => item.2.2.2).sum
  (blocked 512 (seqLen - preLen)).map fun offset =>
    (reqPoolIndex * stride + offset + preLen, load (cumsumStart + offset))

/-- The stores of `write_req_to_token_pool_triton`. -/
def writeReqToTokenPoolTriton (load : Int → Nat) (stride : Nat)
    (items : List (Nat × Nat × Nat × Int)) : List (Nat × Nat) :=
  launch (writeReqToTokenPoolProgram load stride) items

namespace ReqToTokenPool

/-- The matrix as it lies in memory. -/
def LiesIn (pool : ReqToTokenPool) (stride : Nat) (memory : Nat → Nat) : Prop :=
  ∀ row col, col < stride → memory (row * stride + col) = pool.reqToToken row col

/-- `req_to_token[row, start:stop] = values`; one value is broadcast and other mismatched shapes
raise. -/
def assignSlice (pool : ReqToTokenPool) (row start stop : Nat) (values : List Nat) :
    Option ReqToTokenPool :=
  if values.length = stop - start then some (pool.writeSlice row start values)
  else match values with
    | [value] => some (pool.writeSlice row start (List.replicate (stop - start) value))
    | _ => none

end ReqToTokenPool

/-- The loop of `prepare_for_extend` without the kernel. -/
def writeExtendNative (outCacheLoc : List Nat) (pt : Int) (pool : ReqToTokenPool) :
    List (Nat × Nat × Nat × Int) → Option ReqToTokenPool
  | [] => some pool
  | (row, preLen, seqLen, extendLen) :: rest => do
    let pool ← pool.assignSlice row preLen seqLen (sliceBetween outCacheLoc pt (pt + extendLen))
    writeExtendNative outCacheLoc (pt + extendLen) pool rest

theorem mul_add_inj {row row' col col' : Nat} (hcol : col < stride) (hcol' : col' < stride)
    (h : row * stride + col = row' * stride + col') : row = row' ∧ col = col' := by
  have hpos : 0 < stride := by omega
  have hrow := congrArg (· / stride) h
  have hmod := congrArg (· % stride) h
  simp only [Nat.mul_comm _ stride, Nat.mul_add_div hpos, Nat.mul_add_mod, Nat.div_eq_of_lt hcol,
    Nat.div_eq_of_lt hcol', Nat.mod_eq_of_lt hcol, Nat.mod_eq_of_lt hcol', Nat.add_zero] at hrow hmod
  exact ⟨hrow, hmod⟩

theorem program_eq (load : Int → Nat) (stride : Nat) (before : List (Nat × Nat × Nat × Int))
    (row preLen seqLen : Nat) (extendLen : Int) :
    writeReqToTokenPoolProgram load stride before (row, preLen, seqLen, extendLen) =
      (List.range (seqLen - preLen)).map fun offset => (row * stride + offset + preLen,
        load ((before.map fun item => item.2.2.2).sum + offset)) := by
  simp only [writeReqToTokenPoolProgram, blocked_eq (show 0 < 512 by decide)]

/-- A program stores into its own row only. -/
theorem program_address {before : List (Nat × Nat × Nat × Int)} {item : Nat × Nat × Nat × Int}
    (hlen : item.2.2.1 ≤ stride) {a : Nat}
    (h : a ∈ (writeReqToTokenPoolProgram load stride before item).map Prod.fst) :
    ∃ col < stride, a = item.1 * stride + col := by
  obtain ⟨row, preLen, seqLen, extendLen⟩ := item
  rw [program_eq, List.map_map] at h
  obtain ⟨offset, hoffset, rfl⟩ := List.mem_map.mp h
  have hlt := List.mem_range.mp hoffset
  have hle : seqLen ≤ stride := hlen
  exact ⟨offset + preLen, by omega, by simp only [Function.comp]; omega⟩

theorem program_nodup (load : Int → Nat) (stride : Nat)
    (before : List (Nat × Nat × Nat × Int)) (item : Nat × Nat × Nat × Int) :
    ((writeReqToTokenPoolProgram load stride before item).map Prod.fst).Nodup := by
  obtain ⟨row, preLen, seqLen, extendLen⟩ := item
  rw [program_eq, List.map_map]
  apply List.nodup_range.map
  intro a b hab
  simp only [Function.comp] at hab
  omega

/-- What one program leaves is the row with its segment. -/
theorem program_liesIn (h : pool.LiesIn stride memory) {before : List (Nat × Nat × Nat × Int)}
    {row preLen seqLen : Nat} {extendLen : Int} (hlen : seqLen ≤ stride) {values : List Nat}
    (hvalues : values.length = seqLen - preLen)
    (hload : ∀ i < seqLen - preLen,
      load ((before.map fun item => item.2.2.2).sum + i) = values.getD i 0) :
    (pool.writeSlice row preLen values).LiesIn stride (execute memory
      (writeReqToTokenPoolProgram load stride before (row, preLen, seqLen, extendLen))) := by
  intro row' col hcol
  have hnodup := program_nodup load stride before (row, preLen, seqLen, extendLen)
  by_cases hin : row' = row ∧ preLen ≤ col ∧ col < preLen + values.length
  · obtain ⟨rfl, hge, hlt⟩ := hin
    rw [ReqToTokenPool.writeSlice_self hge hlt, ← hload _ (by omega)]
    apply execute_mem hnodup
    rw [program_eq]
    refine List.mem_map.mpr ⟨col - preLen, List.mem_range.mpr (by omega), ?_⟩
    congr 1
    omega
  · rw [ReqToTokenPool.writeSlice_other (by omega), ← h row' col hcol]
    apply execute_other
    intro hmem
    rw [program_eq, List.map_map] at hmem
    obtain ⟨offset, hoffset, heq⟩ := List.mem_map.mp hmem
    have hlt := List.mem_range.mp hoffset
    have haddress : row * stride + (offset + preLen) = row' * stride + col := by
      simp only [Function.comp] at heq
      omega
    obtain ⟨hrow, hcol'⟩ := mul_add_inj (by omega) hcol haddress
    exact hin ⟨hrow.symm, by omega, by omega⟩

/-- The programs in the order of the requests do what the loop does. -/
theorem launchFrom_liesIn {start : Int} {before : List (Nat × Nat × Nat × Int)}
    (hrun : Memory.writeExtendFrom outCacheLoc start pool items = some pool')
    (hstart : start = (before.map fun item => item.2.2.2).sum)
    (hlen : ∀ item ∈ items, item.2.2.1 ≤ stride)
    (hload : ∀ i < outCacheLoc.length, load i = outCacheLoc.getD i 0)
    (h : pool.LiesIn stride memory) : pool'.LiesIn stride (execute memory
      (launchFrom (writeReqToTokenPoolProgram load stride) before items)) := by
  induction items generalizing pool memory start before with
  | nil =>
    cases Option.some.inj hrun
    exact h
  | cons item items ih =>
    obtain ⟨row, preLen, seqLen, extendLen⟩ := item
    obtain ⟨hle, hlen⟩ := List.forall_mem_cons.mp hlen
    have hle' : seqLen ≤ stride := hle
    have hnext : start + extendLen =
        ((before ++ [(row, preLen, seqLen, extendLen)]).map fun item => item.2.2.2).sum := by
      rw [List.map_append, List.sum_append, ← hstart]
      simp
    rw [launchFrom, execute_append]
    unfold Memory.writeExtendFrom at hrun
    simp only at hrun
    split at hrun
    next hzero =>
      refine ih hrun hnext hlen ?_
      rw [program_eq, hzero]
      exact h
    next hcount =>
      split at hrun
      next => cases hrun
      next hbounds =>
        refine ih hrun hnext hlen (program_liesIn h hle' ?_ ?_)
        · rw [List.length_take, List.length_drop]
          omega
        · intro i hi
          rw [← hstart, show start + i = ((start.toNat + i : Nat) : Int) by omega,
            hload _ (by omega), List.getD_eq_getElem?_getD, List.getD_eq_getElem?_getD,
            List.getElem?_take_of_lt hi, List.getElem?_drop]

theorem launchFrom_nodup (before : List (Nat × Nat × Nat × Int))
    (hrows : (items.map Prod.fst).Nodup) (hlen : ∀ item ∈ items, item.2.2.1 ≤ stride) :
    ((launchFrom (writeReqToTokenPoolProgram load stride) before items).map Prod.fst).Nodup ∧
      ∀ a ∈ (launchFrom (writeReqToTokenPoolProgram load stride) before items).map Prod.fst,
        ∃ item ∈ items, ∃ col < stride, a = item.1 * stride + col := by
  induction items generalizing before with
  | nil => exact ⟨List.nodup_nil, fun a ha => absurd ha List.not_mem_nil⟩
  | cons item items ih =>
    obtain ⟨hle, hlen⟩ := List.forall_mem_cons.mp hlen
    obtain ⟨hnot, hrows⟩ := List.nodup_cons.mp hrows
    obtain ⟨hnodup, haddress⟩ := ih (before ++ [item]) hrows hlen
    rw [launchFrom, List.map_append]
    refine ⟨List.nodup_append.mpr ⟨program_nodup load stride before item, hnodup, ?_⟩, ?_⟩
    · rintro a ha b hb rfl
      obtain ⟨col, hcol, hone⟩ := program_address hle ha
      obtain ⟨item', hitem', col', hcol', htwo⟩ := haddress a hb
      obtain ⟨hrow, _⟩ := mul_add_inj hcol hcol' (hone.symm.trans htwo)
      exact hnot (List.mem_map.mpr ⟨item', hitem', hrow.symm⟩)
    · intro a ha
      rcases List.mem_append.mp ha with ha | ha
      · exact ⟨item, List.mem_cons_self, program_address hle ha⟩
      · obtain ⟨item', hitem', hcol⟩ := haddress a ha
        exact ⟨item', List.mem_cons_of_mem _ hitem', hcol⟩

/-- The kernel in any order of its stores does what the loop does. -/
theorem triton_liesIn (hrun : Memory.writeExtendFrom outCacheLoc 0 pool items = some pool')
    (hrows : (items.map Prod.fst).Nodup) (hlen : ∀ item ∈ items, item.2.2.1 ≤ stride)
    (hload : ∀ i < outCacheLoc.length, load i = outCacheLoc.getD i 0)
    (h : pool.LiesIn stride memory) {trace : List (Nat × Nat)}
    (hperm : trace.Perm (writeReqToTokenPoolTriton load stride items)) :
    pool'.LiesIn stride (execute memory trace) := by
  unfold writeReqToTokenPoolTriton at hperm
  rw [launch_eq] at hperm
  rw [execute_perm (launchFrom_nodup [] hrows hlen).1 hperm]
  exact launchFrom_liesIn hrun rfl hlen hload h

theorem writeSlice_nil (pool : ReqToTokenPool) (row start : Nat) :
    pool.writeSlice row start [] = pool := by
  unfold ReqToTokenPool.writeSlice
  congr 1
  funext r c
  rw [if_neg fun hin => by
    have hlt : c < start + 0 := hin.2.2
    omega]

/-- The two loops agree when each segment has the length of its tokens. -/
theorem writeExtendNative_eq (pool : ReqToTokenPool) {pt : Int} (hpt : 0 ≤ pt)
    (hfit : ∀ item ∈ items, (item.2.2.1 : Int) - item.2.1 = item.2.2.2)
    (hpos : ∀ item ∈ items, 0 ≤ item.2.2.2)
    (hsum : pt + (items.map fun item => item.2.2.2).sum ≤ outCacheLoc.length) :
    writeExtendNative outCacheLoc pt pool items =
        Memory.writeExtendFrom outCacheLoc pt pool items ∧
      (Memory.writeExtendFrom outCacheLoc pt pool items).isSome := by
  induction items generalizing pool pt with
  | nil => exact ⟨rfl, rfl⟩
  | cons item items ih =>
    obtain ⟨row, preLen, seqLen, extendLen⟩ := item
    obtain ⟨hone, hfit⟩ := List.forall_mem_cons.mp hfit
    obtain ⟨hge, hpos⟩ := List.forall_mem_cons.mp hpos
    have hone' : (seqLen : Int) - preLen = extendLen := hone
    have hge' : 0 ≤ extendLen := hge
    have hrest : 0 ≤ (items.map fun item => item.2.2.2).sum :=
      List.sum_nonneg fun x hx => by
        obtain ⟨item, hmem, rfl⟩ := List.mem_map.mp hx
        exact hpos item hmem
    rw [List.map_cons, List.sum_cons] at hsum
    have hsum' : pt + (extendLen + (items.map fun item => item.2.2.2).sum) ≤
      outCacheLoc.length := hsum
    have hslice : sliceBetween outCacheLoc pt (pt + extendLen) =
        (outCacheLoc.drop pt.toNat).take (seqLen - preLen) := by
      unfold sliceBetween sliceTo
      rw [if_pos hpt, if_pos (show 0 ≤ pt + extendLen by omega), List.drop_take]
      congr 1
      omega
    have hlength : ((outCacheLoc.drop pt.toNat).take (seqLen - preLen)).length =
        seqLen - preLen := by
      rw [List.length_take, List.length_drop]
      omega
    have hassign : pool.assignSlice row preLen seqLen
        (sliceBetween outCacheLoc pt (pt + extendLen)) = some (pool.writeSlice row preLen
          ((outCacheLoc.drop pt.toNat).take (seqLen - preLen))) := by
      unfold ReqToTokenPool.assignSlice
      rw [hslice, if_pos hlength]
    obtain ⟨hsame, hsome⟩ := ih (pool.writeSlice row preLen
      ((outCacheLoc.drop pt.toNat).take (seqLen - preLen))) (show 0 ≤ pt + extendLen by omega) hfit
      hpos (by omega)
    unfold writeExtendNative Memory.writeExtendFrom
    rw [hassign]
    simp only [Option.bind_eq_bind, Option.bind_some]
    rw [hsame]
    split
    next hzero =>
      rw [hzero, List.take_zero, writeSlice_nil] at hsome ⊢
      exact ⟨rfl, hsome⟩
    next =>
      rw [if_neg (by omega)]
      exact ⟨rfl, hsome⟩

/-- `write_req_to_token_pool_triton` in any order of its stores agrees with the loop without it,
for a batch whose requests have different rows and whose tokens all got a slot. -/
theorem writeReqToTokenPool_agrees (hrows : (items.map Prod.fst).Nodup)
    (hlen : ∀ item ∈ items, item.2.2.1 ≤ stride)
    (hfit : ∀ item ∈ items, (item.2.2.1 : Int) - item.2.1 = item.2.2.2)
    (hpos : ∀ item ∈ items, 0 ≤ item.2.2.2)
    (hsum : (items.map fun item => item.2.2.2).sum = outCacheLoc.length)
    (hload : ∀ i < outCacheLoc.length, load i = outCacheLoc.getD i 0)
    (h : pool.LiesIn stride memory) :
    ∃ pool', writeExtendNative outCacheLoc 0 pool items = some pool' ∧
      ∀ trace : List (Nat × Nat), trace.Perm (writeReqToTokenPoolTriton load stride items) →
        pool'.LiesIn stride (execute memory trace) := by
  obtain ⟨hsame, hsome⟩ := writeExtendNative_eq pool (Int.le_refl 0) hfit hpos
    (show 0 + _ ≤ (outCacheLoc.length : Int) by omega)
  obtain ⟨pool', hrun⟩ := Option.isSome_iff_exists.mp hsome
  exact ⟨pool', hsame.trans hrun, fun trace hperm =>
    triton_liesIn hrun hrows hlen hload h hperm⟩

theorem writeReqToTokenPool_agrees_two : ∃ pool',
    writeExtendNative [7, 8, 9] 0 (.clear 2) [(0, 1, 3, 2), (1, 0, 1, 1)] = some pool' ∧
    ∀ trace : List (Nat × Nat), trace.Perm (writeReqToTokenPoolTriton
      (fun i => [7, 8, 9].getD i.toNat 0) 4 [(0, 1, 3, 2), (1, 0, 1, 1)]) →
        pool'.LiesIn 4 (execute (fun _ => 0) trace) :=
  writeReqToTokenPool_agrees (by decide) (by decide) (by decide) (by decide) (by decide)
    (fun _ _ => rfl) fun _ _ _ => rfl

end FastPP
