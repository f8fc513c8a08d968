import Mathlib.Data.List.Nodup
import Mathlib.Data.List.Perm.Basic
import Mathlib.Logic.Function.Basic

/-! Grids of programs that store blocks of lanes into a memory, in any order. -/

namespace GridStores

variable {A V ι β : Type*}

/-- The programs of a grid, each with the items before its own. -/
def launch (program : List ι → ι → List β) (items : List ι) : List β :=
  (List.range items.length).flatMap fun pid =>
    items[pid]?.elim [] (program (items.take pid))

/-- The programs one after the other. -/
def launchFrom (program : List ι → ι → List β) (before : List ι) : List ι → List β
  | [] => []
  | item :: items => program before item ++ launchFrom program (before ++ [item]) items

theorem launchFrom_eq (program : List ι → ι → List β) (before items : List ι) :
    launchFrom program before items = (List.range items.length).flatMap fun pid =>
      items[pid]?.elim [] (program (before ++ items.take pid)) := by
  induction items generalizing before with
  | nil => rfl
  | cons item items ih =>
    rw [launchFrom, ih, List.length_cons, List.range_succ_eq_map, List.flatMap_cons,
      List.flatMap_map]
    simp only [List.getElem?_cons_zero, List.getElem?_cons_succ, List.take_zero,
      List.take_succ_cons, List.append_nil, Option.elim_some, List.append_assoc,
      List.singleton_append]

theorem launch_eq (program : List ι → ι → List β) (items : List ι) :
    launch program items = launchFrom program [] items :=
  (launchFrom_eq program [] items).symm

/-- The offsets below `n`, in blocks of lanes with a mask. -/
def blocked (blockSize n : Nat) : List Nat :=
  (List.range ((n + blockSize - 1) / blockSize)).flatMap fun i =>
    ((List.range blockSize).map fun lane => lane + i * blockSize).filter (· < n)

theorem blocks_eq (blockSize k : Nat) :
    ((List.range k).flatMap fun i => (List.range blockSize).map fun lane => lane + i * blockSize) =
      List.range (k * blockSize) := by
  induction k with
  | zero => rw [Nat.zero_mul]; rfl
  | succ k ih =>
    rw [List.range_succ, List.flatMap_append, ih, List.flatMap_singleton, Nat.succ_mul,
      List.range_add]
    congr 1
    apply List.map_congr_left
    intro lane _
    exact Nat.add_comm _ _

/-- With its mask the loop covers each offset once. -/
theorem blocked_eq {blockSize : Nat} (hpos : 0 < blockSize) (n : Nat) :
    blocked blockSize n = List.range n := by
  have hle : n ≤ (n + blockSize - 1) / blockSize * blockSize := by
    have hdiv := Nat.div_add_mod (n + blockSize - 1) blockSize
    have hmod := Nat.mod_lt (n + blockSize - 1) hpos
    rw [Nat.mul_comm] at hdiv
    omega
  unfold blocked
  rw [← List.filter_flatMap, blocks_eq, ← Nat.add_sub_cancel' hle, List.range_add,
    List.filter_append, List.filter_eq_self.mpr, List.filter_eq_nil_iff.mpr, List.append_nil]
  · intro offset hmem
    obtain ⟨k, _, rfl⟩ := List.mem_map.mp hmem
    simp
  · intro offset hmem
    simpa using List.mem_range.mp hmem

/-- The values in the places from `k` on. -/
def stored (place : Nat → A) (k : Nat) (values : List V) : List (A × V) :=
  (values.zipIdx k).map fun entry => (place entry.2, entry.1)

theorem stored_append (place : Nat → A) (k : Nat) (values values' : List V) :
    stored place k (values ++ values') =
      stored place k values ++ stored place (k + values.length) values' := by
  unfold stored
  rw [List.zipIdx_append, List.map_append]

theorem stored_fst (place : Nat → A) (k : Nat) (values : List V) :
    (stored place k values).map Prod.fst = (List.range' k values.length).map place := by
  unfold stored
  rw [List.map_map, ← List.zipIdx_map_snd k values, List.map_map]
  rfl

theorem stored_nodup {place : Nat → A} (hplace : Function.Injective place) (k : Nat)
    (values : List V) : ((stored place k values).map Prod.fst).Nodup := by
  rw [stored_fst]
  exact List.Nodup.map hplace List.nodup_range'

theorem stored_map (place : Nat → A) (k n : Nat) (f : Nat → V) :
    stored place k ((List.range n).map f) = (List.range n).map fun i => (place (k + i), f i) := by
  unfold stored
  apply List.ext_getElem?
  intro i
  by_cases hi : i < n
  · simp [hi]
  · simp [hi]

variable [DecidableEq A]

/-- The stores one after the other. -/
def execute (memory : A → V) (stores : List (A × V)) : A → V :=
  stores.foldl (fun memory s => Function.update memory s.1 s.2) memory

variable {memory : A → V} {stores trace : List (A × V)} {a : A} {v : V}

theorem execute_append (memory : A → V) (stores stores' : List (A × V)) :
    execute memory (stores ++ stores') = execute (execute memory stores) stores' :=
  List.foldl_append

theorem execute_other (h : a ∉ stores.map Prod.fst) : execute memory stores a = memory a := by
  induction stores generalizing memory with
  | nil => rfl
  | cons s stores ih =>
    rw [List.map_cons, List.mem_cons, not_or] at h
    exact (ih h.2).trans (Function.update_of_ne h.1 _ _)

theorem execute_mem (hnodup : (stores.map Prod.fst).Nodup) (h : (a, v) ∈ stores) :
    execute memory stores a = v := by
  induction stores generalizing memory with
  | nil => exact absurd h List.not_mem_nil
  | cons s stores ih =>
    obtain ⟨hnot, hnodup⟩ := List.nodup_cons.mp hnodup
    rcases List.mem_cons.mp h with rfl | h
    · exact (execute_other hnot).trans (Function.update_self _ _ _)
    · exact ih hnodup h

/-- Stores to different addresses can be done in any order. -/
theorem execute_perm (hnodup : (stores.map Prod.fst).Nodup) (hperm : trace.Perm stores) :
    execute memory trace = execute memory stores := by
  funext a
  have hnodup' : (trace.map Prod.fst).Nodup := (hperm.map Prod.fst).nodup_iff.mpr hnodup
  by_cases hmem : a ∈ stores.map Prod.fst
  · obtain ⟨⟨_, v⟩, hs, rfl⟩ := List.mem_map.mp hmem
    rw [execute_mem hnodup hs, execute_mem hnodup' (hperm.mem_iff.mpr hs)]
  · rw [execute_other hmem, execute_other fun h => hmem ((hperm.map Prod.fst).mem_iff.mp h)]

/-- Values that are stored, in any order, can be read back. -/
theorem read_stored (memory : A → V) (hnodup : (stores.map Prod.fst).Nodup) (hperm : trace.Perm stores)
    {place : Nat → A} {values : List V} (hstored : ∀ s ∈ stored place 0 values, s ∈ stores) :
    ((List.range values.length).map fun i => execute memory trace (place i)) = values := by
  apply List.ext_getElem?
  intro i
  by_cases hi : i < values.length
  · have hmem : (place i, values[i]) ∈ stored place 0 values :=
      List.mem_map.mpr ⟨(values[i], i), List.mem_zipIdx_iff_getElem?.mpr
        (List.getElem?_eq_getElem hi), rfl⟩
    rw [List.getElem?_map, List.getElem?_range hi, List.getElem?_eq_getElem hi, Option.map_some,
      execute_perm hnodup hperm, execute_mem hnodup (hstored _ hmem)]
  · rw [List.getElem?_eq_none (by simp; omega), List.getElem?_eq_none (by omega)]

end GridStores
