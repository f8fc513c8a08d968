import Mathlib.Data.List.Nodup
import Mathlib.Data.List.Perm.Basic
import Mathlib.Logic.Function.Basic

namespace FastPP

/-- The nodes with `mem` form a tree: their children are nodes of less rank, and no two
places have the same child. -/
structure RankedTree (α : Type) where
  kids : α → List α
  mem : α → Prop
  rank : α → Nat
  closed : ∀ p c, mem p → c ∈ kids p → mem c
  rank_lt : ∀ p c, mem p → c ∈ kids p → rank c < rank p
  nodup : ∀ p, mem p → (kids p).Nodup
  parent : ∀ p q c, mem p → mem q → c ∈ kids p → c ∈ kids q → p = q

namespace RankedTree

variable {α β : Type} {T : RankedTree α} {n m p c d : α}

/-- Node `m` is node `n` or below it. -/
inductive Below (T : RankedTree α) (n : α) : α → Prop
  | refl : Below T n n
  | child {p c : α} (hp : Below T n p) (hc : c ∈ T.kids p) : Below T n c

/-- The same tree with the children in another order. -/
def reorder (T : RankedTree α) (order : α → List α) (h : ∀ n, (order n).Perm (T.kids n)) :
    RankedTree α where
  kids := order
  mem := T.mem
  rank := T.rank
  closed p c hp hc := T.closed p c hp ((h p).mem_iff.mp hc)
  rank_lt p c hp hc := T.rank_lt p c hp ((h p).mem_iff.mp hc)
  nodup p hp := (h p).nodup_iff.mpr (T.nodup p hp)
  parent p q c hp hq hcp hcq := T.parent p q c hp hq ((h p).mem_iff.mp hcp) ((h q).mem_iff.mp hcq)

theorem below_reorder {order : α → List α} {h : ∀ n, (order n).Perm (T.kids n)} :
    (T.reorder order h).Below n m ↔ T.Below n m := by
  constructor
  · intro hb
    induction hb with
    | refl => exact .refl
    | child _ hc ih => exact .child ih ((h _).mem_iff.mp hc)
  · intro hb
    induction hb with
    | refl => exact .refl
    | child _ hc ih => exact .child ih ((h _).mem_iff.mpr hc)

theorem Below.mem (h : T.Below n m) (hn : T.mem n) : T.mem m := by
  induction h with
  | refl => exact hn
  | child _ hc ih => exact T.closed _ _ ih hc

theorem Below.rank_le (h : T.Below n m) (hn : T.mem n) : T.rank m ≤ T.rank n := by
  induction h with
  | refl => exact Nat.le_refl _
  | child hp hc ih =>
    have := T.rank_lt _ _ (hp.mem hn) hc
    omega

theorem Below.trans (h : T.Below n p) (h' : T.Below p m) : T.Below n m := by
  induction h' with
  | refl => exact h
  | child _ hc ih => exact .child ih hc

theorem below_iff : T.Below n m ↔ m = n ∨ ∃ c ∈ T.kids n, T.Below c m := by
  constructor
  · intro h
    induction h with
    | refl => exact .inl rfl
    | @child p c hp hc ih =>
      rcases ih with rfl | ⟨k, hk, hbelow⟩
      · exact .inr ⟨c, hc, .refl⟩
      · exact .inr ⟨k, hk, .child hbelow hc⟩
  · intro h
    rcases h with rfl | ⟨c, hc, hbelow⟩
    · exact .refl
    · exact Below.trans (.child .refl hc) hbelow

theorem not_below_child (hn : T.mem n) (hc : c ∈ T.kids n) : ¬ T.Below c n := by
  intro h
  have hle := h.rank_le (T.closed n c hn hc)
  have hlt := T.rank_lt n c hn hc
  omega

/-- The nodes above a node form a chain. -/
theorem below_chain (hc : T.mem c) (hd : T.mem d) (hcm : T.Below c m) (hdm : T.Below d m) :
    T.Below c d ∨ T.Below d c := by
  induction hcm with
  | refl => exact .inr hdm
  | @child p m hp hmp ih =>
    cases hdm with
    | refl => exact .inl (.child hp hmp)
    | @child q _ hq hmq =>
      have hpq := T.parent p q m (hp.mem hc) (hq.mem hd) hmp hmq
      exact ih (hpq ▸ hq)

/-- No node is below two children of one node. -/
theorem below_disjoint (hn : T.mem n) (hc : c ∈ T.kids n) (hd : d ∈ T.kids n)
    (hcm : T.Below c m) (hdm : T.Below d m) : c = d := by
  have hmem := T.closed n
  have hchild : ∀ {c d : α}, c ∈ T.kids n → d ∈ T.kids n → T.Below c d → c = d := by
    intro c d hc hd hcd
    cases hcd with
    | refl => rfl
    | @child p _ hp hdp =>
      have hpn := T.parent p n d (hp.mem (hmem c hn hc)) hn hdp hd
      exact absurd (hpn ▸ hp) (not_below_child hn hc)
  rcases below_chain (hmem c hn hc) (hmem d hn hd) hcm hdm with h | h
  · exact hchild hc hd h
  · exact (hchild hd hc h).symm

/-- What the walk through a node's children and then the node itself collects; it gives up
after `fuel` levels. -/
def visit (T : RankedTree α) (own : α → List β) : Nat → α → List β
  | 0, _ => []
  | fuel + 1, n => (T.kids n).flatMap (visit T own fuel) ++ own n

/-- The items of a node's subtree, those of the node last. -/
def block (T : RankedTree α) (own : α → List β) (n : α) : List β :=
  T.visit own (T.rank n + 1) n

variable {own : α → List β}

theorem visit_eq_block {fuel : Nat} (hn : T.mem n) (hfuel : T.rank n < fuel) :
    T.visit own fuel n = T.block own n := by
  have hmain : ∀ (k fuel fuel' : Nat) (n : α), T.mem n → T.rank n < k → T.rank n < fuel →
      T.rank n < fuel' → T.visit own fuel n = T.visit own fuel' n := by
    intro k
    induction k with
    | zero => exact fun _ _ _ _ h => absurd h (Nat.not_lt_zero _)
    | succ k ih =>
      intro fuel fuel' n hn hk hfuel hfuel'
      obtain ⟨fuel, rfl⟩ := Nat.exists_eq_succ_of_ne_zero (Nat.ne_zero_of_lt hfuel)
      obtain ⟨fuel', rfl⟩ := Nat.exists_eq_succ_of_ne_zero (Nat.ne_zero_of_lt hfuel')
      have hkids : ∀ c ∈ T.kids n, T.visit own fuel c = T.visit own fuel' c := by
        intro c hc
        have hlt := T.rank_lt n c hn hc
        exact ih fuel fuel' c (T.closed n c hn hc) (by omega) (by omega) (by omega)
      unfold visit
      rw [List.flatMap_congr hkids]
  exact hmain _ fuel _ n hn (Nat.lt_succ_self _) hfuel (Nat.lt_succ_self _)

theorem block_eq (hn : T.mem n) :
    T.block own n = (T.kids n).flatMap (T.block own) ++ own n := by
  have hkids : ∀ c ∈ T.kids n, T.visit own (T.rank n) c = T.block own c :=
    fun c hc => visit_eq_block (T.closed n c hn hc) (T.rank_lt n c hn hc)
  unfold block visit
  rw [List.flatMap_congr hkids]
  rfl

/-- A node's block is a part of the block of each node above it. -/
theorem Below.block (h : T.Below n m) (hn : T.mem n) (own : α → List β) :
    ∃ before after, T.block own n = before ++ T.block own m ++ after := by
  induction h with
  | refl => exact ⟨[], [], by simp⟩
  | @child p c hp hc ih =>
    obtain ⟨before, after, hblock⟩ := ih
    obtain ⟨left, right, hkids⟩ := List.append_of_mem hc
    refine ⟨before ++ left.flatMap (T.block own),
      right.flatMap (T.block own) ++ own p ++ after, ?_⟩
    rw [hblock, block_eq (hp.mem hn), hkids]
    simp

/-- The blocks of siblings stand in the order of the siblings. -/
theorem block_siblings (own : α → List β) {before between after : List α} (hp : T.mem p)
    (h : T.kids p = before ++ c :: between ++ d :: after) :
    ∃ x y z, T.block own p = x ++ T.block own c ++ y ++ T.block own d ++ z := by
  refine ⟨before.flatMap (T.block own), between.flatMap (T.block own),
    after.flatMap (T.block own) ++ own p, ?_⟩
  rw [block_eq hp, h]
  simp

section Items

variable {items : List β} {last : β → α}

open Classical in
/-- The items at a node and below it. -/
noncomputable def itemsBelow (T : RankedTree α) (last : β → α) (items : List β) (n : α) :
    List β :=
  items.filter fun item => decide (T.Below n (last item))

/-- Two filters that share nothing split the filter by either. -/
theorem filter_or_perm (p q : β → Bool) (h : ∀ item ∈ items, p item = true → q item = false) :
    (items.filter p ++ items.filter q).Perm (items.filter fun item => p item || q item) := by
  have hsplit := List.filter_append_perm p (items.filter fun item => p item || q item)
  rw [List.filter_filter, List.filter_filter] at hsplit
  have hleft : (items.filter fun item => p item && (p item || q item)) = items.filter p := by
    apply List.filter_congr
    intro item _
    cases p item <;> rfl
  have hright : (items.filter fun item => (!p item) && (p item || q item)) = items.filter q := by
    apply List.filter_congr
    intro item hitem
    cases hp : p item with
    | false => rfl
    | true => rw [h item hitem hp]; rfl
  rwa [hleft, hright] at hsplit

open Classical in
/-- The items below some children, child by child. -/
theorem itemsBelow_flatMap {ks : List α} (hn : T.mem n) (hks : ∀ c ∈ ks, c ∈ T.kids n)
    (hnodup : ks.Nodup) : (ks.flatMap (T.itemsBelow last items)).Perm
      (items.filter fun item => decide (∃ c ∈ ks, T.Below c (last item))) := by
  induction ks with
  | nil => simp
  | cons c ks ih =>
    obtain ⟨hc, hnodup⟩ := List.nodup_cons.mp hnodup
    have hrest := ih (fun d hd => hks d (List.mem_cons_of_mem c hd)) hnodup
    rw [List.flatMap_cons]
    refine (hrest.append_left _).trans ((filter_or_perm _ _ ?_).trans (.of_eq ?_))
    · intro item _ hbelow
      rw [decide_eq_false_iff_not]
      intro ⟨d, hd, hbelow'⟩
      have heq := below_disjoint hn (hks c List.mem_cons_self) (hks d (List.mem_cons_of_mem c hd))
        (of_decide_eq_true hbelow) hbelow'
      exact hc (heq ▸ hd)
    · apply List.filter_congr
      intro item _
      simp

variable [DecidableEq α]

/-- The items at a node. -/
def itemsAt (last : β → α) (items : List β) (n : α) : List β :=
  items.filter fun item => decide (last item = n)

open Classical in
theorem itemsBelow_perm (hn : T.mem n) (last : β → α) (items : List β) :
    ((T.kids n).flatMap (T.itemsBelow last items) ++ itemsAt last items n).Perm
      (T.itemsBelow last items n) := by
  refine ((itemsBelow_flatMap hn (fun _ hc => hc) (T.nodup n hn)).append_right _).trans
    ((filter_or_perm _ _ ?_).trans (.of_eq ?_))
  · intro item _ hbelow
    rw [decide_eq_false_iff_not]
    intro heq
    obtain ⟨c, hc, hbelow⟩ := of_decide_eq_true hbelow
    exact not_below_child hn hc (heq ▸ hbelow)
  · apply List.filter_congr
    intro item _
    rw [Bool.eq_iff_iff, Bool.or_eq_true, decide_eq_true_eq, decide_eq_true_eq,
      decide_eq_true_eq, below_iff]
    exact or_comm

/-- A node's block has the items of its subtree. -/
theorem block_perm (hn : T.mem n) :
    (T.block (itemsAt last items) n).Perm (T.itemsBelow last items n) := by
  have hmain : ∀ (k : Nat) (n : α), T.mem n → T.rank n < k →
      (T.block (itemsAt last items) n).Perm (T.itemsBelow last items n) := by
    intro k
    induction k with
    | zero => exact fun _ _ h => absurd h (Nat.not_lt_zero _)
    | succ k ih =>
      intro n hn hk
      rw [block_eq hn]
      refine (List.Perm.append_right _ ?_).trans (itemsBelow_perm hn last items)
      apply List.Perm.flatMap_left
      intro c hc
      have hlt := T.rank_lt n c hn hc
      exact ih c (T.closed n c hn hc) (by omega)
  exact hmain _ n hn (Nat.lt_succ_self _)

open Classical in
theorem kids_block_perm (hn : T.mem n) :
    ((T.kids n).flatMap (T.block (itemsAt last items))).Perm
      (items.filter fun item => decide (T.Below n (last item) ∧ last item ≠ n)) := by
  have hkids : ∀ c ∈ T.kids n,
      (T.block (itemsAt last items) c).Perm (T.itemsBelow last items c) :=
    fun c hc => block_perm (T.closed n c hn hc)
  refine (List.Perm.flatMap_left _ hkids).trans
    ((itemsBelow_flatMap hn (fun _ hc => hc) (T.nodup n hn)).trans (.of_eq ?_))
  apply List.filter_congr
  intro item _
  rw [decide_eq_decide, below_iff]
  constructor
  · intro ⟨c, hc, hbelow⟩
    exact ⟨.inr ⟨c, hc, hbelow⟩, fun heq => not_below_child hn hc (heq ▸ hbelow)⟩
  · intro ⟨hbelow, hne⟩
    exact hbelow.resolve_left hne

/-- A loop over children that first weighs a child's subtree and then adds its weight to the
node's own. -/
theorem foldlM_weigh (weigh : α → (α → Nat) → Option (α → Nat)) (last : β → α)
    (items : List β) {ks : List α} {w : α → Nat} (hn : T.mem n) (hks : ∀ c ∈ ks, c ∈ T.kids n)
    (hnodup : ks.Nodup)
    (hweigh : ∀ c ∈ ks, ∀ w : α → Nat, (∀ m, T.Below c m → w m = (itemsAt last items m).length) →
      ∃ w', weigh c w = some w' ∧
        (∀ m, T.Below c m → w' m = (T.itemsBelow last items m).length) ∧
        ∀ m, ¬ T.Below c m → w' m = w m)
    (hw : ∀ c ∈ ks, ∀ m, T.Below c m → w m = (itemsAt last items m).length) :
    ∃ w', ks.foldlM (fun w c => do
          let w ← weigh c w
          pure (Function.update w n (w n + w c))) w = some w' ∧
      w' n = w n + (ks.flatMap (T.itemsBelow last items)).length ∧
      (∀ c ∈ ks, ∀ m, T.Below c m → w' m = (T.itemsBelow last items m).length) ∧
      ∀ m, m ≠ n → (∀ c ∈ ks, ¬ T.Below c m) → w' m = w m := by
  induction ks generalizing w with
  | nil => exact ⟨w, rfl, rfl, fun c hc => absurd hc List.not_mem_nil, fun _ _ _ => rfl⟩
  | cons c ks ih =>
    obtain ⟨hc, hnodup⟩ := List.nodup_cons.mp hnodup
    have hkid := hks c List.mem_cons_self
    have htail : ∀ d ∈ ks, d ∈ T.kids n := fun d hd => hks d (List.mem_cons_of_mem c hd)
    obtain ⟨w₁, hrun₁, hbelow₁, hother₁⟩ :=
      hweigh c List.mem_cons_self w (hw c List.mem_cons_self)
    -- the update is at the node itself, which is below none of its children
    have hupdate : ∀ d ∈ T.kids n, ∀ m, T.Below d m →
        Function.update w₁ n (w₁ n + w₁ c) m = w₁ m := by
      intro d hd m hdm
      apply Function.update_of_ne
      intro heq
      exact not_below_child hn hd (heq ▸ hdm)
    have hapart : ∀ d ∈ ks, ∀ m, T.Below d m → ¬ T.Below c m := by
      intro d hd m hdm hcm
      exact hc (below_disjoint hn hkid (htail d hd) hcm hdm ▸ hd)
    obtain ⟨w', hrun, hself, hbelow, hother⟩ := ih (w := Function.update w₁ n (w₁ n + w₁ c)) htail
      hnodup (fun d hd => hweigh d (List.mem_cons_of_mem c hd)) (by
        intro d hd m hdm
        rw [hupdate d (htail d hd) m hdm, hother₁ m (hapart d hd m hdm)]
        exact hw d (List.mem_cons_of_mem c hd) m hdm)
    refine ⟨w', ?_, ?_, ?_, ?_⟩
    · rw [List.foldlM_cons, hrun₁]
      exact hrun
    · rw [hself, Function.update_self, hother₁ n (not_below_child hn hkid), hbelow₁ c .refl,
        List.flatMap_cons, List.length_append, Nat.add_assoc]
    · intro d hd m hdm
      rcases List.mem_cons.mp hd with rfl | hd
      · have hne : m ≠ n := fun heq => not_below_child hn hkid (heq ▸ hdm)
        rw [hother m hne fun k hk hkm => hapart k hk m hkm hdm, hupdate d hkid m hdm]
        exact hbelow₁ m hdm
      · exact hbelow d hd m hdm
    · intro m hne hnot
      rw [hother m hne fun d hd => hnot d (List.mem_cons_of_mem c hd), Function.update_of_ne hne]
      exact hother₁ m (hnot c List.mem_cons_self)

end Items

end RankedTree

end FastPP
