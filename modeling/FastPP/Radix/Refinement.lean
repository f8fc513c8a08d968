import FastPP.Radix.Runs

namespace FastPP

namespace RadixCache

variable {S S' : RadixCache} {tree : Finset Nat} {spell slots : Nat → List Nat}
  {locks returned : List Nat} {clock : Nat → Rat} {heapq : Heapq}

/-- `match_prefix` returns the match of the map, at the node that ends it. -/
theorem Locked.matchPrefix_refines (h : S.Locked tree spell slots locks) (clock : Nat → Rat)
    (key : List Nat) :
    ∃ S' node, S.matchPrefix clock key = some (S', S.tokenMap.matched key, node) ∧
      S'.Path node (key.take (S.tokenMap.matched key).length) (S.tokenMap.matched key) ∧
      S'.tokenMap = S.tokenMap := by
  obtain ⟨S', found, last, tree', spell', slots', hrun, h', hmap, hlast, hf, _⟩ :=
    matchPrefix_spec clock h key
  have hmatched := hf.matched h.shape h'.shape hmap hlast
  have hpath := h'.shape.path hlast
  rw [hf.spell, hf.slots, h.shape.root_spell, h.shape.root_slots, List.nil_append,
    List.nil_append] at hpath
  rw [hmatched]
  exact ⟨S', last, hrun, hpath, hmap.tokenMap_eq h.shape h'.shape⟩

/-- `insert` returns the length of the match and extends the map. -/
theorem Locked.insert_refines (h : S.Locked tree spell slots locks) (clock : Nat → Rat)
    {key value : List Nat} (hlen : value.length = key.length) :
    ∃ S', S.insert clock key value = some (S', (S.tokenMap.matched key).length) ∧
      S'.tokenMap = S.tokenMap.extend key value := by
  obtain ⟨S', len, tree', spell', slots', hrun, h', hi⟩ := insert_spec clock h hlen
  obtain ⟨hmatched, hmap⟩ := hi.extend h.shape h'.shape
  rw [hmatched]
  exact ⟨S', hrun, hmap⟩

/-- The cache refines the map from sequences to slots that its tree stands for. -/
theorem reached_refines (h : Reached clock heapq True S returned locks) :
    (∀ q s, S.tokenMap.get q = some s ↔ S.Maps q s) ∧
    (∀ key, ∃ S' node, S.matchPrefix clock key = some (S', S.tokenMap.matched key, node) ∧
      S'.Path node (key.take (S.tokenMap.matched key).length) (S.tokenMap.matched key) ∧
      S'.tokenMap = S.tokenMap) ∧
    ∀ key value : List Nat, value.length = key.length →
      ∃ S', S.insert clock key value = some (S', (S.tokenMap.matched key).length) ∧
        S'.tokenMap = S.tokenMap.extend key value := by
  obtain ⟨tree, spell, slots, hl⟩ := h.locked
  refine ⟨?_, fun key => hl.matchPrefix_refines clock key,
    fun key value hlen => hl.insert_refines clock hlen⟩
  intro q s
  rw [hl.shape.get_iff, hl.shape.maps_iff]

/-- A key that leaves an edge in its middle. -/
theorem reached_refines_parted : ∃ S, Reached (fun _ => 0) .list True S [] [] ∧
    ∃ S', S.insert (fun _ => 0) [5, 7] [9, 4] = some (S', (S.tokenMap.matched [5, 7]).length) ∧
      S'.tokenMap = S.tokenMap.extend [5, 7] [9, 4] := by
  have h₀ : Reached (fun _ => 0) .list True (reset fun _ => 0) [] [] := .reset
  have h₁ := h₀.insert (fun _ => by rfl)
    (show (reset fun _ => 0).insert (fun _ => 0) [5, 6] [9, 8] = some (_, _) from rfl)
  exact ⟨_, h₁, (reached_refines h₁).2.2 [5, 7] [9, 4] rfl⟩

end RadixCache

namespace RadixCache

/-- What the cache goes through after a match that returned `node`: further matches, inserts
and locks, and evictions while the node is locked. -/
inductive Later (clock : Nat → Rat) (heapq : Heapq) (node : Nat) (S : RadixCache)
    (locks : List Nat) : RadixCache → List Nat → Prop
  | refl : Later clock heapq node S locks S locks
  | insert {S₁ S₂ : RadixCache} {locks₁ key value : List Nat} {len : Nat}
      (h : Later clock heapq node S locks S₁ locks₁) (hlen : value.length = key.length)
      (hrun : S₁.insert clock key value = some (S₂, len)) : Later clock heapq node S locks S₂ locks₁
  | matchPrefix {S₁ S₂ : RadixCache} {locks₁ key value : List Nat} {last : Nat}
      (h : Later clock heapq node S locks S₁ locks₁)
      (hrun : S₁.matchPrefix clock key = some (S₂, value, last)) :
      Later clock heapq node S locks S₂ locks₁
  | incLockRef {S₁ S₂ : RadixCache} {locks₁ : List Nat} {n : Nat} {delta : Int}
      (h : Later clock heapq node S locks S₁ locks₁) (hin : S₁.InTree n)
      (hrun : S₁.incLockRef n = some (S₂, delta)) : Later clock heapq node S locks S₂ (n :: locks₁)
  | decLockRef {S₁ S₂ : RadixCache} {locks₁ : List Nat} {n : Nat} {delta : Int}
      (h : Later clock heapq node S locks S₁ locks₁) (hn : n ∈ locks₁)
      (hrun : S₁.decLockRef n = some (S₂, delta)) :
      Later clock heapq node S locks S₂ (locks₁.erase n)
  | evict {S₁ S₂ : RadixCache} {locks₁ : List Nat} {numTokens : Nat} {evicted : List (List Nat)}
      (h : Later clock heapq node S locks S₁ locks₁) (hlocked : 0 < (S₁.nodes node).lockRef)
      (hrun : S₁.evict heapq numTokens = some (S₂, evicted)) : Later clock heapq node S locks S₂ locks₁

variable {S S' S₁ : RadixCache} {tree : Finset Nat} {spell slots : Nat → List Nat}
  {locks locks' key value : List Nat} {node : Nat} {clock : Nat → Rat} {heapq : Heapq}

/-- The node is in the tree, at the end of this path. -/
structure AlignedWith (S : RadixCache) (locks : List Nat) (node : Nat) (ks vs : List Nat)
    (tree : Finset Nat) (spell slots : Nat → List Nat) : Prop where
  locked : S.Locked tree spell slots locks
  mem : node ∈ tree
  spell : spell node = ks
  slots : slots node = vs

theorem AlignedWith.keep {ks vs : List Nat} {tree' : Finset Nat} {spell' slots' : Nat → List Nat}
    (h : S.AlignedWith locks node ks vs tree spell slots)
    (h' : S'.Locked tree' spell' slots' locks')
    (hkeeps : Keeps tree spell slots tree' spell' slots') :
    S'.AlignedWith locks' node ks vs tree' spell' slots' where
  locked := h'
  mem := hkeeps.mem node h.mem
  spell := (hkeeps.spell node h.mem).trans h.spell
  slots := (hkeeps.slots node h.mem).trans h.slots

/-- An eviction leaves a locked node where it is. -/
theorem AlignedWith.evict {ks vs : List Nat} {numTokens : Nat} {evicted : List (List Nat)}
    (h : S.AlignedWith locks node ks vs tree spell slots) (hlocked : 0 < (S.nodes node).lockRef)
    (hrun : S.evict heapq numTokens = some (S', evicted)) :
    ∃ tree', S'.AlignedWith locks node ks vs tree' spell slots := by
  obtain ⟨S₂, removed, evicted', tree', hrun', h', hfrees⟩ := evict_frees heapq h.locked numTokens
  cases Option.some.inj (hrun.symm.trans hrun')
  refine ⟨tree', h', ?_, h.spell, h.slots⟩
  rw [← h'.shape.inTree_iff, hfrees.steps.gone.2.2, h.locked.shape.inTree_iff]
  refine ⟨h.mem, ?_⟩
  intro hremoved
  have hfree := hfrees.steps.unlocked hremoved
  omega

theorem Later.aligned {ks vs : List Nat} (hlater : Later clock heapq node S locks S' locks')
    (h : S.AlignedWith locks node ks vs tree spell slots) :
    ∃ tree' spell' slots', S'.AlignedWith locks' node ks vs tree' spell' slots' := by
  induction hlater with
  | refl => exact ⟨tree, spell, slots, h⟩
  | insert _ hlen hrun ih =>
    obtain ⟨tree₁, spell₁, slots₁, h₁⟩ := ih
    obtain ⟨S₂, len, tree₂, spell₂, slots₂, hrun', h₂, hinserted⟩ :=
      insert_spec clock h₁.locked hlen
    cases Option.some.inj (hrun.symm.trans hrun')
    exact ⟨tree₂, spell₂, slots₂, h₁.keep h₂ hinserted.keeps⟩
  | matchPrefix _ hrun ih =>
    obtain ⟨tree₁, spell₁, slots₁, h₁⟩ := ih
    obtain ⟨S₂, found, last, tree₂, spell₂, slots₂, hrun', h₂, hmap, _⟩ :=
      matchPrefix_spec clock h₁.locked _
    cases Option.some.inj (hrun.symm.trans hrun')
    exact ⟨tree₂, spell₂, slots₂, h₁.keep h₂ hmap.keeps⟩
  | incLockRef _ hin hrun ih =>
    obtain ⟨tree₁, spell₁, slots₁, h₁⟩ := ih
    obtain ⟨S₂, delta, hrun', h₂⟩ :=
      incLockRef_locked h₁.locked (h₁.locked.shape.inTree_iff.mp hin)
    cases Option.some.inj (hrun.symm.trans hrun')
    exact ⟨tree₁, spell₁, slots₁, h₁.keep h₂ .rfl⟩
  | decLockRef _ hn hrun ih =>
    obtain ⟨tree₁, spell₁, slots₁, h₁⟩ := ih
    obtain ⟨S₂, delta, hrun', h₂⟩ := decLockRef_locked h₁.locked hn
    cases Option.some.inj (hrun.symm.trans hrun')
    exact ⟨tree₁, spell₁, slots₁, h₁.keep h₂ .rfl⟩
  | evict _ hlocked hrun ih =>
    obtain ⟨tree₁, spell₁, slots₁, h₁⟩ := ih
    obtain ⟨tree₂, h₂⟩ := h₁.evict hlocked hrun
    exact ⟨tree₂, spell₁, slots₁, h₂⟩

/-- A matched prefix stays aligned with its node: the keys on the path to the node are the
prefix, and the values on it are what was matched. -/
theorem matchPrefix_aligned (h : S.Locked tree spell slots locks)
    (hmatch : S.matchPrefix clock key = some (S₁, value, node))
    (hlater : Later clock heapq node S₁ locks S' locks') :
    S'.Path node (key.take value.length) value := by
  obtain ⟨S₂, found, last, tree₁, spell₁, slots₁, hrun, h₁, _, hlast, hfound, _⟩ :=
    matchPrefix_spec clock h key
  cases Option.some.inj (hmatch.symm.trans hrun)
  have haligned : S₁.AlignedWith locks node (key.take value.length) value tree₁ spell₁ slots₁ := by
    refine ⟨h₁, hlast, ?_, ?_⟩
    · rw [hfound.spell, h.shape.root_spell, List.nil_append]
    · rw [hfound.slots, h.shape.root_slots, List.nil_append]
  obtain ⟨tree', spell', slots', h'⟩ := hlater.aligned haligned
  have hpath := h'.locked.shape.path h'.mem
  rwa [h'.spell, h'.slots] at hpath

/-- A later match cuts the path to the matched node, which still leads there. -/
theorem matchPrefix_aligned_cut : ∃ S S₁ S₂, Reached (fun _ => 0) .list True S [] [] ∧
    S.matchPrefix (fun _ => 0) [5, 6, 7] = some (S₁, [9, 8], 1) ∧
    S₁.matchPrefix (fun _ => 0) [5] = some (S₂, [9], 2) ∧ (S₂.nodes 1).parent = some 2 ∧
    S₂.Path 1 [5, 6] [9, 8] := by
  have h₀ : Reached (fun _ => 0) .list True (reset fun _ => 0) [] [] := .reset
  have h₁ := h₀.insert (fun _ => by rfl)
    (show (reset fun _ => 0).insert (fun _ => 0) [5, 6] [9, 8] = some (_, _) from rfl)
  obtain ⟨tree, spell, slots, hl⟩ := h₁.locked
  exact ⟨_, _, _, h₁, rfl, rfl, rfl, matchPrefix_aligned hl
    (show matchPrefix (fun _ => 0) _ [5, 6, 7] = some (_, [9, 8], 1) from rfl)
    (show Later (fun _ => 0) .list 1 _ [] _ [] from Later.refl.matchPrefix
      (show matchPrefix (fun _ => 0) _ [5] = some (_, [9], 2) from rfl))⟩

/-- A cache with two leaves frees the older one. -/
theorem evict_order_older : ∃ S S' removed, Reached (fun n => n) .list True S [] [] ∧
    S.evict .list 1 = some (S', [[9, 8]]) ∧ Evictions S removed S' ∧ removed.Nodup := by
  have h₀ : Reached (fun n => n) .list True (reset fun n => n) [] [] := .reset
  have h₁ := h₀.insert (fun _ => by rfl)
    (show (reset fun n => n).insert (fun n => n) [5, 6] [9, 8] = some (_, _) from rfl)
  have h₂ := h₁.insert (fun _ => by rfl)
    (show insert (fun n => n) _ [7] [4] = some (_, 0) from rfl)
  obtain ⟨tree, spell, slots, hl⟩ := h₂.locked
  obtain ⟨S', removed, evicted, hrun, hsteps, _, hnd, _⟩ := evict_order .list hl 1
  have hrun' := hrun
  rw [show evict .list _ 1 = some (_, [[9, 8]]) from rfl] at hrun'
  obtain ⟨_, rfl⟩ := Prod.mk.inj (Option.some.inj hrun')
  exact ⟨_, S', removed, h₂, hrun, hsteps, hnd⟩

end RadixCache

end FastPP
