import FastPP.RetractRadix

namespace FastPP

namespace DecodeMemory

variable {heapq : Heapq} {clock : Nat → Rat} {steps bs k : Nat} {order reqs : List DecodeReq}
  {m m' : DecodeMemory} {disable : Bool} {tree : RadixCache}

/-- The requests of a batch hold what a decode batch holds: entries of their own, or locks on
their nodes in a tree that is used with discipline. No free is delayed. -/
structure Held (clock : Nat → Rat) (heapq : Heapq) (m : DecodeMemory) (reqs : List DecodeReq) :
    Prop where
  flag : m.tokenToKVPool.isNotInFreeGroup = true
  chunk : ∀ entries, m.treeCache = .chunk entries →
    (reqs.map DecodeReq.rid).Nodup ∧ ∀ req ∈ reqs, (entries req.rid).isSome
  radix : ∀ tree, m.treeCache = .radix false tree → ∃ returned locks others,
    RadixCache.Reached clock heapq True tree returned locks ∧
      locks.Perm (reqs.map DecodeReq.lastNode ++ others)

/-- As many slots can be had from the free ones and by eviction. -/
def Obtainable (heapq : Heapq) (m : DecodeMemory) (bs : Nat) : Prop :=
  ∃ numTokens m', m.evict heapq numTokens = some m' ∧ bs ≤ m'.availableSize

/-- `check_decode_mem` says whether the slots can be had. -/
def ChecksRight (heapq : Heapq) (m : DecodeMemory) (bs : Nat) : Prop :=
  ∃ result m', m.checkDecodeMem heapq bs m.availableSize = some (result, m') ∧
    (result = true ↔ m.Obtainable heapq bs)

/-- The loop ended where it should: at the first point where the slots are enough for the
requests that stay or one request stays; and it failed with no slot left only. -/
def StopsRight (heapq : Heapq) (steps : Nat) (m : DecodeMemory) (reqs : List DecodeReq) :
    RetractEnd → Prop
  | .kept m' retracted kept =>
    (retracted ++ kept).Perm reqs ∧ (retracted ++ kept).Pairwise DecodeReq.popsBefore ∧
      (1 < reqs.length → retracted ≠ []) ∧
      retractFirst heapq steps retracted.length (retracted ++ kept) m = some m' ∧
      (kept.length = 1 ∨ kept.length * steps ≤ m'.availableSize) ∧
      ∀ j, 1 ≤ j → j < retracted.length → ∃ m₁,
        retractFirst heapq steps j (retracted ++ kept) m = some m₁ ∧
          m₁.availableSize < (reqs.length - j) * steps
  | .noSpace m' => (∃ j, retractFirst heapq steps j (popOrder reqs) m = some m') ∧
      m'.availableSize = 0

/-- `retract_decode` ends, and where it should. -/
def RetractsRight (heapq : Heapq) (steps : Nat) (m : DecodeMemory) (reqs : List DecodeReq) : Prop :=
  ∃ e, retractDecodeLoop heapq steps m reqs m.availableSize = some e ∧
    StopsRight heapq steps m reqs e

/-- What retraction gives back comes too late to matter: as long as the slots that were free
before are too few, those that could be reclaimed are too few as well. -/
structure ReclaimsLate (steps : Nat) (m : DecodeMemory) (disable : Bool) (tree : RadixCache)
    (order : List DecodeReq) : Prop where
  stop : ∀ j, 1 ≤ j → j + 1 < order.length → m.availableSize < (order.length - j) * steps →
    ∃ size, m.reclaimable disable tree (order.take j) = some size ∧
      size < ((order.length - j) * steps : Nat)
  last : 2 ≤ order.length → m.availableSize = 0 → 0 < steps →
    ∃ size, m.reclaimable disable tree (order.take (order.length - 1)) = some size ∧ size ≤ 0

theorem popsBefore_trans {a b c : DecodeReq} (hab : a.popsBefore b) (hbc : b.popsBefore c) :
    a.popsBefore c := by
  unfold DecodeReq.popsBefore at *
  omega

theorem popsBefore_total (a b : DecodeReq) : a.popsBefore b ∨ b.popsBefore a := by
  unfold DecodeReq.popsBefore
  omega

theorem popOrder_perm (reqs : List DecodeReq) : (popOrder reqs).Perm reqs :=
  (List.reverse_perm _).trans (List.mergeSort_perm _ _)

/-- The requests are popped in the order of the key. -/
theorem popOrder_sorted (reqs : List DecodeReq) :
    (popOrder reqs).Pairwise DecodeReq.popsBefore := by
  unfold popOrder
  rw [List.pairwise_reverse]
  have hsorted := @List.pairwise_mergeSort _ (fun a b : DecodeReq => decide (b.popsBefore a))
    (by
      intro a b c hab hbc
      exact decide_eq_true (popsBefore_trans (of_decide_eq_true hbc) (of_decide_eq_true hab)))
    (by
      intro a b
      rw [Bool.or_eq_true, decide_eq_true_eq, decide_eq_true_eq]
      exact popsBefore_total b a) reqs
  exact hsorted.imp fun h => of_decide_eq_true h

theorem popOrder_length (reqs : List DecodeReq) : (popOrder reqs).length = reqs.length :=
  (popOrder_perm reqs).length_eq

/-- An end that keeps requests is right when the free slots agree with the count of the loop. -/
theorem stopsRight_kept {avail : Nat → Int}
    (hpops : Pops heapq steps (popOrder reqs) true avail m k m')
    (hstop : k + 1 = (popOrder reqs).length ∨
      ¬ (avail k < (((popOrder reqs).length - k) * steps : Nat) ∨ true = true ∧ k = 0)) :
    StopsRight heapq steps m reqs (.kept m' ((popOrder reqs).take k) ((popOrder reqs).drop k)) ↔
      (k + 1 = reqs.length ∨ (reqs.length - k) * steps ≤ m'.availableSize) ∧
        ∀ j, 1 ≤ j → j < k → ∃ m₁, retractFirst heapq steps j (popOrder reqs) m = some m₁ ∧
          m₁.availableSize < (reqs.length - j) * steps := by
  have hlt := hpops.lt
  have hlen := popOrder_length reqs
  have htake : ((popOrder reqs).take k).length = k := by
    rw [List.length_take]
    omega
  have hdrop : ((popOrder reqs).drop k).length = reqs.length - k := by
    rw [List.length_drop, hlen]
  simp only [StopsRight, List.take_append_drop, htake, hdrop]
  constructor
  · rintro ⟨_, _, _, _, hroom, hfirst⟩
    refine ⟨?_, hfirst⟩
    rcases hroom with e | e
    · left
      omega
    · exact .inr e
  · rintro ⟨hroom, hfirst⟩
    refine ⟨popOrder_perm reqs, popOrder_sorted reqs, ?_, hpops.run, ?_, hfirst⟩
    · intro hmany hnil
      rw [hnil] at htake
      have hk : k = 0 := htake.symm
      rcases hstop with e | e
      · omega
      · exact e (.inr ⟨rfl, hk⟩)
    · rcases hroom with e | e
      · left
        omega
      · exact .inr e

/-- Over a `ChunkCache` the loop counts the free slots as they are. -/
theorem chunk_retractReq {entries : Nat → Option (List Nat)} {req : DecodeReq} {remaining : Nat}
    (hflag : m.tokenToKVPool.isNotInFreeGroup = true) (hcache : m.treeCache = .chunk entries)
    (hentry : (entries req.rid).isSome) :
    ∃ m', m.retractReq heapq steps req remaining m.availableSize = some (m', m'.availableSize) ∧
      m'.tokenToKVPool.isNotInFreeGroup = true ∧
      m'.treeCache = .chunk (Function.update entries req.rid none) := by
  obtain ⟨entry, hentry⟩ := Option.isSome_iff_exists.mp hentry
  obtain ⟨hflag', havail⟩ := TokenToKVPool.free_available hflag
    (m.reqToTokenPool.read req.reqPoolIdx req.seqLen)
  unfold retractReq
  rw [hcache]
  simp only [hentry, Option.bind_eq_bind, Option.bind_some, Option.pure_def]
  refine ⟨{ m.freeReq req (m.reqToTokenPool.read req.reqPoolIdx req.seqLen) with
    treeCache := .chunk (Function.update entries req.rid none) }, ?_, hflag', rfl⟩
  congr 2
  unfold availableSize freeReq
  rw [havail]
  push_cast
  rfl

theorem chunk_retractFirst {entries : Nat → Option (List Nat)}
    (hflag : m.tokenToKVPool.isNotInFreeGroup = true) (hcache : m.treeCache = .chunk entries)
    (hnodup : (order.map DecodeReq.rid).Nodup) (hentries : ∀ req ∈ order, (entries req.rid).isSome)
    {k : Nat} (hk : k ≤ order.length) :
    ∃ m' entries', retractFirst heapq steps k order m = some m' ∧
      m'.tokenToKVPool.isNotInFreeGroup = true ∧ m'.treeCache = .chunk entries' ∧
      ∀ req ∈ order.drop k, (entries' req.rid).isSome := by
  induction k generalizing m entries order with
  | zero => exact ⟨m, entries, rfl, hflag, hcache, hentries⟩
  | succ k ih =>
    cases order with
    | nil => exact absurd hk (Nat.not_succ_le_zero _)
    | cons req order =>
      obtain ⟨m₁, hreq, hflag₁, hcache₁⟩ := @chunk_retractReq heapq steps m entries req order.length
        hflag hcache (hentries req List.mem_cons_self)
      obtain ⟨hnot, hnodup⟩ := List.nodup_cons.mp (show (req.rid :: order.map _).Nodup from hnodup)
      obtain ⟨m', entries', hrest, hflag', hcache', hentries'⟩ := ih hflag₁ hcache₁ hnodup (by
        intro r hr
        have hne : r.rid ≠ req.rid := by
          intro e
          exact hnot (e ▸ List.mem_map_of_mem hr)
        rw [Function.update_of_ne hne]
        exact hentries r (List.mem_cons_of_mem _ hr)) (Nat.le_of_succ_le_succ hk)
      refine ⟨m', entries', ?_, hflag', hcache', hentries'⟩
      rw [retractFirst, retractReq_available hreq]
      exact hrest

end DecodeMemory

namespace DecodeMemory

variable {heapq : Heapq} {clock : Nat → Rat} {steps bs k : Nat} {order reqs : List DecodeReq}
  {m m' : DecodeMemory} {disable : Bool} {tree : RadixCache}

/-- The free slots after the first `j` retractions. -/
def availableAfter (heapq : Heapq) (steps : Nat) (order : List DecodeReq) (m : DecodeMemory)
    (j : Nat) : Int :=
  ((retractFirst heapq steps j order m).map availableSize).getD 0

theorem availableAfter_eq {j : Nat} (h : retractFirst heapq steps j order m = some m') :
    availableAfter heapq steps order m j = m'.availableSize := by
  unfold availableAfter
  rw [h]
  rfl

/-- Over a `ChunkCache` the rule is kept. -/
theorem chunk_retractsRight {entries : Nat → Option (List Nat)}
    (hheld : Held clock heapq m reqs) (hcache : m.treeCache = .chunk entries) (hne : reqs ≠ [])
    (steps : Nat) : RetractsRight heapq steps m reqs := by
  have hlen := popOrder_length reqs
  have hperm := popOrder_perm reqs
  obtain ⟨hnodup, hentries⟩ := hheld.chunk entries hcache
  have hfirst : ∀ {j}, j ≤ (popOrder reqs).length → ∃ m₁ entries',
      retractFirst heapq steps j (popOrder reqs) m = some m₁ ∧
        m₁.tokenToKVPool.isNotInFreeGroup = true ∧ m₁.treeCache = .chunk entries' ∧
        ∀ req ∈ (popOrder reqs).drop j, (entries' req.rid).isSome := fun hj =>
    chunk_retractFirst hheld.flag hcache ((hperm.map DecodeReq.rid).nodup_iff.mpr hnodup)
      (fun req hreq => hentries req (hperm.subset hreq)) hj
  have hpos := List.length_pos_iff.mpr hne
  obtain ⟨k, m', hpops, hloop, hstop⟩ := @retractFrom_pops (popOrder reqs) m heapq steps true
    (availableAfter heapq steps (popOrder reqs) m)
    (by intro hnil; rw [hnil, List.length_nil] at hlen; omega) (by
      intro j m₁ req hj hm₁ hreq
      obtain ⟨m₁', entries', hm₁', hflag, hcache', hentries'⟩ := hfirst (j := j) (by omega)
      cases Option.some.inj (hm₁.symm.trans hm₁')
      have hmem : req ∈ (popOrder reqs).drop j := by
        rw [List.mem_iff_getElem?]
        exact ⟨0, by rw [List.getElem?_drop]; exact hreq⟩
      obtain ⟨m₂, hm₂, _⟩ := @chunk_retractReq heapq steps m₁ entries' req
        ((popOrder reqs).length - j - 1) hflag hcache' (hentries' req hmem)
      refine ⟨m₂, ?_⟩
      rw [availableAfter_eq hm₁, hm₂, availableAfter_eq]
      rw [retractFirst_succ, hm₁, Option.bind_some, hreq, Option.bind_some,
        retractReq_available hm₂]
      rfl)
  have hstart : availableAfter heapq steps (popOrder reqs) m 0 = m.availableSize :=
    availableAfter_eq rfl
  rw [hstart, availableAfter_eq hpops.run] at hloop
  rw [availableAfter_eq hpops.run] at hstop
  refine ⟨_, hloop, ?_⟩
  unfold endAfter
  split
  next hnone => exact ⟨⟨k, hpops.run⟩, by omega⟩
  next =>
    rw [stopsRight_kept hpops (by rw [availableAfter_eq hpops.run]; exact hstop)]
    constructor
    · rcases hstop with e | e
      · left
        omega
      · right
        rw [← hlen]
        by_contra hlt
        exact e (.inl (by omega))
    · intro j hj hjk
      have hlt := hpops.lt
      obtain ⟨m₁, _, hm₁, _⟩ := hfirst (j := j) (by omega)
      refine ⟨m₁, hm₁, ?_⟩
      rcases hpops.short j hjk with e | e
      · rw [availableAfter_eq hm₁, hlen] at e
        omega
      · omega

/-- The states of the loop over a radix cache. -/
structure RadixTrace (heapq : Heapq) (steps : Nat) (m : DecodeMemory) (disable : Bool)
    (tree : RadixCache) (order : List DecodeReq) (M : Nat → DecodeMemory) : Prop where
  run : ∀ j ≤ order.length, retractFirst heapq steps j order m = some (M j)
  req : ∀ j req, j < order.length → order[j]? = some req → ∀ available,
    (M j).retractReq heapq steps req (order.length - j - 1) available = some (M (j + 1), available)
  mono : ∀ j < order.length, (M j).availableSize ≤ (M (j + 1)).availableSize
  reclaim : ∀ j ≤ order.length, m.reclaimable disable tree (order.take j) =
    some ((M j).availableSize + (M j).evictableSize)
  nonneg : ∀ j ≤ order.length, 0 ≤ (M j).evictableSize
  enough : ∀ j, 1 ≤ j → j ≤ order.length →
    (order.length - j) * steps ≤ (M j).availableSize ∨ (M j).evictableSize = 0

theorem Over.trace {S : RadixCache} {locks : List Nat} (h : Over m disable S S locks)
    (hlocks : disable = false → ∃ others, locks.Perm (order.map DecodeReq.lastNode ++ others)) :
    ∃ M, RadixTrace heapq steps m disable S order M := by
  have hfirst := fun (j : Nat) (hj : j ≤ order.length) => h.retractFirst heapq steps hj hlocks
  have hchoose : ∀ j, ∃ m₁, j ≤ order.length → DecodeMemory.retractFirst heapq steps j order m = some m₁ := by
    intro j
    by_cases hj : j ≤ order.length
    · obtain ⟨m₁, _, _, _, hrun, _⟩ := hfirst j hj
      exact ⟨m₁, fun _ => hrun⟩
    · exact ⟨m, fun hle => absurd hle hj⟩
  choose M hM using hchoose
  have hstep : ∀ j req, j < order.length → order[j]? = some req →
      (∀ available, (M j).retractReq heapq steps req (order.length - j - 1) available =
        some (M (j + 1), available)) ∧ (M j).availableSize ≤ (M (j + 1)).availableSize := by
    intro j req hj hreq
    obtain ⟨m₁, U₁, S₁, locks₁, hrun, _, hover, _, _, hleft⟩ := hfirst j hj.le
    cases Option.some.inj ((hM j hj.le).symm.trans hrun)
    have hmem : disable = false → req.lastNode ∈ locks₁ := by
      intro hd
      obtain ⟨others, hperm⟩ := hleft hd
      apply hperm.symm.subset
      apply List.mem_append_left
      apply List.mem_map_of_mem
      rw [List.mem_iff_getElem?]
      exact ⟨0, by rw [List.getElem?_drop]; exact hreq⟩
    have hall : ∀ available, (M j).retractReq heapq steps req (order.length - j - 1) available =
        some (M (j + 1), available) := by
      intro available
      obtain ⟨m₂, _, _, hm₂, _⟩ :=
        hover.retractReq heapq steps (order.length - j - 1) available hmem
      have hnext := hM (j + 1) hj
      rw [retractFirst_succ, hM j hj.le, Option.bind_some, hreq, Option.bind_some,
        retractReq_available hm₂] at hnext
      cases Option.some.inj hnext
      exact hm₂
    refine ⟨hall, ?_⟩
    obtain ⟨m₂, _, _, hm₂, _, _, _, hle, _⟩ :=
      hover.retractReq heapq steps (order.length - j - 1) 0 hmem
    cases Option.some.inj ((hall 0).symm.trans hm₂)
    exact hle
  refine ⟨M, hM, fun j req hj hreq => (hstep j req hj hreq).1, ?_, ?_, ?_, ?_⟩
  · intro j hj
    exact (hstep j _ hj (List.getElem?_eq_getElem hj)).2
  · intro j hj
    obtain ⟨m₁, U₁, S₁, locks₁, hrun, hfold, hover, hsum, _⟩ := hfirst j hj
    cases Option.some.inj ((hM j hj).symm.trans hrun)
    have hev := h.evictable_eq
    unfold reclaimable
    rw [hfold]
    simp only [Option.bind_eq_bind, Option.bind_some, Option.pure_def, Option.some.injEq]
    omega
  · intro j hj
    obtain ⟨m₁, U₁, S₁, locks₁, hrun, _, hover, _⟩ := hfirst j hj
    cases Option.some.inj ((hM j hj).symm.trans hrun)
    exact hover.evictable_nonneg
  · intro j hpos hj
    obtain ⟨m₁, U₁, S₁, locks₁, hrun, _, _, _, henough, _⟩ := hfirst j hj
    cases Option.some.inj ((hM j hj).symm.trans hrun)
    exact henough hpos

end DecodeMemory

end FastPP
