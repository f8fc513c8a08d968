import FastPP.Constrained.GrammarQueue
import Mathlib.Data.List.MinMax
import Mathlib.Data.List.Nodup
import Mathlib.Data.List.TakeWhile
import Mathlib.Order.Nat

namespace FastPP

section Loops

variable {γ : Type} {heap : Nat → Grammar γ} {queue reqs reqs' : List Nat}

/-- How many requests of the queue are ready before the first one that is not. -/
def readyCount (heap : Nat → Grammar γ) (queue : List Nat) : Nat :=
  (queue.takeWhile fun q => (heap q).isReady).length

/-- The requests once their futures are resolved. -/
def resolveAll (heap : Nat → Grammar γ) (reqs : List Nat) (q : Nat) : Grammar γ :=
  if q ∈ reqs then (heap q).resolved else heap q

theorem readyCount_le (heap : Nat → Grammar γ) (queue : List Nat) :
    readyCount heap queue ≤ queue.length :=
  (List.takeWhile_prefix _).length_le

theorem readyCount_congr {heap' : Nat → Grammar γ} (h : ∀ q ∈ queue, heap' q = heap q) :
    readyCount heap' queue = readyCount heap queue := by
  unfold readyCount
  induction queue with
  | nil => rfl
  | cons q queue ih =>
    have hrest := ih fun p hp => h p (List.mem_cons_of_mem q hp)
    rw [List.takeWhile_cons, List.takeWhile_cons, h q List.mem_cons_self]
    split
    next => rw [List.length_cons, List.length_cons, hrest]
    next => rfl

/-- Resolving a request keeps the requests of a queue that it is not in. -/
theorem update_kept {q : Nat} {grammar : Grammar γ} (hnotin : q ∉ queue) :
    ∀ p ∈ queue, Function.update heap q grammar p = heap p := by
  intro p hp
  have hne : p ≠ q := by
    intro hpq
    exact hnotin (hpq ▸ hp)
  exact Function.update_of_ne hne _ _

theorem resolveAll_nil (heap : Nat → Grammar γ) : resolveAll heap [] = heap := by
  funext q
  exact if_neg List.not_mem_nil

theorem resolveAll_cons {q : Nat} {ready : Bool} {grammar : γ}
    (hq : heap q = .future ready (.ok grammar)) (hnotin : q ∉ reqs) :
    resolveAll (Function.update heap q (.object grammar)) reqs = resolveAll heap (q :: reqs) := by
  funext p
  unfold resolveAll
  by_cases hp : p = q
  · subst hp
    rw [if_neg hnotin, if_pos List.mem_cons_self, Function.update_self, hq]
    rfl
  · rw [Function.update_of_ne hp]
    by_cases hmem : p ∈ reqs
    · rw [if_pos hmem, if_pos (List.mem_cons_of_mem q hmem)]
    · rw [if_neg hmem, if_neg (fun h => (List.mem_cons.mp h).elim hp hmem)]

theorem resolveAll_append (hdisjoint : reqs.Disjoint reqs') :
    resolveAll (resolveAll heap reqs) reqs' = resolveAll heap (reqs ++ reqs') := by
  funext p
  unfold resolveAll
  by_cases hp' : p ∈ reqs'
  · have hp : p ∉ reqs := fun h => hdisjoint h hp'
    rw [if_pos hp', if_neg hp, if_pos (List.mem_append_right reqs hp')]
  · rw [if_neg hp']
    by_cases hp : p ∈ reqs
    · rw [if_pos hp, if_pos (List.mem_append_left reqs' hp)]
    · rw [if_neg hp, if_neg (fun h => (List.mem_append.mp h).elim hp hp')]

/-- The first loop resolves the requests that are ready, up to the first one that is not. -/
theorem countReady_spec (hnodup : queue.Nodup) (hpending : ∀ q ∈ queue, (heap q).Pending) :
    countReady heap queue =
      (resolveAll heap (queue.take (readyCount heap queue)), .ok (readyCount heap queue)) := by
  induction queue generalizing heap with
  | nil =>
    rw [List.take_nil, resolveAll_nil]
    rfl
  | cons q queue ih =>
    obtain ⟨hnotin, hnodup⟩ := List.nodup_cons.mp hnodup
    obtain ⟨ready, grammar, hq⟩ := hpending q List.mem_cons_self
    unfold countReady readyCount
    rw [hq]
    cases ready with
    | false =>
      rw [List.takeWhile_cons_of_neg (by rw [hq]; exact Bool.false_ne_true), List.length_nil,
        List.take_zero, resolveAll_nil]
      rfl
    | true =>
      have hkept : ∀ p ∈ queue, Function.update heap q (.object grammar) p = heap p :=
        update_kept hnotin
      have hrest := ih hnodup fun p hp =>
        (hkept p hp).symm ▸ hpending p (List.mem_cons_of_mem q hp)
      rw [readyCount_congr hkept] at hrest
      rw [List.takeWhile_cons_of_pos (by rw [hq]; rfl), List.length_cons, List.take_succ_cons]
      show ((countReady (Function.update heap q (.object grammar)) queue).1,
        (countReady (Function.update heap q (.object grammar)) queue).2.map (· + 1)) = _
      rw [hrest, resolveAll_cons hq (fun h => hnotin (List.mem_of_mem_take h))]
      rfl

/-- The second loop resolves the requests of its range. -/
theorem resolveRange_spec {start count : Nat} (hnodup : queue.Nodup)
    (hbound : start + count ≤ queue.length)
    (hpending : ∀ q ∈ (queue.drop start).take count, (heap q).Pending) :
    resolveRange queue heap start count =
      (resolveAll heap ((queue.drop start).take count), .ok ()) := by
  induction count generalizing heap start with
  | zero =>
    rw [List.take_zero, resolveAll_nil]
    rfl
  | succ count ih =>
    have hlt : start < queue.length := by omega
    have hsplit : queue.drop start = queue[start] :: queue.drop (start + 1) :=
      List.drop_eq_getElem_cons hlt
    rw [hsplit, List.take_succ_cons] at hpending ⊢
    have hnotin : queue[start] ∉ (queue.drop (start + 1)).take count := by
      have hnodup' := hnodup.sublist (List.drop_sublist start queue)
      rw [hsplit] at hnodup'
      exact fun h => (List.nodup_cons.mp hnodup').1 (List.mem_of_mem_take h)
    obtain ⟨ready, grammar, hq⟩ := hpending _ List.mem_cons_self
    unfold resolveRange
    rw [List.getElem?_eq_getElem hlt]
    simp only [hq, Grammar.result, Bool.false_and, Bool.false_eq_true, if_false]
    have hkept : ∀ p ∈ (queue.drop (start + 1)).take count,
        Function.update heap queue[start] (.object grammar) p = heap p := update_kept hnotin
    have hrest := @ih (Function.update heap queue[start] (.object grammar)) (start + 1) (by omega)
      fun p hp => (hkept p hp).symm ▸ hpending p (List.mem_cons_of_mem _ hp)
    rw [hrest, resolveAll_cons hq hnotin]

end Loops

variable {γ : Type} {attr : Attribute (GrammarSched γ) (List Nat)}

namespace GrammarSched

variable {S S' : GrammarSched γ} {k : Nat}

/-- The first `k` requests of the grammar queue moved to the waiting queue. -/
structure Moved (attr : Attribute (GrammarSched γ) (List Nat)) (k : Nat) (S S' : GrammarSched γ) :
    Prop where
  le : k ≤ (attr.fget S).length
  waitingQueue : S'.waitingQueue = S.waitingQueue ++ (attr.fget S).take k
  resolved : ∀ q ∈ (attr.fget S).take k, ∃ grammar, S'.grammar q = .object grammar
  grammarQueue : attr.fget S' = (attr.fget S).drop k
  perm : (S'.waitingQueue ++ attr.fget S').Perm (S.waitingQueue ++ attr.fget S)

theorem Moved.zero (S : GrammarSched γ) : Moved attr 0 S S where
  le := Nat.zero_le _
  waitingQueue := by rw [List.take_zero, List.append_nil]
  resolved q hq := absurd hq (by rw [List.take_zero]; exact List.not_mem_nil)
  grammarQueue := by rw [List.drop_zero]
  perm := .refl _

/-- Two ways to read what moved tell the same number. -/
theorem Moved.unique {k' : Nat} (h : Moved attr k S S') (h' : Moved attr k' S S') : k = k' := by
  have hsame := congrArg List.length (h.waitingQueue.symm.trans h'.waitingQueue)
  rw [List.length_append, List.length_append, List.length_take, List.length_take] at hsame
  have hle := h.le
  have hle' := h'.le
  omega

/-- Where the rank counts no more than the group, it resolves as many as the group. -/
theorem moveReadyGrammarRequests_eq {tpSize reduced : Nat}
    (hget : attr.fget = fun S => S.grammarQueues S.cur) (hnodup : (attr.fget S).Nodup)
    (hpending : ∀ q ∈ attr.fget S, (S.grammar q).Pending)
    (hle : readyCount S.grammar (attr.fget S) ≤ reduced) (hbound : reduced ≤ (attr.fget S).length)
    (hsole : tpSize ≤ 1 → reduced = readyCount S.grammar (attr.fget S)) :
    S.moveReadyGrammarRequests attr tpSize (some reduced) =
      { S with grammar := resolveAll S.grammar ((attr.fget S).take reduced) }.moveReady attr
        reduced := by
  have hfget : ∀ heap, attr.fget { S with grammar := heap } = attr.fget S := by
    intro heap
    rw [hget]
  unfold moveReadyGrammarRequests
  rw [countReady_spec hnodup hpending]
  dsimp only
  generalize hcount : readyCount S.grammar (attr.fget S) = count at hle hsole ⊢
  split
  next =>
    have hdisjoint : ((attr.fget S).take count).Disjoint
        (((attr.fget S).drop count).take (reduced - count)) := by
      exact fun p hp hp' => List.disjoint_take_drop hnodup le_rfl hp (List.mem_of_mem_take hp')
    have hrest : ∀ p ∈ ((attr.fget S).drop count).take (reduced - count),
        (resolveAll S.grammar ((attr.fget S).take count) p).Pending := by
      intro p hp
      unfold resolveAll
      rw [if_neg (fun h => hdisjoint h hp)]
      exact hpending p (List.mem_of_mem_drop (List.mem_of_mem_take hp))
    rw [hfget, resolveRange_spec hnodup (by omega) hrest, resolveAll_append hdisjoint,
      ← List.take_add, Nat.add_sub_cancel' hle]
  next hone => rw [hsole (by omega)]

theorem moveReady_storedQueue (hbound : k ≤ (storedQueue.fget S).length)
    (hpending : ∀ q ∈ storedQueue.fget S, (S.grammar q).Pending) : ∃ S',
      { S with grammar := resolveAll S.grammar ((storedQueue.fget S).take k) }.moveReady
        storedQueue k = .returned S' ∧ Moved storedQueue k S S' := by
  have hstored : ∀ (T : GrammarSched γ) queue, storedQueue.fget
      { T with grammarQueues := Function.update T.grammarQueues T.cur queue } = queue := by
    intro T queue
    exact Function.update_self _ _ _
  refine ⟨_, rfl, hbound, rfl, ?_, hstored _ _, ?_⟩
  · intro q hq
    obtain ⟨ready, grammar, hfuture⟩ := hpending q (List.mem_of_mem_take hq)
    refine ⟨grammar, ?_⟩
    show resolveAll S.grammar ((storedQueue.fget S).take k) q = _
    unfold resolveAll
    rw [if_pos hq, hfuture]
    rfl
  · rw [hstored]
    show ((S.waitingQueue ++ (storedQueue.fget S).take k) ++ (storedQueue.fget S).drop k).Perm _
    rw [List.append_assoc, List.take_append_drop]

/-- Without a setter no call returns. -/
theorem moveReadyGrammarRequests_ne_returned (hset : attr.fset = none) (tpSize : Nat)
    (allReduce : Option Nat) :
    S.moveReadyGrammarRequests attr tpSize allReduce ≠ .returned S' := by
  have hmove : ∀ (T : GrammarSched γ) count, T.moveReady attr count ≠ .returned S' := by
    intro T count h
    unfold moveReady at h
    dsimp only at h
    rw [Attribute.assign_readOnly hset] at h
    cases h
  intro h
  unfold moveReadyGrammarRequests at h
  dsimp only at h
  split at h
  next => cases h
  next =>
    split at h
    next =>
      split at h
      next => cases h
      next =>
        split at h
        next => cases h
        next => exact hmove _ _ h
    next => exact hmove _ _ h

end GrammarSched

namespace GrammarRanks

variable {R : GrammarRanks γ} {queue : List Nat}

/-- One number of requests moved on all ranks. -/
def Drained (attr : Attribute (GrammarSched γ) (List Nat)) (R : GrammarRanks γ)
    (outcome : Nat → Nat → CallOutcome (GrammarSched γ)) : Prop :=
  ∃ k, ∀ stage < R.ppSize, ∀ rank < R.tpSize, ∃ S', outcome stage rank = .returned S' ∧
    GrammarSched.Moved attr k (R.sched stage rank) S'

/-- Every rank has the same queue of futures. -/
structure Synced (attr : Attribute (GrammarSched γ) (List Nat)) (R : GrammarRanks γ)
    (queue : List Nat) : Prop where
  same : ∀ stage < R.ppSize, ∀ rank < R.tpSize, attr.fget (R.sched stage rank) = queue
  nodup : queue.Nodup
  pending : ∀ stage < R.ppSize, ∀ rank < R.tpSize, ∀ q ∈ queue,
    ((R.sched stage rank).grammar q).Pending

/-- The largest number of ready requests that a rank of the stage sees. -/
def stageCount (R : GrammarRanks γ) (queue : List Nat) (stage : Nat) : Nat :=
  ((List.range R.tpSize).map fun rank =>
    readyCount (R.sched stage rank).grammar queue).foldr max 0

theorem mapM_some {α β : Type} {f : α → Option β} {g : α → β} {xs : List α}
    (h : ∀ x ∈ xs, f x = some (g x)) : xs.mapM f = some (xs.map g) := by
  induction xs with
  | nil => rfl
  | cons x xs ih =>
    rw [List.mapM_cons, h x List.mem_cons_self, ih fun y hy => h y (List.mem_cons_of_mem x hy)]
    rfl

theorem readyCount_le_stageCount {stage rank : Nat} (hrank : rank < R.tpSize) :
    readyCount (R.sched stage rank).grammar queue ≤ R.stageCount queue stage :=
  List.le_max_of_le' 0 (List.mem_map_of_mem (List.mem_range.mpr hrank)) le_rfl

theorem stageCount_le (R : GrammarRanks γ) (queue : List Nat) (stage : Nat) :
    R.stageCount queue stage ≤ queue.length := by
  have hall : ∀ count ∈ (List.range R.tpSize).map fun rank =>
      readyCount (R.sched stage rank).grammar queue, count ≤ queue.length := by
    intro count hcount
    obtain ⟨rank, _, rfl⟩ := List.mem_map.mp hcount
    exact readyCount_le _ queue
  exact List.max_le_of_forall_le _ _ hall

/-- The stage agrees on its largest number. -/
theorem Synced.allReduceMax (h : R.Synced attr queue) {stage : Nat} (hstage : stage < R.ppSize) :
    R.allReduceMax attr (fun _ => true) stage = some (R.stageCount queue stage) := by
  have hcounts : R.counts attr (fun _ => true) stage = some ((List.range R.tpSize).map fun rank =>
      readyCount (R.sched stage rank).grammar queue) := by
    refine mapM_some fun rank hrank => ?_
    have hlt := List.mem_range.mp hrank
    rw [if_pos rfl, h.same stage hstage rank hlt,
      countReady_spec h.nodup (h.pending stage hstage rank hlt)]
  unfold GrammarRanks.allReduceMax
  rw [hcounts]
  rfl

/-- Each rank resolves as many requests as its stage has agreed on, and then tries to move them. -/
theorem Synced.moveReady (h : R.Synced attr queue) (hget : attr.fget = fun S => S.grammarQueues S.cur)
    {stage rank : Nat} (hstage : stage < R.ppSize) (hrank : rank < R.tpSize) :
    R.moveReadyGrammarRequests attr stage rank =
      { R.sched stage rank with
        grammar := resolveAll (R.sched stage rank).grammar
          (queue.take (R.stageCount queue stage)) }.moveReady attr (R.stageCount queue stage) := by
  have hsame := h.same stage hstage rank hrank
  have hle : readyCount (R.sched stage rank).grammar queue ≤ R.stageCount queue stage :=
    readyCount_le_stageCount hrank
  have hsole : R.tpSize ≤ 1 →
      R.stageCount queue stage = readyCount (R.sched stage rank).grammar queue := by
    intro hone
    have hpos := R.tpSize_pos
    have hsize : R.tpSize = 1 := by omega
    obtain rfl : rank = 0 := by omega
    unfold stageCount
    rw [hsize]
    exact Nat.max_zero _
  unfold moveReadyGrammarRequests
  rw [h.allReduceMax hstage]
  rw [← hsame] at hle hsole ⊢
  exact GrammarSched.moveReadyGrammarRequests_eq hget (hsame ▸ h.nodup)
    (hsame ▸ h.pending stage hstage rank hrank) hle (hsame ▸ R.stageCount_le _ stage) hsole

/-- Without a setter the call raises with the requests in both queues. -/
theorem Synced.raises (h : R.Synced grammarQueue queue) {stage rank : Nat}
    (hstage : stage < R.ppSize) (hrank : rank < R.tpSize) :
    ∃ S', R.moveReadyGrammarRequests grammarQueue stage rank = .raised .attributeError S' ∧
      S'.waitingQueue =
        (R.sched stage rank).waitingQueue ++ queue.take (R.stageCount queue stage) ∧
      grammarQueue.fget S' = queue := by
  have hsame := h.same stage hstage rank hrank
  rw [h.moveReady rfl hstage hrank]
  unfold GrammarSched.moveReady
  dsimp only
  rw [Attribute.assign_readOnly rfl]
  refine ⟨_, rfl, ?_, hsame⟩
  rw [← hsame]
  rfl

/-- With the setter that the other lists of the micro-batches have, the call moves one number of
requests if and only if the stages agree. -/
theorem Synced.drained_iff (h : R.Synced storedQueue queue) :
    R.Drained storedQueue (R.moveReadyGrammarRequests storedQueue) ↔
      ∀ stage < R.ppSize, R.stageCount queue stage = R.stageCount queue 0 := by
  have hmoved : ∀ stage < R.ppSize, ∀ rank < R.tpSize, ∃ S',
      R.moveReadyGrammarRequests storedQueue stage rank = .returned S' ∧
        GrammarSched.Moved storedQueue (R.stageCount queue stage) (R.sched stage rank) S' := by
    intro stage hstage rank hrank
    have hsame := h.same stage hstage rank hrank
    rw [h.moveReady rfl hstage hrank, ← hsame]
    exact GrammarSched.moveReady_storedQueue (hsame ▸ R.stageCount_le _ stage)
      (hsame ▸ h.pending stage hstage rank hrank)
  constructor
  · intro ⟨k, hk⟩ stage hstage
    obtain ⟨S', hout, hmove⟩ := hk stage hstage 0 R.tpSize_pos
    obtain ⟨S₀, hout₀, hmove₀⟩ := hk 0 R.ppSize_pos 0 R.tpSize_pos
    obtain ⟨T, hreturn, hcount⟩ := hmoved stage hstage 0 R.tpSize_pos
    obtain ⟨T₀, hreturn₀, hcount₀⟩ := hmoved 0 R.ppSize_pos 0 R.tpSize_pos
    obtain rfl := CallOutcome.returned.inj (hout.symm.trans hreturn)
    obtain rfl := CallOutcome.returned.inj (hout₀.symm.trans hreturn₀)
    exact (hcount.unique hmove).trans (hmove₀.unique hcount₀)
  · intro hagree
    refine ⟨R.stageCount queue 0, fun stage hstage rank hrank => ?_⟩
    rw [← hagree stage hstage]
    exact hmoved stage hstage rank hrank

/-- No call of `move_ready_grammar_requests` returns; a scheduling step returns where no rank has
a request in its grammar queue. -/
theorem grammarQueue_drained_iff (R : GrammarRanks γ) :
    ¬ R.Drained grammarQueue (R.moveReadyGrammarRequests grammarQueue) ∧
      (R.Drained grammarQueue (R.checkGrammarQueue grammarQueue) ↔
        ∀ stage < R.ppSize, ∀ rank < R.tpSize, grammarQueue.fget (R.sched stage rank) = []) := by
  refine ⟨?_, ?_, ?_⟩
  · intro ⟨k, hk⟩
    obtain ⟨S', hout, _⟩ := hk 0 R.ppSize_pos 0 R.tpSize_pos
    exact GrammarSched.moveReadyGrammarRequests_ne_returned rfl _ _ hout
  · intro ⟨k, hk⟩ stage hstage rank hrank
    obtain ⟨S', hout, _⟩ := hk stage hstage rank hrank
    unfold checkGrammarQueue at hout
    split at hout
    next => exact absurd hout (GrammarSched.moveReadyGrammarRequests_ne_returned rfl _ _)
    next hcalls => simpa [calls] using hcalls
  · intro hempty
    refine ⟨0, fun stage hstage rank hrank => ⟨_, if_neg ?_, .zero _⟩⟩
    unfold calls
    rw [hempty stage hstage rank hrank]
    exact Bool.false_ne_true

end GrammarRanks

/-- One scheduler, with one request whose grammar is ready. -/
def oneReady : GrammarRanks Unit where
  ppSize := 1
  tpSize := 1
  ppSize_pos := Nat.one_pos
  tpSize_pos := Nat.one_pos
  sched _ _ := ⟨fun _ => .future true (.ok ()), [], fun _ => [7], 0⟩

theorem not_drained_oneReady :
    ¬ oneReady.Drained grammarQueue (oneReady.moveReadyGrammarRequests grammarQueue) := by
  intro ⟨k, hk⟩
  obtain ⟨S', hout, _⟩ := hk 0 Nat.one_pos 0 Nat.one_pos
  cases hout

end FastPP
