import FastPP.RebalanceLaw
import Mathlib.Algebra.BigOperators.Group.List.Basic
import Mathlib.Tactic.Linarith
import Mathlib.Tactic.Ring

namespace FastPP

/-- The tokens that a request holds at a time of the simulation: it decodes one token in each
step until none is left, and then frees the tokens it occupied and those it decoded. -/
def heldTokens (time : Rat) (state : Rat × Nat) : Rat :=
  min time state.1 - if state.1 < time then state.2 + state.1 else 0

/-- The same, with nothing freed but the tokens it occupied. -/
def heldDecoded (time : Rat) (state : Rat × Nat) : Rat :=
  min time state.1 - if state.1 < time then state.2 else 0

/-- At no time before all requests are finished do they hold more than there is. -/
def NeverExceeds (held : Rat → Rat × Nat → Rat) (available : Rat) (states : List (Rat × Nat)) :
    Prop :=
  ∀ time, (∃ s ∈ states, time ≤ s.1) → (states.map (held time)).sum ≤ available

/-- `req_states` is sorted by the tokens left. -/
def SortedStates (states : List (Rat × Nat)) : Prop := states.Pairwise fun a b => a.1 ≤ b.1

theorem heldTokens_finished {time : Rat} {state : Rat × Nat} (h : state.1 < time) :
    heldTokens time state = -state.2 := by
  unfold heldTokens
  rw [min_eq_right h.le, if_pos h]
  ring

theorem heldTokens_unfinished {time : Rat} {state : Rat × Nat} (h : time ≤ state.1) :
    heldTokens time state = time := by
  unfold heldTokens
  rw [min_eq_left h, if_neg (not_lt.mpr h), sub_zero]

/-- While nobody is finished everybody holds a token for each step. -/
theorem sum_unfinished {time : Rat} {states : List (Rat × Nat)} (h : ∀ s ∈ states, time ≤ s.1) :
    (states.map (heldTokens time)).sum = states.length * time := by
  have hconst : states.map (heldTokens time) = states.map fun _ => time := by
    apply List.map_congr_left
    intro s hs
    exact heldTokens_unfinished (h s hs)
  rw [hconst, List.map_const', List.sum_replicate, nsmul_eq_mul]

/-- A sweep that does not run out covers the simulation. -/
theorem sum_le_of_runsOut {cur freed time : Rat} {states : List (Rat × Nat)}
    (hsorted : SortedStates states) (h : PrefillAdder.runsOut cur states freed = false)
    (hopen : ∃ s ∈ states, time ≤ s.1) : (states.map (heldTokens time)).sum ≤ cur + freed := by
  induction states generalizing freed with
  | nil =>
    obtain ⟨s, hs, _⟩ := hopen
    cases hs
  | cons state rest ih =>
    obtain ⟨tokensLeft, tokensOccupied⟩ := state
    obtain ⟨hfirst, hrest⟩ := List.pairwise_cons.mp hsorted
    unfold PrefillAdder.runsOut at h
    dsimp only at h
    split at h
    next => cases h
    next hroom =>
      by_cases hdone : tokensLeft < time
      · -- the first request is finished, the others go on with what it freed
        have hopen' : ∃ s ∈ rest, time ≤ s.1 := by
          obtain ⟨s, hs, htime⟩ := hopen
          rcases List.mem_cons.mp hs with rfl | hs
          · exact absurd hdone (not_lt.mpr htime)
          · exact ⟨s, hs, htime⟩
        have hsum := ih hrest h hopen'
        rw [List.map_cons, List.sum_cons, heldTokens_finished hdone]
        linarith
      · -- nobody is finished: the steps up to the next request's end are paid for
        have htime : time ≤ tokensLeft := not_lt.mp hdone
        have hall : ∀ s ∈ (tokensLeft, tokensOccupied) :: rest, time ≤ s.1 := by
          intro s hs
          rcases List.mem_cons.mp hs with rfl | hs
          · exact htime
          · exact htime.trans (hfirst s hs)
        rw [sum_unfinished hall]
        have hsteps : time ≤ (rest.head?.map (·.1)).getD tokensLeft := by
          cases rest with
          | nil => exact htime
          | cons s rest => exact htime.trans (hfirst s List.mem_cons_self)
        have hpaid : (((tokensLeft, tokensOccupied) :: rest).length : Rat) * time ≤
            (rest.head?.map (·.1)).getD tokensLeft * ((rest.length + 1 : Nat) : Rat) := by
          rw [List.length_cons, mul_comm]
          exact mul_le_mul_of_nonneg_right hsteps (Nat.cast_nonneg _)
        have hle := not_le.mp hroom
        linarith

namespace PrefillAdder

/-- The pair goes before the first one that is at least as large, if there is one. -/
theorem insertState_sorted {state : Rat × Nat} {states : List (Rat × Nat)}
    (hsorted : SortedStates states) (hinside : states = [] ∨ ∃ s ∈ states, state.1 ≤ s.1) :
    SortedStates (insertState state states) := by
  rcases hinside with rfl | ⟨s, hs, hle⟩
  · exact List.pairwise_singleton _ _
  · unfold insertState
    cases hfind : states.findIdx? fun s => decide (state.1 ≤ s.1) with
    | none =>
      have hnone := List.findIdx?_eq_none_iff.mp hfind s hs
      simp [hle] at hnone
    | some i =>
      obtain ⟨hi, hat, hbefore⟩ := List.findIdx?_eq_some_iff_getElem.mp hfind
      have hsplit : SortedStates (states.take i ++ states.drop i) := by
        rwa [List.take_append_drop]
      obtain ⟨htake, hdrop, hcross⟩ := List.pairwise_append.mp hsplit
      show List.Pairwise _ (states.take i ++ state :: states.drop i)
      apply List.pairwise_append.mpr
      refine ⟨htake, List.pairwise_cons.mpr ⟨?_, hdrop⟩, ?_⟩
      · -- what follows is not smaller than the entry that was found
        intro b hb
        rw [List.drop_eq_getElem_cons hi] at hb hdrop
        rcases List.mem_cons.mp hb with rfl | hb
        · simpa using hat
        · exact (of_decide_eq_true hat).trans ((List.pairwise_cons.mp hdrop).1 b hb)
      · intro a ha b hb
        rcases List.mem_cons.mp hb with rfl | hb
        · obtain ⟨j, hj, rfl⟩ := List.mem_iff_getElem.mp ha
          rw [List.length_take] at hj
          rw [List.getElem_take]
          have hsmall := hbefore j (by omega)
          simp only [decide_eq_true_eq, not_le] at hsmall
          exact hsmall.le
        · exact hcross a ha b hb

/-- The new pair, if any, is not larger than every pair that is there. -/
def InsertsInside (cfg : Config) (adder : PrefillAdder) (req : Req) : Prop :=
  ∀ states state, adder.reqStates = some states → adder.reqState cfg req = some state →
    states = [] ∨ ∃ s ∈ states, state.1 ≤ s.1

/-- What `add_one_req_ignore_eos_safe` makes of a new adder; what is done between its calls
leaves `req_states` alone. -/
inductive EosRun (cfg : Config) : PrefillAdder → Prop
  | init {adder : PrefillAdder} (new : adder.reqStates = none) : EosRun cfg adder
  | call {adder : PrefillAdder} {heap : Nat → Req} {q : Nat} {req : Req} (run : EosRun cfg adder)
      (inside : adder.InsertsInside cfg req) :
      EosRun cfg (adder.addOneReqIgnoreEosSafe cfg heap q req).2.1
  | other {adder adder' : PrefillAdder} (run : EosRun cfg adder)
      (same : adder'.reqStates = adder.reqStates) : EosRun cfg adder'

variable {cfg : Config} {heap : Nat → Req} {adder : PrefillAdder} {q : Nat} {req : Req}

theorem addOrTruncate_reqStates (cfg : Config) (adder : PrefillAdder) (q : Nat) (req : Req)
    (whole : Bool) : (adder.addOrTruncate cfg q req whole).2.1.reqStates = adder.reqStates := by
  unfold addOrTruncate
  split
  next => rfl
  next =>
    dsimp only
    split <;> rfl

/-- A call leaves the states of its own sweep, and admits only if these did not run out. -/
theorem addOneReqIgnoreEosSafe_states (cfg : Config) (heap : Nat → Req) (adder : PrefillAdder)
    (q : Nat) (req : Req) :
    (adder.addOneReqIgnoreEosSafe cfg heap q req).2.1.reqStates =
        some (adder.nextReqStates cfg heap req) ∧
      ((adder.addOneReqIgnoreEosSafe cfg heap q req).2.1.canRunList ≠ adder.canRunList →
        runsOut (adder.curRemTokens - req.originInputIds.length : Int)
          (adder.nextReqStates cfg heap req) 0 = false) := by
  unfold addOneReqIgnoreEosSafe
  dsimp only
  split
  next => exact ⟨rfl, fun h => absurd rfl h⟩
  next hroom =>
    refine ⟨addOrTruncate_reqStates cfg _ q req _, ?_⟩
    intro _
    simpa using hroom

theorem nextReqStates_sorted (heap : Nat → Req)
    (hsorted : ∀ states, adder.reqStates = some states → SortedStates states)
    (hinside : adder.InsertsInside cfg req) : SortedStates (adder.nextReqStates cfg heap req) := by
  unfold nextReqStates
  split
  next =>
    have hsort := @List.pairwise_mergeSort _ (fun a b : Rat × Nat => decide (a.1 ≤ b.1))
      (fun a b c hab hbc => decide_eq_true ((of_decide_eq_true hab).trans (of_decide_eq_true hbc)))
      (fun a b => by simpa using le_total a.1 b.1)
      ((req :: adder.runningReqs.map heap ++ adder.canRunList.map heap).filterMap
        (adder.reqState cfg))
    exact hsort.imp fun h => of_decide_eq_true h
  next states hstates =>
    split
    next state hstate =>
      exact insertState_sorted (hsorted states hstates) (hinside states state hstates hstate)
    next => exact hsorted states hstates

theorem EosRun.sorted (h : EosRun cfg adder) :
    ∀ states, adder.reqStates = some states → SortedStates states := by
  induction h with
  | init new =>
    intro states hstates
    rw [new] at hstates
    cases hstates
  | @call adder heap q req _ inside ih =>
    intro states hstates
    rw [(addOneReqIgnoreEosSafe_states cfg heap adder q req).1] at hstates
    obtain rfl := Option.some.inj hstates
    exact nextReqStates_sorted heap ih inside
  | other _ same ih =>
    intro states hstates
    exact ih states (same ▸ hstates)

/-- As long as no pair is inserted that is larger than all, `req_states` is sorted, and a
request is admitted only if the simulation of all requests never runs out of tokens. -/
theorem ignoreEos_sound (h : EosRun cfg adder) (hinside : adder.InsertsInside cfg req) :
    ∃ states, (adder.addOneReqIgnoreEosSafe cfg heap q req).2.1.reqStates = some states ∧
      SortedStates states ∧
      ((adder.addOneReqIgnoreEosSafe cfg heap q req).2.1.canRunList ≠ adder.canRunList →
        NeverExceeds heldTokens (adder.curRemTokens - req.originInputIds.length : Int) states) := by
  obtain ⟨hstates, hadmits⟩ := addOneReqIgnoreEosSafe_states cfg heap adder q req
  have hsorted := nextReqStates_sorted heap h.sorted hinside
  refine ⟨_, hstates, hsorted, ?_⟩
  intro hadmitted time hopen
  have hsum := sum_le_of_runsOut hsorted (hadmits hadmitted) hopen
  rwa [add_zero] at hsum

/-- Requests of one prompt token: 0 and 5 are new, the others run and have a token each. -/
def eosHeap (q : Nat) : Req :=
  { Req.blank with
    originInputIds := [7]
    samplingParams := { Req.blank.samplingParams with
      maxNewTokens := if q = 0 then 10 else if q = 5 then 5 else if q = 4 then 21 else 11
      ignoreEos := true }
    outputIds := if q = 0 ∨ q = 5 then [] else [7]
    outputIdsLen := if q = 0 ∨ q = 5 then 0 else 1
    extendInputLen := 1 }

/-- An adder with the four requests running. -/
def eosAdder (room : Nat) : PrefillAdder where
  runningReqs := [1, 2, 3, 4]
  newTokenRatio := 1
  remTotalTokens := room
  remInputTokens := 100
  remChunkTokens := none
  curRemTokens := room
  reqStates := none
  canRunList := []
  newBeingChunkedReq := none

def soleEos : Config := { twoRanks with ppSize := 1 }

theorem eosHeap_state (adder : PrefillAdder) (q : Nat) :
    adder.reqState soleEos (eosHeap q) = if q = 0 then some (10, 1) else
      if q = 5 then some (5, 1) else if q = 4 then some (20, 2) else some (10, 2) := by
  unfold reqState eosHeap soleEos
  by_cases h0 : q = 0
  · simp [h0]
  · by_cases h5 : q = 5
    · simp [h5]
    · by_cases h4 : q = 4
      · simp [h4]
        norm_num
      · simp [h0, h5, h4]
        norm_num

theorem eosAdder_states (room : Nat) : (eosAdder room).nextReqStates soleEos eosHeap (eosHeap 0) =
    [(10, 1), (10, 2), (10, 2), (10, 2), (20, 2)] := by
  have hmap : [eosHeap 0, eosHeap 1, eosHeap 2, eosHeap 3, eosHeap 4].filterMap
      ((eosAdder room).reqState soleEos) = [(10, 1), (10, 2), (10, 2), (10, 2), (20, 2)] := by
    simp [eosHeap_state]
  show List.mergeSort ([eosHeap 0, eosHeap 1, eosHeap 2, eosHeap 3, eosHeap 4].filterMap _) _ = _
  rw [hmap]
  apply List.mergeSort_of_pairwise
  decide +kernel

/-- The call for request 0. -/
def eosFirst (room : Nat) : PrefillAdder :=
  ((eosAdder room).addOneReqIgnoreEosSafe soleEos eosHeap 0 (eosHeap 0)).2.1

theorem eosFirst_states (room : Nat) :
    (eosFirst room).reqStates = some [(10, 1), (10, 2), (10, 2), (10, 2), (20, 2)] := by
  rw [eosFirst, (addOneReqIgnoreEosSafe_states soleEos eosHeap (eosAdder room) 0 _).1,
    eosAdder_states]

theorem eosFirst_admits {room : Nat} (h : room = 52 ∨ room = 70) :
    (eosFirst room).canRunList = [0] ∧ (eosFirst room).curRemTokens = room - 1 ∧
      (eosFirst room).remChunkTokens = none := by
  unfold eosFirst addOneReqIgnoreEosSafe
  dsimp only
  rw [eosAdder_states, if_neg (by rcases h with rfl | rfl <;> decide +kernel)]
  exact ⟨rfl, rfl, rfl⟩

/-- The states are sorted and the request is admitted; but with nothing freed except the
tokens that were occupied, the five need 60 tokens and have 58. -/
theorem decoded_tokens_exceed : ∃ states,
    EosRun soleEos (eosAdder 52) ∧ (eosAdder 52).InsertsInside soleEos (eosHeap 0) ∧
      ((eosAdder 52).addOneReqIgnoreEosSafe soleEos eosHeap 0 (eosHeap 0)).2.1.reqStates =
        some states ∧
      ((eosAdder 52).addOneReqIgnoreEosSafe soleEos eosHeap 0 (eosHeap 0)).2.1.canRunList ≠
        (eosAdder 52).canRunList ∧ SortedStates states ∧
      ¬ NeverExceeds heldDecoded ((eosAdder 52).curRemTokens -
        (eosHeap 0).originInputIds.length : Int) states := by
  refine ⟨_, .init rfl, ?_, eosFirst_states 52, ?_, ?_, ?_⟩
  · intro states state hsome
    cases hsome
  · rw [← eosFirst, (eosFirst_admits (.inl rfl)).1]
    exact List.cons_ne_nil _ _
  · unfold SortedStates
    decide +kernel
  · intro hle
    exact absurd (hle 20 ⟨(20, 2), by simp, le_rfl⟩) (by decide +kernel)

/-- A second request with less to decode goes before the five. -/
theorem ignoreEos_sound_inserted : ∃ states,
    ((eosFirst 70).addOneReqIgnoreEosSafe soleEos eosHeap 5 (eosHeap 5)).2.1.reqStates =
        some ((5, 1) :: states) ∧
      SortedStates ((5, 1) :: states) ∧ NeverExceeds heldTokens (68 : Int) ((5, 1) :: states) := by
  have hinside : (eosFirst 70).InsertsInside soleEos (eosHeap 5) := by
    intro states state hstates hstate
    rw [eosFirst_states] at hstates
    rw [eosHeap_state] at hstate
    obtain rfl := Option.some.inj hstates
    obtain rfl := Option.some.inj hstate
    exact .inr ⟨(10, 1), List.mem_cons_self, by decide +kernel⟩
  obtain ⟨hlist, hroom, hchunk⟩ := eosFirst_admits (.inr rfl)
  obtain ⟨states, hstates, hsorted, hadmits⟩ :=
    @ignoreEos_sound soleEos eosHeap (eosFirst 70) 5 (eosHeap 5)
      (.call (.init rfl) fun _ _ hsome => by cases hsome) hinside
  have hnext : (eosFirst 70).nextReqStates soleEos eosHeap (eosHeap 5) =
      (5, 1) :: [(10, 1), (10, 2), (10, 2), (10, 2), (20, 2)] := by
    unfold nextReqStates
    rw [eosFirst_states, eosHeap_state]
    decide +kernel
  have hadmitted : ((eosFirst 70).addOneReqIgnoreEosSafe soleEos eosHeap 5
      (eosHeap 5)).2.1.canRunList = [0, 5] := by
    unfold addOneReqIgnoreEosSafe
    dsimp only
    rw [hnext, hroom, hchunk, hlist, if_neg (by decide +kernel)]
    rfl
  rw [(addOneReqIgnoreEosSafe_states soleEos eosHeap (eosFirst 70) 5 _).1, hnext] at hstates
  obtain rfl := Option.some.inj hstates
  refine ⟨_, ?_, hsorted, ?_⟩
  · rw [(addOneReqIgnoreEosSafe_states soleEos eosHeap (eosFirst 70) 5 _).1, hnext]
  · have hnever := hadmits (by rw [hadmitted, hlist]; decide)
    rw [hroom] at hnever
    exact hnever

end PrefillAdder

end FastPP
