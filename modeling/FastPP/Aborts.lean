import FastPP.Stranded

namespace FastPP

/-- The request is marked to be aborted, and its next processed token finishes it. -/
def Req.AbortMarked (tokenizer : Option Tokenizer) (req : Req) : Prop :=
  req.toAbort = true ∧ ∀ token, ∃ req', req.appendToken tokenizer token = some req' ∧
    req'.finishedReason.isSome

theorem Req.abortMarked_iff (tokenizer : Option Tokenizer) (req : Req) :
    req.AbortMarked tokenizer ↔ req.toAbort = true := by
  refine ⟨fun h => h.1, fun h => ⟨h, fun token => ?_⟩⟩
  unfold appendToken checkFinished
  by_cases hfinished : req.finishedReason.isSome
  · rw [if_pos hfinished]
    exact ⟨_, rfl, hfinished⟩
  · rw [if_neg hfinished, if_pos h]
    exact ⟨_, rfl, rfl⟩

namespace Sched

variable {M : Type}

/-- Everything that `containers` lists besides the waiting queue. -/
def heldElsewhere (cfg : Config) (grammarQueues : Nat → List Nat) (S : Sched M) : List Nat :=
  reqsOf S.pendingBatch ++ (List.range cfg.ppSize).flatMap fun j =>
    reqsOf (S.stages j).runningBatch ++ (reqsOf (S.stages j).last ++
      ((S.stages j).beingChunkedReq.toList ++ grammarQueues j))

/-- All containers of requests; `grammarQueues` is `_grammar_queue`. -/
def containers (cfg : Config) (grammarQueues : Nat → List Nat) (S : Sched M) : List Nat :=
  S.waitingQueue ++ S.heldElsewhere cfg grammarQueues

/-- After the abort, each unfinished request with this rid is gone or marked to finish. -/
def AbortTakesEffect (cfg : Config) (grammarQueues : Nat → List Nat) (S : Sched M)
    (rid : Nat) : Prop :=
  ∀ q ∈ S.containers cfg grammarQueues, (S.heap q).rid = rid → (S.heap q).finished = false →
    q ∉ (S.abortRequest rid).containers cfg grammarQueues ∨
      ((S.abortRequest rid).heap q).AbortMarked cfg.tokenizer

/-- The first request with this rid in the waiting queue. -/
def abortedWaiting (S : Sched M) (rid : Nat) : Option Nat :=
  S.waitingQueue.find? fun q => decide ((S.heap q).rid = rid)

/-- The first unfinished request with this rid in the running batch of the current index. -/
def abortedRunning (S : Sched M) (rid : Nat) : Option Nat :=
  (reqsOf S.stage.runningBatch).find? fun q =>
    decide ((S.heap q).rid = rid) && !(S.heap q).finished

/-- Each unfinished request with this rid is marked already or the one that the search of
`abort_request` ends with, a waiting one being nowhere else. -/
def AbortFinds (cfg : Config) (grammarQueues : Nat → List Nat) (S : Sched M) (rid : Nat) : Prop :=
  ∀ q ∈ S.containers cfg grammarQueues, (S.heap q).rid = rid → (S.heap q).finished = false →
    (S.heap q).toAbort = true ∨
      match S.abortedWaiting rid with
      | some w => q = w ∧ (S.containers cfg grammarQueues).count q = 1
      | none => S.abortedRunning rid = some q

variable {cfg : Config} {grammarQueues : Nat → List Nat} {S : Sched M} {rid : Nat}

theorem abortRequest_waiting {w : Nat} (h : S.abortedWaiting rid = some w) :
    S.abortRequest rid = { S with waitingQueue := S.waitingQueue.erase w } := by
  unfold abortedWaiting at h
  rw [abortRequest, h]

theorem abortRequest_running {q : Nat} (hw : S.abortedWaiting rid = none)
    (h : S.abortedRunning rid = some q) :
    S.abortRequest rid = S.setReq q { S.heap q with toAbort := true } := by
  unfold abortedWaiting at hw
  unfold abortedRunning at h
  rw [abortRequest, hw]
  simp only [h]

theorem abortRequest_missed (hw : S.abortedWaiting rid = none)
    (h : S.abortedRunning rid = none) : S.abortRequest rid = S := by
  unfold abortedWaiting at hw
  unfold abortedRunning at h
  rw [abortRequest, hw]
  simp only [h]

/-- A request leaves the containers exactly when its only entry is the one deleted from the
waiting queue. -/
theorem not_mem_containers_erase {w q : Nat} (hw : w ∈ S.waitingQueue)
    (hq : q ∈ S.containers cfg grammarQueues) :
    q ∉ { S with waitingQueue := S.waitingQueue.erase w }.containers cfg grammarQueues ↔
      q = w ∧ (S.containers cfg grammarQueues).count q = 1 := by
  have hpos := List.count_pos_iff.mpr hq
  have hle := List.count_pos_iff.mpr hw
  have hcount : ({ S with waitingQueue := S.waitingQueue.erase w }.containers cfg
      grammarQueues).count q = (S.waitingQueue.erase w).count q +
        (S.heldElsewhere cfg grammarQueues).count q := List.count_append
  have hbefore : (S.containers cfg grammarQueues).count q =
      S.waitingQueue.count q + (S.heldElsewhere cfg grammarQueues).count q := List.count_append
  rw [← List.count_eq_zero, hcount]
  by_cases hsame : q = w
  · subst hsame
    rw [List.count_erase_self]
    constructor
    · intro h
      exact ⟨rfl, by omega⟩
    · rintro ⟨_, h⟩
      omega
  · rw [List.count_erase_of_ne hsame]
    constructor
    · intro h
      omega
    · rintro ⟨h, _⟩
      exact absurd h hsame

theorem abortTakesEffect_iff (cfg : Config) (grammarQueues : Nat → List Nat) (S : Sched M)
    (rid : Nat) :
    S.AbortTakesEffect cfg grammarQueues rid ↔ S.AbortFinds cfg grammarQueues rid := by
  unfold AbortTakesEffect AbortFinds
  refine forall₄_congr fun q hq _ _ => ?_
  rw [Req.abortMarked_iff]
  cases hw : S.abortedWaiting rid with
  | some w =>
    have hmem : w ∈ S.waitingQueue := List.mem_of_find?_eq_some hw
    rw [abortRequest_waiting hw, not_mem_containers_erase hmem hq]
    exact or_comm
  | none =>
    cases hr : S.abortedRunning rid with
    | some r =>
      rw [abortRequest_running hw hr]
      have hkept : ¬ q ∉ (S.setReq r { S.heap r with toAbort := true }).containers cfg
          grammarQueues := fun h => h hq
      simp only [hkept, false_or, Option.some.injEq]
      by_cases hsame : r = q
      · subst hsame
        simp [setReq]
      · simp [setReq, hsame, Ne.symm hsame]
    | none =>
      rw [abortRequest_missed hw hr]
      simp [hq]

/-- The state in which an iteration handles the message after the messages `before`. -/
def atMessage (cfg : Config) (input : StepInput) (before : List RecvReq) (S : Sched M) : Sched M :=
  { S with curPP := S.curPP.next, availableSize := input.availableSize }.processInputRequests
    cfg before

/-- In every run, the aborts that step `n` handles take effect exactly when each finds its
request. -/
theorem run_aborts_iff [MemoryPools M] (cfg : Config) (ppRank : Nat) (mem : M)
    (inputs : Nat → StepInput) (samples : Nat → Nat → Nat) (grammarQueues : Nat → List Nat)
    (n : Nat) :
    (∀ S before rid after, run cfg ppRank mem inputs samples n = some S →
      (inputs n).recvReqs = before ++ .abort rid :: after →
        (S.atMessage cfg (inputs n) before).AbortTakesEffect cfg grammarQueues rid) ↔
    (∀ S before rid after, run cfg ppRank mem inputs samples n = some S →
      (inputs n).recvReqs = before ++ .abort rid :: after →
        (S.atMessage cfg (inputs n) before).AbortFinds cfg grammarQueues rid) := by
  simp only [abortTakesEffect_iff]

theorem not_abortTakesEffect {q : Nat} (hq : q ∈ S.containers cfg grammarQueues)
    (hrid : (S.heap q).rid = rid) (hunfinished : (S.heap q).finished = false)
    (hunmarked : (S.heap q).toAbort = false) (hw : S.abortedWaiting rid = none)
    (hr : S.abortedRunning rid = none) : ¬ S.AbortTakesEffect cfg grammarQueues rid := by
  rw [abortTakesEffect_iff]
  intro h
  rcases h q hq hrid hunfinished with hmarked | hfound
  · rw [hunmarked] at hmarked
    cases hmarked
  · rw [hw, hr] at hfound
    cases hfound

end Sched

/-- One request arrives, and its abort comes at the turn of the other micro-batch. -/
def lateAbort (step : Nat) : StepInput where
  recvReqs := if step = 0 then [.generate (plainInput 1 [5] 8)]
    else if step = 3 then [.abort 1] else []
  availableSize := 100
  chunkSync := none
  tpot := 0

def unbalanced : Config := { twoRanks with enableBatchRebalancing := false }

def lateAbortRun : Nat → Option (Sched Memory) :=
  Sched.run unbalanced 0 (Memory.clear 9 100) lateAbort fun _ i => i

/-- The request decodes in micro-batch 0 when its abort is handled at the turn of
micro-batch 1, which runs nothing. -/
theorem abort_misses_running_request : ∃ S, lateAbortRun 3 = some S ∧
    (lateAbort 3).recvReqs = [] ++ .abort 1 :: [] ∧
    ¬ (S.atMessage unbalanced (lateAbort 3) []).AbortTakesEffect unbalanced (fun _ => []) 1 := by
  have hview : ((lateAbortRun 3).map fun S => S.atMessage unbalanced (lateAbort 3) []).map
      (fun S => (decide (0 ∈ S.containers unbalanced fun _ => []),
        ((S.heap 0).rid, (S.heap 0).finished, (S.heap 0).toAbort),
        (S.abortedWaiting 1, S.abortedRunning 1))) =
      some (true, (1, false, false), (none, none)) := by
    decide +kernel
  obtain ⟨S', hS', he⟩ := Option.map_eq_some_iff.mp hview
  obtain ⟨S, hS, rfl⟩ := Option.map_eq_some_iff.mp hS'
  simp only [Prod.mk.injEq, decide_eq_true_eq] at he
  obtain ⟨hmem, ⟨hrid, hunfinished, hunmarked⟩, hw, hr⟩ := he
  exact ⟨S, hS, rfl, Sched.not_abortTakesEffect hmem hrid hunfinished hunmarked hw hr⟩

end FastPP
