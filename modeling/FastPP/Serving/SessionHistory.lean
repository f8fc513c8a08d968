import FastPP.Batch
import FastPP.State
import Mathlib.Data.List.DropRight

namespace FastPP

/-- A request of a session; `sampling_params.max_new_tokens` may still be `None`, and the image
inputs are kept by name. -/
structure SessionReq where
  rid : String
  originInputIds : List Nat
  originInputIdsUnpadded : List Nat
  outputIds : List Nat
  samplingParams : SamplingParams
  maxNewTokens : Option Nat
  loraPath : Option String
  sessionId : String
  imageInputs : Option Nat
  finishedReason : Option FinishReason
  deriving DecidableEq

/-- What `create_req` reads of a `TokenizedGenerateReqInput`. -/
structure SessionInput where
  rid : String
  inputIds : List Nat
  samplingParams : SamplingParams
  maxNewTokens : Option Nat
  loraPath : Option String
  sessionRid : Option String
  deriving DecidableEq

structure Session where
  sessionId : String
  capacityOfStrLen : Nat
  reqs : List SessionReq
  deriving DecidableEq

namespace SessionReq

/-- `output_ids[: max_new_tokens]`. -/
def keptOutputIds (req : SessionReq) : List Nat :=
  match req.maxNewTokens with
  | some n => req.outputIds.take n
  | none => req.outputIds

/-- `Req.__init__` with the arguments that `create_req` passes. -/
def new (session : Session) (input : SessionInput) (inputIds inputIdsUnpadded : List Nat) :
    SessionReq where
  rid := input.rid
  originInputIds := inputIds
  originInputIdsUnpadded := inputIdsUnpadded
  outputIds := []
  samplingParams := input.samplingParams
  maxNewTokens := input.maxNewTokens
  loraPath := input.loraPath
  sessionId := session.sessionId
  imageInputs := none
  finishedReason := none

/-- The request after `last`: its ids, the outputs kept, and the new ids. -/
def continuing (session : Session) (input : SessionInput) (last : SessionReq) : SessionReq :=
  { new session input (last.originInputIds ++ last.keptOutputIds ++ input.inputIds)
      (last.originInputIdsUnpadded ++ last.keptOutputIds ++ input.inputIds) with
    imageInputs := last.imageInputs }

end SessionReq

namespace Session

/-- `Session.__init__`. -/
def new (sessionId : String) (capacityOfStrLen : Nat) : Session := ⟨sessionId, capacityOfStrLen, []⟩

/-- The first part of `create_req`: the requests are popped until the last one is the named one. -/
def truncated (session : Session) (input : SessionInput) : Session :=
  match input.sessionRid with
  | some rid => { session with
      reqs := session.reqs.rdropWhile fun req => decide (req.rid ≠ rid) }
  | none => { session with reqs := [] }

def abortReason (rid : String) : FinishReason :=
  .abort ("Invalid request: requested session rid " ++ rid ++
    " does not exist in the session history")

/-- `Session.create_req`; the tokenizer is handed on. -/
def createReq (session : Session) (input : SessionInput) : Session × SessionReq :=
  let session := session.truncated input
  let newReq := match session.reqs.getLast? with
    | some last => SessionReq.continuing session input last
    | none => SessionReq.new session input input.inputIds input.inputIds
  match input.sessionRid, session.reqs with
  | some rid, [] => (session, { newReq with finishedReason := some (abortReason rid) })
  | _, reqs => ({ session with reqs := reqs ++ [newReq] }, newReq)

/-- What happens to a session: a call of `create_req`, or the processing of its requests, which
may change all of them but for their rid. -/
inductive Event
  | createReq (input : SessionInput)
  | process (update : Nat → SessionReq → SessionReq) (rid : ∀ i req, (update i req).rid = req.rid)

def after (session : Session) : Event → Session
  | .createReq input => (session.createReq input).1
  | .process update _ => { session with reqs := session.reqs.mapIdx update }

end Session

namespace Session

variable {session : Session} {input : SessionInput} {rid : String}

/-- The call names a request of the history. -/
def Names (session : Session) (rid : String) : Prop := ∃ req ∈ session.reqs, req.rid = rid

/-- What a call is to do to the history. -/
structure Branches (session : Session) (input : SessionInput) (session' : Session)
    (newReq : SessionReq) : Prop where
  continues : ∀ rid, input.sessionRid = some rid → session.Names rid →
    ∃ before last after, session.reqs = before ++ last :: after ∧ last.rid = rid ∧
      (∀ req ∈ after, req.rid ≠ rid) ∧
      session'.reqs = before ++ [last, newReq] ∧ newReq.finishedReason = none ∧
      newReq.originInputIds = last.originInputIds ++ last.keptOutputIds ++ input.inputIds
  restarts : input.sessionRid = none →
    session'.reqs = [newReq] ∧ newReq.finishedReason = none ∧
      newReq.originInputIds = input.inputIds
  aborts : ∀ rid, input.sessionRid = some rid → ¬ session.Names rid →
    session'.reqs = session.reqs ∧ newReq.finishedReason = some (abortReason rid)

/-- The calls that find the request they name, name none, or find no history. -/
def Found (session : Session) (input : SessionInput) : Prop :=
  ∀ rid, input.sessionRid = some rid → session.Names rid ∨ session.reqs = []

/-- The loop ends at the last request with the rid. -/
theorem truncated_of_names (hinput : input.sessionRid = some rid) (h : session.Names rid) :
    ∃ before last after, session.reqs = before ++ last :: after ∧ last.rid = rid ∧
      (∀ req ∈ after, req.rid ≠ rid) ∧ (session.truncated input).reqs = before ++ [last] := by
  have hreqs : (session.truncated input).reqs =
      session.reqs.rdropWhile fun req => decide (req.rid ≠ rid) := by
    unfold truncated
    rw [hinput]
  have hne : session.reqs.rdropWhile (fun req => decide (req.rid ≠ rid)) ≠ [] := by
    intro hnil
    obtain ⟨req, hreq, hrid⟩ := h
    have hother := List.rdropWhile_eq_nil_iff.mp hnil req hreq
    exact of_decide_eq_true hother hrid
  have hlast := List.rdropWhile_last_not (p := fun req : SessionReq => decide (req.rid ≠ rid)) _ hne
  have hsplit := List.rdropWhile_append_rtakeWhile (p := fun req : SessionReq =>
    decide (req.rid ≠ rid)) (l := session.reqs)
  refine ⟨_, _, session.reqs.rtakeWhile fun req => decide (req.rid ≠ rid), ?_, ?_, ?_,
    hreqs.trans (List.dropLast_append_getLast hne).symm⟩
  · rw [← List.singleton_append, ← List.append_assoc, List.dropLast_append_getLast hne, hsplit]
  · simpa using hlast
  · intro req hreq
    have hother := List.mem_rtakeWhile_imp (p := fun req : SessionReq => decide (req.rid ≠ rid)) hreq
    exact of_decide_eq_true hother

/-- Where the rid is not found the loop pops all requests. -/
theorem truncated_of_not_names (hinput : input.sessionRid = some rid) (h : ¬ session.Names rid) :
    (session.truncated input).reqs = [] := by
  unfold truncated
  rw [hinput]
  apply List.rdropWhile_eq_nil_iff.mpr
  intro req hreq
  exact decide_eq_true fun hrid => h ⟨req, hreq, hrid⟩

theorem createReq_continues {before : List SessionReq} {last : SessionReq}
    (h : (session.truncated input).reqs = before ++ [last]) :
    let newReq := SessionReq.continuing (session.truncated input) input last
    (session.createReq input).1.reqs = before ++ [last, newReq] ∧
      (session.createReq input).2 = newReq := by
  have hlast : (session.truncated input).reqs.getLast? = some last := by
    rw [h, List.getLast?_concat]
  unfold createReq
  dsimp only
  rw [hlast]
  split
  next hnil =>
    rw [h] at hnil
    exact absurd hnil (by simp)
  next =>
    rw [h]
    exact ⟨by simp, rfl⟩

theorem createReq_restarts (session : Session) (hinput : input.sessionRid = none) :
    let newReq := SessionReq.new (session.truncated input) input input.inputIds input.inputIds
    (session.createReq input).1.reqs = [newReq] ∧ (session.createReq input).2 = newReq := by
  have hnil : (session.truncated input).reqs = [] := by
    unfold truncated
    rw [hinput]
  unfold createReq
  dsimp only
  rw [hnil, hinput]
  exact ⟨rfl, rfl⟩

theorem createReq_aborts (hinput : input.sessionRid = some rid) (h : ¬ session.Names rid) :
    (session.createReq input).1.reqs = [] ∧
      (session.createReq input).2.finishedReason = some (abortReason rid) := by
  have hnil := truncated_of_not_names hinput h
  unfold createReq
  dsimp only
  rw [hnil, hinput]
  exact ⟨hnil, rfl⟩

/-- A call does what it should exactly if it does not miss a request in a history that has some. -/
theorem branches_iff (session : Session) (input : SessionInput) :
    session.Branches input (session.createReq input).1 (session.createReq input).2 ↔
      session.Found input := by
  constructor
  · intro h rid hinput
    by_cases hnames : session.Names rid
    · exact .inl hnames
    · obtain ⟨hkept, _⟩ := h.aborts rid hinput hnames
      exact .inr (hkept.symm.trans (createReq_aborts hinput hnames).1)
  · intro hfound
    refine ⟨fun rid hinput hnames => ?_, fun hinput => ?_, fun rid hinput hnames => ?_⟩
    · obtain ⟨before, last, after, hsplit, hrid, hafter, htruncated⟩ :=
        truncated_of_names hinput hnames
      obtain ⟨hreqs, hnew⟩ := createReq_continues htruncated
      refine ⟨before, last, after, hsplit, hrid, hafter, ?_, ?_, ?_⟩
      · rw [hreqs, hnew]
      · rw [hnew]
        rfl
      · rw [hnew]
        rfl
    · obtain ⟨hreqs, hnew⟩ := createReq_restarts session hinput
      rw [hreqs, hnew]
      exact ⟨rfl, rfl, rfl⟩
    · obtain ⟨hreqs, hnew⟩ := createReq_aborts hinput hnames
      rcases hfound rid hinput with h | hempty
      · exact absurd h hnames
      · exact ⟨hreqs.trans hempty.symm, hnew⟩

/-- All calls of a run meet a condition on the history and the input. -/
def EachCall (P : Session → SessionInput → Prop) : Session → List Event → Prop
  | _, [] => True
  | session, .createReq input :: events => P session input ∧
      EachCall P (session.after (.createReq input)) events
  | session, event :: events => EachCall P (session.after event) events

theorem eachCall_congr {P Q : Session → SessionInput → Prop} (h : ∀ s input, P s input ↔ Q s input)
    (events : List Event) (session : Session) :
    EachCall P session events ↔ EachCall Q session events := by
  induction events generalizing session with
  | nil => exact Iff.rfl
  | cons event events ih =>
    cases event with
    | createReq input => exact and_congr (h session input) (ih _)
    | process update rid => exact ih _

/-- In a run of calls, with any processing between them, all calls do what they should exactly
if none of them misses a request in a history that has some. -/
theorem run_branches_iff (sessionId : String) (capacityOfStrLen : Nat) (events : List Event) :
    EachCall (fun s input => s.Branches input (s.createReq input).1 (s.createReq input).2)
      (Session.new sessionId capacityOfStrLen) events ↔
    EachCall Found (Session.new sessionId capacityOfStrLen) events :=
  eachCall_congr branches_iff events _

/-- A call with three new ids that asks for two outputs. -/
def callNaming (rid : String) (sessionRid : Option String) : SessionInput where
  rid := rid
  inputIds := [1, 2, 3]
  samplingParams := Req.blank.samplingParams
  maxNewTokens := some 2
  loraPath := none
  sessionRid := sessionRid

/-- After an unknown rid the history is empty, and the rid of its first request is unknown too. -/
theorem unknown_rid_clears_history :
    let session := ((Session.new "s" 10).createReq (callNaming "a" none)).1
    let missed := (session.createReq (callNaming "b" (some "x"))).1
    session.reqs.map (·.rid) = ["a"] ∧ missed.reqs = [] ∧
      (missed.createReq (callNaming "c" (some "a"))).2.finishedReason =
        some (abortReason "a") := by
  decide

end Session

end FastPP
