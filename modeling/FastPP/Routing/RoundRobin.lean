import Mathlib.Logic.Function.Basic
import Mathlib.Data.List.Basic

namespace FastPP

/-- Where a call of `select_generate_worker` stands with `current_index`: it has loaded it,
computed the next value, or left `fetch_update` with the index for its lookup. -/
inductive IndexReader
  | idle
  | loaded (index : Nat)
  | computed (index next : Nat)
  | chosen (index : Nat)
  | panicked
  deriving DecidableEq, Repr

/-- The indices that the call has: the one it will look up or try to exchange, and the one
it will leave for the next call. -/
def IndexReader.held : IndexReader → List Nat
  | loaded index | chosen index => [index]
  | computed index next => [index, next]
  | _ => []

/-- `Router::RoundRobin`, with the calls of its clients. -/
structure RoundRobin where
  workerUrls : List String
  currentIndex : Nat
  readers : Nat → IndexReader

/-- One atomic operation or locked section of a client's call. -/
inductive RoundRobinStep
  | load (client : Nat)
  | compute (client : Nat)
  | exchange (client : Nat)
  | exchangeFails (client : Nat)
  | lookup (client : Nat)
  | add (url : String)
  | remove (url : String)
  deriving DecidableEq, Repr

def RoundRobinStep.isRemoval : RoundRobinStep → Bool
  | remove _ => true
  | _ => false

namespace RoundRobin

/-- `Router::new`. -/
def new (workerUrls : List String) : RoundRobin := ⟨workerUrls, 0, fun _ => .idle⟩

def setReader (s : RoundRobin) (client : Nat) (reader : IndexReader) : RoundRobin :=
  { s with readers := Function.update s.readers client reader }

/-- The sections of `fetch_update`, of the lookup, of `add_worker` and of `remove_worker`;
`none` where the client is not there. An exchange may fail without a reason. -/
def step (s : RoundRobin) : RoundRobinStep → Option RoundRobin
  | .load client =>
    match s.readers client with
    | .idle => some (s.setReader client (.loaded s.currentIndex))
    | _ => none
  | .compute client =>
    match s.readers client with
    | .loaded index =>
      if s.workerUrls.length = 0 then some (s.setReader client .panicked)
      else some (s.setReader client (.computed index ((index + 1) % s.workerUrls.length)))
    | _ => none
  | .exchange client =>
    match s.readers client with
    | .computed index next =>
      if s.currentIndex = index then
        some ({ s with currentIndex := next }.setReader client (.chosen index))
      else some (s.setReader client (.loaded s.currentIndex))
    | _ => none
  | .exchangeFails client =>
    match s.readers client with
    | .computed _ _ => some (s.setReader client (.loaded s.currentIndex))
    | _ => none
  | .lookup client =>
    match s.readers client with
    | .chosen index =>
      if index < s.workerUrls.length then some (s.setReader client .idle)
      else some (s.setReader client .panicked)
    | _ => none
  | .add url =>
    if url ∈ s.workerUrls then some s
    else some { s with workerUrls := s.workerUrls ++ [url] }
  | .remove url => some { s with workerUrls := s.workerUrls.erase url }

/-- A removal leaves more workers than `current_index`, and than any index that a selection
in progress has. -/
def RemovalFits (s : RoundRobin) : RoundRobinStep → Prop
  | .remove url => s.currentIndex < (s.workerUrls.erase url).length ∧
      ∀ client, ∀ index ∈ (s.readers client).held, index < (s.workerUrls.erase url).length
  | _ => True

theorem removalFits_of_not_removal {s : RoundRobin} {action : RoundRobinStep}
    (h : action.isRemoval = false) : s.RemovalFits action := by
  cases action with
  | remove url => cases h
  | _ => trivial

/-- What the runs reach whose steps satisfy a condition. -/
inductive Run (condition : RoundRobin → RoundRobinStep → Prop) (workerUrls : List String) :
    RoundRobin → Prop
  | new : Run condition workerUrls (.new workerUrls)
  | step {s s' : RoundRobin} {action : RoundRobinStep} (run : Run condition workerUrls s)
      (met : condition s action) (next : s.step action = some s') : Run condition workerUrls s'

/-- No call has panicked, and the lookups that are due are in range. -/
structure Safe (s : RoundRobin) : Prop where
  not_panicked : ∀ client, s.readers client ≠ .panicked
  in_range : ∀ client index, s.readers client = .chosen index → index < s.workerUrls.length

/-- The invariant: the counter and every index that a call has are in range. -/
structure Kept (s : RoundRobin) : Prop where
  not_panicked : ∀ client, s.readers client ≠ .panicked
  current : s.currentIndex < s.workerUrls.length
  in_range : ∀ client, ∀ index ∈ (s.readers client).held, index < s.workerUrls.length

theorem Kept.safe {s : RoundRobin} (h : s.Kept) : s.Safe where
  not_panicked := h.not_panicked
  in_range := by
    intro client index hchosen
    apply h.in_range client
    rw [hchosen]
    exact List.mem_singleton_self index

/-- A client goes on with indices in range, or with none. -/
theorem Kept.setReader {s : RoundRobin} (h : s.Kept) (client : Nat) {reader : IndexReader}
    (hne : reader ≠ .panicked)
    (hrange : ∀ index ∈ reader.held, index < s.workerUrls.length) :
    (s.setReader client reader).Kept where
  not_panicked := by
    intro other
    by_cases hsame : other = client
    · subst hsame
      simpa [RoundRobin.setReader] using hne
    · simpa [RoundRobin.setReader, hsame] using h.not_panicked other
  current := h.current
  in_range := by
    intro other index hindex
    by_cases hsame : other = client
    · subst hsame
      exact hrange index (by simpa [RoundRobin.setReader] using hindex)
    · exact h.in_range other index (by simpa [RoundRobin.setReader, hsame] using hindex)

/-- A client that loads `current_index` finds it in range. -/
theorem Kept.loaded {s : RoundRobin} (h : s.Kept) (client : Nat) :
    (s.setReader client (.loaded s.currentIndex)).Kept := by
  apply h.setReader
  · simp
  · intro index hindex
    obtain rfl := List.mem_singleton.mp hindex
    exact h.current

theorem Kept.load {s s' : RoundRobin} (h : s.Kept) {client : Nat}
    (next : s.step (.load client) = some s') : s'.Kept := by
  simp only [RoundRobin.step] at next
  split at next
  next =>
    obtain rfl := Option.some.inj next
    exact h.loaded client
  next => cases next

/-- The successor is taken modulo the length that the list has now. -/
theorem Kept.compute {s s' : RoundRobin} (h : s.Kept) {client : Nat}
    (next : s.step (.compute client) = some s') : s'.Kept := by
  simp only [RoundRobin.step] at next
  split at next
  next index hloaded =>
    have hpos := h.current
    have hindex := h.in_range client index (by rw [hloaded]; exact List.mem_singleton_self index)
    rw [if_neg (by omega)] at next
    obtain rfl := Option.some.inj next
    apply h.setReader
    · simp
    · intro held hheld
      rcases List.mem_pair.mp hheld with rfl | rfl
      · exact hindex
      · exact Nat.mod_lt _ (by omega)
  next => cases next

/-- A client that exchanged the index has its own, and one that did not has the new one. -/
theorem Kept.exchange {s s' : RoundRobin} (h : s.Kept) {client : Nat}
    (next : s.step (.exchange client) = some s') : s'.Kept := by
  simp only [RoundRobin.step] at next
  split at next
  next index value hcomputed =>
    have hheld := h.in_range client
    rw [hcomputed] at hheld
    split at next
    next =>
      obtain rfl := Option.some.inj next
      have h' : ({ s with currentIndex := value } : RoundRobin).Kept :=
        ⟨h.not_panicked, hheld value (List.mem_pair.mpr (.inr rfl)), h.in_range⟩
      apply h'.setReader
      · simp
      · intro index' hindex'
        obtain rfl := List.mem_singleton.mp hindex'
        exact hheld _ (List.mem_pair.mpr (.inl rfl))
    next =>
      obtain rfl := Option.some.inj next
      exact h.loaded client
  next => cases next

theorem Kept.exchangeFails {s s' : RoundRobin} (h : s.Kept) {client : Nat}
    (next : s.step (.exchangeFails client) = some s') : s'.Kept := by
  simp only [RoundRobin.step] at next
  split at next
  next =>
    obtain rfl := Option.some.inj next
    exact h.loaded client
  next => cases next

/-- The lookup is in range, and ends the call. -/
theorem Kept.lookup {s s' : RoundRobin} (h : s.Kept) {client : Nat}
    (next : s.step (.lookup client) = some s') : s'.Kept := by
  simp only [RoundRobin.step] at next
  split at next
  next index hchosen =>
    have hindex := h.in_range client index (by rw [hchosen]; exact List.mem_singleton_self index)
    rw [if_pos hindex] at next
    obtain rfl := Option.some.inj next
    apply h.setReader
    · simp
    · intro index' hindex'
      cases hindex'
  next => cases next

theorem Kept.add {s s' : RoundRobin} (h : s.Kept) {url : String}
    (next : s.step (.add url) = some s') : s'.Kept := by
  simp only [RoundRobin.step] at next
  split at next
  next =>
    obtain rfl := Option.some.inj next
    exact h
  next =>
    obtain rfl := Option.some.inj next
    have hgrows : s.workerUrls.length < (s.workerUrls ++ [url]).length := by simp
    exact ⟨h.not_panicked, Nat.lt_trans h.current hgrows, fun client index hindex =>
      Nat.lt_trans (h.in_range client index hindex) hgrows⟩

theorem Kept.step {s s' : RoundRobin} (h : s.Kept) {action : RoundRobinStep}
    (met : s.RemovalFits action) (next : s.step action = some s') : s'.Kept := by
  cases action with
  | load client => exact h.load next
  | compute client => exact h.compute next
  | exchange client => exact h.exchange next
  | exchangeFails client => exact h.exchangeFails next
  | lookup client => exact h.lookup next
  | add url => exact h.add next
  | remove url =>
    obtain rfl := Option.some.inj next
    exact ⟨h.not_panicked, met.1, met.2⟩

/-- In every run whose removals leave the indices in range no selection panics. -/
theorem Run.kept {workerUrls : List String} (hne : workerUrls ≠ []) {s : RoundRobin}
    (h : Run RemovalFits workerUrls s) : s.Kept := by
  induction h with
  | new =>
    refine ⟨?_, List.length_pos_iff.mpr hne, ?_⟩
    · intro client hpanicked
      cases hpanicked
    · intro client index hindex
      cases hindex
  | step _ met next ih => exact ih.step met next

/-- A run of given steps, all of which meet a condition. -/
def runListed (condition : RoundRobin → RoundRobinStep → Prop)
    [∀ s action, Decidable (condition s action)] (s : RoundRobin) :
    List RoundRobinStep → Option RoundRobin
  | [] => some s
  | action :: actions =>
    if condition s action then do
      let s ← s.step action
      runListed condition s actions
    else none

theorem run_of_runListed {condition condition' : RoundRobin → RoundRobinStep → Prop}
    [∀ s action, Decidable (condition s action)]
    (himp : ∀ s action, condition s action → condition' s action) {workerUrls : List String}
    {s s' : RoundRobin} {actions : List RoundRobinStep} (h : Run condition' workerUrls s)
    (hrun : s.runListed condition actions = some s') : Run condition' workerUrls s' := by
  induction actions generalizing s with
  | nil =>
    obtain rfl := Option.some.inj hrun
    exact h
  | cons action actions ih =>
    unfold runListed at hrun
    split at hrun
    next hmet =>
      obtain ⟨s₁, hstep, hrun⟩ := Option.bind_eq_some_iff.mp hrun
      exact ih (.step h (himp s action hmet) hstep) hrun
    next => cases hrun

end RoundRobin

end FastPP
