import FastPP.JumpForward

namespace FastPP

namespace JumpReq

variable {G Data State M : Type} {backend : GrammarBackend G Data State}
  {env : Surroundings M G} {mem mem' : M} {req req' req₁ : JumpReq G} {grammar : G}

/-- What a request that was not returned must have kept. -/
structure Unchanged (req req' : JumpReq G) : Prop where
  outputIds : req'.outputIds = req.outputIds
  decodedText : req'.decodedText = req.decodedText
  surrOffset : req'.surrOffset = req.surrOffset
  readOffset : req'.readOffset = req.readOffset
  vid : req'.vid = req.vid
  reqPoolIdx : req'.reqPoolIdx = req.reqPoolIdx
  prefixIndices : req'.prefixIndices = req.prefixIndices
  lastNode : req'.lastNode = req.lastNode

/-- The text after the suffix cannot be shown, or it fails a check when it is tokenized again. -/
def AttemptFails (backend : GrammarBackend G Data State) (grammar : G) (req : JumpReq G)
    (helper : List Nat × Data) : Prop :=
  match req.getNextIncDetokenization with
  | (_, none) => True
  | (req, some newText) =>
    ∃ req', req.jumpForwardAndRetokenize backend grammar
      (newText ++ (backend.jumpForwardStrState grammar helper).1)
      (backend.jumpForwardStrState grammar helper).2 = some (req', false)

/-- A jump that is tried and fails has added no suffix and set no offset. -/
def NothingToRestore (backend : GrammarBackend G Data State) (req : JumpReq G) : Prop :=
  ∀ grammar grammar' helper, req.grammar = some grammar →
    backend.tryJumpForward grammar req.tokenizer = (grammar', some helper) →
    AttemptFails backend grammar'
      { req with grammar := some grammar', outputIds := req.outputIds ++ helper.1 } helper →
    helper.1 = [] ∧ (req.tokenizer = none ∨ req.surrOffset.isSome ∧ req.readOffset.isSome)

/-- The incremental detokenization sets offsets that are not set, and nothing else. -/
theorem getNext_fields (req : JumpReq G) :
    (∃ surr read, req.getNextIncDetokenization.1 =
        { req with surrOffset := surr, readOffset := read }) ∧
      (req.getNextIncDetokenization.1.surrOffset = req.surrOffset ∧
          req.getNextIncDetokenization.1.readOffset = req.readOffset ↔
        req.tokenizer = none ∨ req.surrOffset.isSome ∧ req.readOffset.isSome) := by
  unfold getNextIncDetokenization
  split
  next hnone => exact ⟨⟨_, _, rfl⟩, fun _ => .inl hnone, fun _ => ⟨rfl, rfl⟩⟩
  next tokenizer hsome =>
    dsimp only
    rw [apply_ite Prod.fst, ite_self]
    refine ⟨⟨_, _, rfl⟩, ?_⟩
    unfold initIncrementalDetokenize
    rw [hsome]
    cases hsurr : req.surrOffset with
    | none => simp
    | some surr =>
      cases hread : req.readOffset with
      | none => simp
      | some read => simp

/-- A failed retokenization remembers the text of the prompt and changes nothing else. -/
theorem failedRetokenize_fields {jumpForwardStr : String} {nextState : State}
    (h : req.jumpForwardAndRetokenize backend grammar jumpForwardStr nextState =
      some (req', false)) :
    ∃ text, req' = { req with originInputText := text } := by
  obtain ⟨tokenizer, _, h⟩ := Option.bind_eq_some_iff.mp h
  obtain ⟨retokenized, _, h⟩ := Option.bind_eq_some_iff.mp h
  cases retokenized with
  | none =>
    obtain ⟨rfl, _⟩ := Prod.mk.inj (Option.some.inj h)
    exact ⟨_, rfl⟩
  | some allIds =>
    obtain ⟨grammar', _, h⟩ := Option.bind_eq_some_iff.mp h
    obtain ⟨req₁, _, h⟩ := Option.bind_eq_some_iff.mp h
    cases (Prod.mk.inj (Option.some.inj h)).2

/-- A tried request that was not returned: its attempt failed, and it has the suffix and the
offsets of the detokenization. -/
theorem failedAttempt_fields {grammar' : G} {helper : List Nat × Data}
    (hgrammar : req.grammar = some grammar)
    (htry : backend.tryJumpForward grammar req.tokenizer = (grammar', some helper))
    (h : checkRequest backend env mem req = some (mem', req', false)) :
    let tried := { req with grammar := some grammar', outputIds := req.outputIds ++ helper.1 }
    AttemptFails backend grammar' tried helper ∧
      ∃ text, req' = { tried.getNextIncDetokenization.1 with
        outputIds := req.outputIds ++ helper.1, originInputText := text } := by
  intro tried
  unfold checkRequest at h
  simp only [hgrammar, htry] at h
  unfold AttemptFails
  change (match tried.getNextIncDetokenization with
    | (req, none) => some (mem, { req with outputIds := tried.outputIds }, false)
    | (req, some newText) => _) = _ at h
  rcases hnext : tried.getNextIncDetokenization with ⟨req₁, newText⟩
  rw [hnext] at h
  cases newText with
  | none =>
    obtain ⟨_, hreq⟩ := Prod.mk.inj (Option.some.inj h)
    obtain ⟨rfl, _⟩ := Prod.mk.inj hreq
    exact ⟨trivial, req₁.originInputText, rfl⟩
  | some newText =>
    obtain ⟨⟨req₂, jumped⟩, hjump, h⟩ := Option.bind_eq_some_iff.mp h
    dsimp only at h
    split at h
    next hfailed =>
      have hjumped : jumped = false := by simpa using hfailed
      rw [hjumped] at hjump
      obtain ⟨text, rfl⟩ := failedRetokenize_fields hjump
      obtain ⟨_, hreq⟩ := Prod.mk.inj (Option.some.inj h)
      obtain ⟨rfl, _⟩ := Prod.mk.inj hreq
      exact ⟨⟨_, hjump⟩, text, rfl⟩
    next =>
      obtain ⟨mem₁, _, h⟩ := Option.bind_eq_some_iff.mp h
      have hreturned := (Prod.mk.inj (Prod.mk.inj (Option.some.inj h)).2).2
      cases hreturned

/-- An attempt on a shown text fails exactly if its retokenization is refused. -/
theorem attemptFails_iff_of_text {helper : List Nat × Data} {newText : String}
    (hnext : req.getNextIncDetokenization = (req₁, some newText)) :
    AttemptFails backend grammar req helper ↔
      ∃ req', req₁.jumpForwardAndRetokenize backend grammar
        (newText ++ (backend.jumpForwardStrState grammar helper).1)
        (backend.jumpForwardStrState grammar helper).2 = some (req', false) := by
  unfold AttemptFails
  rw [hnext]

/-- A returned request jumped: it was tried, and the attempt did not fail. -/
theorem returned_jumped (h : checkRequest backend env mem req = some (mem', req', true)) :
    ∃ grammar grammar' helper, req.grammar = some grammar ∧
      backend.tryJumpForward grammar req.tokenizer = (grammar', some helper) ∧
      ¬ AttemptFails backend grammar'
        { req with grammar := some grammar', outputIds := req.outputIds ++ helper.1 } helper := by
  unfold checkRequest at h
  split at h
  next =>
    have hreturned := (Prod.mk.inj (Prod.mk.inj (Option.some.inj h)).2).2
    cases hreturned
  next grammar hgrammar =>
    split at h
    next =>
      have hreturned := (Prod.mk.inj (Prod.mk.inj (Option.some.inj h)).2).2
      cases hreturned
    next grammar' helper htry =>
      refine ⟨grammar, grammar', helper, hgrammar, htry, ?_⟩
      dsimp only at h
      split at h
      next =>
        have hreturned := (Prod.mk.inj (Prod.mk.inj (Option.some.inj h)).2).2
        cases hreturned
      next req₁ newText hnext =>
        obtain ⟨⟨req₂, jumped⟩, hjump, h⟩ := Option.bind_eq_some_iff.mp h
        intro hfails
        obtain ⟨req₃, hfails⟩ := (attemptFails_iff_of_text hnext).mp hfails
        rw [hfails] at hjump
        cases hjump
        have hreturned := (Prod.mk.inj (Prod.mk.inj (Option.some.inj h)).2).2
        cases hreturned

/-- A request that is tried and fails keeps the suffix; one that is not tried keeps all. -/
theorem checkRequest_kept (h : checkRequest backend env mem req = some (mem', req', false)) :
    Unchanged req req' ↔ NothingToRestore backend req := by
  cases hgrammar : req.grammar with
  | none =>
    unfold checkRequest at h
    rw [hgrammar] at h
    obtain ⟨_, hreq⟩ := Prod.mk.inj (Option.some.inj h)
    obtain ⟨rfl, _⟩ := Prod.mk.inj hreq
    constructor
    · intro _ grammar grammar' helper hsome
      rw [hgrammar] at hsome
      cases hsome
    · intro _
      exact ⟨rfl, rfl, rfl, rfl, rfl, rfl, rfl, rfl⟩
  | some grammar =>
    rcases htry : backend.tryJumpForward grammar req.tokenizer with ⟨grammar', helper⟩
    cases helper with
    | none =>
      unfold checkRequest at h
      simp only [hgrammar, htry] at h
      obtain ⟨_, hreq⟩ := Prod.mk.inj (Option.some.inj h)
      obtain ⟨rfl, _⟩ := Prod.mk.inj hreq
      constructor
      · intro _ g g' helper hg htry'
        rw [hgrammar] at hg
        cases hg
        rw [htry] at htry'
        cases (Prod.mk.inj htry').2
      · intro _
        exact ⟨rfl, rfl, rfl, rfl, rfl, rfl, rfl, rfl⟩
    | some helper =>
      obtain ⟨hfails, text, rfl⟩ := failedAttempt_fields hgrammar htry h
      obtain ⟨⟨surr, read, hnext⟩, hoffsets⟩ := getNext_fields
        { req with grammar := some grammar', outputIds := req.outputIds ++ helper.1 }
      rw [hnext] at hoffsets ⊢
      constructor
      · intro hunchanged g g' helper' hg htry' _
        rw [hgrammar] at hg
        cases hg
        rw [htry] at htry'
        cases htry'
        have hsuffix : req.outputIds ++ helper.1 = req.outputIds := hunchanged.outputIds
        refine ⟨List.append_right_eq_self.mp hsuffix, hoffsets.mp ?_⟩
        exact ⟨hunchanged.surrOffset, hunchanged.readOffset⟩
      · intro hnothing
        obtain ⟨hsuffix, hset⟩ := hnothing grammar grammar' helper hgrammar htry hfails
        obtain ⟨hsurr, hread⟩ := hoffsets.mpr hset
        have hids : req.outputIds ++ helper.1 = req.outputIds := by
          rw [hsuffix, List.append_nil]
        exact ⟨hids, rfl, hsurr, hread, rfl, rfl, rfl, rfl⟩

end JumpReq

namespace JumpReq

variable {G Data State M : Type} {backend : GrammarBackend G Data State}
  {env : Surroundings M G} {mem mem' : M} {reqs : List (JumpReq G)}

/-- A returned request had nothing to restore: its attempt did not fail. -/
theorem returned_nothing {req req' : JumpReq G}
    (h : checkRequest backend env mem req = some (mem', req', true)) :
    NothingToRestore backend req := by
  obtain ⟨grammar, grammar', helper, hgrammar, htry, hjumped⟩ := returned_jumped h
  intro g g' helper' hg htry' hfails
  rw [hgrammar] at hg
  cases hg
  rw [htry] at htry'
  cases htry'
  exact absurd hfails hjumped

/-- The loop handles each request by itself. -/
theorem checkRequests_each {out : List (JumpReq G × Bool)}
    (h : checkRequests backend env mem reqs = some (mem', out)) :
    List.Forall₂ (fun req out =>
      ∃ mem mem' : M, checkRequest backend env mem req = some (mem', out)) reqs out := by
  induction reqs generalizing mem mem' out with
  | nil =>
    obtain ⟨_, rfl⟩ := Prod.mk.inj (Option.some.inj h)
    exact .nil
  | cons req reqs ih =>
    obtain ⟨⟨mem₁, req', returned⟩, hfirst, h⟩ := Option.bind_eq_some_iff.mp h
    obtain ⟨⟨mem₂, rest⟩, hrest, h⟩ := Option.bind_eq_some_iff.mp h
    obtain ⟨_, rfl⟩ := Prod.mk.inj (Option.some.inj h)
    exact .cons ⟨_, _, hfirst⟩ (ih hrest)

/-- `filter_batch` takes all rows without a selection when their number is that of the batch. -/
theorem filterKept_perm {n : Nat} {isReturned : Nat → Bool} {keepIndices : List Nat}
    (h : keepIndices.Perm ((List.range n).filter fun i => !isReturned i)) :
    (filterKept n keepIndices).Perm ((List.range n).filter fun i => !isReturned i) := by
  unfold filterKept
  split
  next hall =>
    have hlength : ((List.range n).filter fun i => !isReturned i).length =
        (List.range n).length := by
      rw [← h.length_eq, hall, List.length_range]
    have hsame := List.filter_sublist.eq_of_length hlength
    rw [hsame]
  next => exact h

variable {out : Checked M G}

/-- Each request is kept or returned, and only once. -/
theorem kept_or_returned (h : checkForJumpForward backend env mem reqs = some out) :
    (out.kept ++ out.returned).Perm (List.range reqs.length) := by
  obtain ⟨⟨mem₁, checked⟩, _, h⟩ := Option.bind_eq_some_iff.mp h
  obtain rfl := Option.some.inj h
  have hkept := filterKept_perm (env.listSet_perm
    ((List.range reqs.length).filter fun i => !(checked[i]?.map Prod.snd).getD false))
  apply (List.Perm.append_right _ hkept).trans
  apply List.perm_append_comm.trans
  exact List.filter_append_perm _ _

/-- What the loop did at one index. -/
theorem checked_at {i : Nat} (h : checkForJumpForward backend env mem reqs = some out)
    (hi : i < reqs.length) :
    ∃ req req' returned, ∃ mem mem' : M, reqs[i]? = some req ∧ out.reqs[i]? = some req' ∧
      checkRequest backend env mem req = some (mem', req', returned) ∧
      (i ∈ out.kept ↔ returned = false) := by
  obtain ⟨⟨mem₁, checked⟩, hchecked, h⟩ := Option.bind_eq_some_iff.mp h
  obtain rfl := Option.some.inj h
  have heach := checkRequests_each hchecked
  have hi' : i < checked.length := heach.length_eq ▸ hi
  obtain ⟨mem₂, mem₃, hcheck⟩ := List.Forall₂.get heach hi hi'
  have hat : checked[i]? = some checked[i] := List.getElem?_eq_getElem hi'
  refine ⟨reqs[i], checked[i].1, checked[i].2, mem₂, mem₃, List.getElem?_eq_getElem hi, ?_,
    hcheck, ?_⟩
  · rw [List.getElem?_map, hat, Option.map_some]
  · have hkept := filterKept_perm (env.listSet_perm
      ((List.range reqs.length).filter fun i => !(checked[i]?.map Prod.snd).getD false))
    rw [hkept.mem_iff, List.mem_filter, hat]
    simp [hi]

/-- No request has been tried in vain with a suffix or unset offsets: then, and only then, each
request is kept as it was or returned. -/
theorem failedJump_unchanged (h : checkForJumpForward backend env mem reqs = some out) :
    ((out.kept ++ out.returned).Perm (List.range reqs.length) ∧
      ∀ i ∈ out.kept, ∃ req req', reqs[i]? = some req ∧ out.reqs[i]? = some req' ∧
        Unchanged req req') ↔
    ∀ req ∈ reqs, NothingToRestore backend req := by
  constructor
  · intro hkept req hreq
    obtain ⟨_, hkept⟩ := hkept
    obtain ⟨i, hi, rfl⟩ := List.mem_iff_getElem.mp hreq
    obtain ⟨req, req', returned, mem₁, mem₂, hat, hat', hcheck, hiff⟩ := checked_at h hi
    rw [List.getElem?_eq_getElem hi] at hat
    obtain rfl := Option.some.inj hat
    cases returned with
    | true => exact returned_nothing hcheck
    | false =>
      obtain ⟨old, new, hold, hnew, hunchanged⟩ := hkept i (hiff.mpr rfl)
      rw [List.getElem?_eq_getElem hi] at hold
      rw [hat'] at hnew
      obtain rfl := Option.some.inj hold
      obtain rfl := Option.some.inj hnew
      exact (checkRequest_kept hcheck).mp hunchanged
  · intro hnothing
    refine ⟨kept_or_returned h, ?_⟩
    intro i hkept
    have hi : i < reqs.length :=
      List.mem_range.mp ((kept_or_returned h).subset (List.mem_append_left _ hkept))
    obtain ⟨req, req', returned, mem₁, mem₂, hat, hat', hcheck, hiff⟩ := checked_at h hi
    rw [hiff.mp hkept] at hcheck
    exact ⟨req, req', hat, hat', (checkRequest_kept hcheck).mpr
      (hnothing req (List.mem_of_getElem? hat))⟩

/-- A tokenizer with one character for an id, which reads the whole text as `ids`. -/
def wholeTokenizer (ids : List Nat) : JumpTokenizer where
  decodeWith _ _ ids := String.ofList (ids.map fun _ => 'a')
  decode ids := String.ofList (ids.map fun _ => 'a')
  encode _ := ids

/-- A grammar that always has the suffix that it is. -/
def suffixGrammar : GrammarBackend (List Nat) Unit Unit where
  tryJumpForward grammar _ := (grammar, some (grammar, ()))
  jumpForwardStrState _ _ := ("b", ())
  jumpAndRetokenize grammar _ _ _ := some grammar

def bareSurroundings : Surroundings Unit (List Nat) where
  cacheFinishedReq _ _ _ := some ()
  padInputIds ids _ := ids
  listSet indices := indices
  listSet_perm _ := .refl _

/-- A request with the prompt 1 and one sampled token, 2. -/
def sampledReq (grammar : Option (List Nat)) (encoded : List Nat) : JumpReq (List Nat) where
  originInputIds := [1]
  originInputIdsUnpadded := [1]
  originInputText := some "a"
  outputIds := [2]
  decodedText := ""
  surrOffset := none
  readOffset := none
  vid := 0
  grammar := grammar
  tokenizer := some (wholeTokenizer encoded)
  skipSpecialTokens := true
  spacesBetweenSpecialTokens := true
  imageInputs := none
  returnLogprob := false
  outputTokenLogprobsVal := []
  outputTokenLogprobsIdx := []
  outputTopLogprobsVal := []
  outputTopLogprobsIdx := []
  logprobStartLen := 0
  lastUpdateDecodeTokens := 0
  reqPoolIdx := some 0
  prefixIndices := []
  lastNode := some 0

/-- A request that has been shown and whose grammar has an empty suffix, but which is read as
another prompt. -/
def shownReq : JumpReq (List Nat) :=
  { sampledReq (some []) [9, 2] with surrOffset := some 0, readOffset := some 0 }

/-- One request without a grammar, one that jumps and one whose jump fails with nothing to
restore: all as they must be. -/
theorem failedJump_unchanged_jumped :
    ∃ out, checkForJumpForward suffixGrammar bareSurroundings ()
        [sampledReq none [], sampledReq (some [7]) [1, 2, 7, 8], shownReq] = some out ∧
      out.kept = [0, 2] ∧ out.returned = [1] ∧
      ∀ i ∈ out.kept, ∃ req req',
        [sampledReq none [], sampledReq (some [7]) [1, 2, 7, 8], shownReq][i]? = some req ∧
        out.reqs[i]? = some req' ∧ Unchanged req req' := by
  obtain ⟨out, h, hkept, hreturned⟩ : ∃ out, checkForJumpForward suffixGrammar bareSurroundings ()
      [sampledReq none [], sampledReq (some [7]) [1, 2, 7, 8], shownReq] = some out ∧
      out.kept = [0, 2] ∧ out.returned = [1] := ⟨_, rfl, by decide +kernel, by decide +kernel⟩
  have hnothing : ∀ req ∈ [sampledReq none [], sampledReq (some [7]) [1, 2, 7, 8], shownReq],
      NothingToRestore suffixGrammar req := by
    intro req hreq
    rcases List.mem_cons.mp hreq with rfl | hreq
    · intro _ _ _ hgrammar
      cases hgrammar
    rcases List.mem_cons.mp hreq with rfl | hreq
    · exact returned_nothing (show checkRequest suffixGrammar bareSurroundings () _ =
        some (_, _, true) from rfl)
    · obtain rfl := List.mem_singleton.mp hreq
      intro grammar grammar' helper hgrammar htry _
      obtain rfl := Option.some.inj hgrammar
      obtain ⟨_, hhelper⟩ := Prod.mk.inj htry
      obtain rfl := Option.some.inj hhelper
      exact ⟨rfl, .inr ⟨rfl, rfl⟩⟩
  exact ⟨out, h, hkept, hreturned, ((failedJump_unchanged h).mpr hnothing).2⟩

/-- The text with the suffix starts with another token than the prompt: the jump fails, and the
suffix stays. -/
theorem fusedJump_keeps_suffix :
    ∃ out, checkForJumpForward suffixGrammar bareSurroundings ()
        [sampledReq (some [7]) [9, 2, 7]] = some out ∧
      ¬ ((out.kept ++ out.returned).Perm (List.range 1) ∧
        ∀ i ∈ out.kept, ∃ req req', [sampledReq (some [7]) [9, 2, 7]][i]? = some req ∧
          out.reqs[i]? = some req' ∧ Unchanged req req') := by
  refine ⟨_, rfl, ?_⟩
  intro hkept
  obtain ⟨req, req', hreq, hreq', hunchanged⟩ := hkept.2 0 (by decide)
  obtain rfl := Option.some.inj hreq
  obtain rfl := Option.some.inj hreq'
  have hids := hunchanged.outputIds
  revert hids
  decide

end JumpReq

end FastPP
