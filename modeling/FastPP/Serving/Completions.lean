import FastPP.Detok.Detokenizer
import Mathlib.Data.List.Chain
import Mathlib.Logic.Function.Basic

namespace FastPP

/-- The forms of `CompletionRequest.prompt`. -/
inductive Prompt
  | str (prompt : Text)
  | strs (prompts : List Text)
  | ids (prompt : List Nat)
  | idLists (prompts : List (List Nat))
  deriving DecidableEq

/-- The fields of a `CompletionRequest` that decide the text of its choices. -/
structure CompletionRequest where
  prompt : Prompt
  n : Nat
  echo : Bool
  deriving DecidableEq

/-- The texts of the prompts, token ids decoded. -/
def Prompt.decoded (decode : List Nat → Text) : Prompt → List Text
  | .str prompt => [prompt]
  | .strs prompts => prompts
  | .ids prompt => [decode prompt]
  | .idLists prompts => prompts.map decode

/-- `request.prompt[0]` raises on an empty list. -/
def Prompt.isEmptyList : Prompt → Bool
  | .str _ => false
  | .strs prompts => prompts.isEmpty
  | .ids prompt => prompt.isEmpty
  | .idLists prompts => prompts.isEmpty

/-- The test `request.prompt[0][0]` of the stream raises when the first list of ids is
empty. -/
def Prompt.startsEmpty : Prompt → Bool
  | .idLists ([] :: _) => true
  | _ => false

variable (decode : List Nat → Text)

/-- The list `prompts` of `v1_generate_response`; `none` is an `IndexError`. -/
def responsePrompts (prompt : Prompt) : Option (List Text) :=
  if prompt.isEmptyList then none else some (prompt.decoded decode)

/-- The loop of `v1_generate_response` over the answers from `idx` on, when the prompt is
echoed. -/
def echoTexts (prompts : List Text) (n : Nat) : Nat → List Text → Option (List Text)
  | _, [] => some []
  | idx, text :: rest => do
    let prompt ← prompts[idx / n]?
    let choices ← echoTexts prompts n (idx + 1) rest
    some ((prompt ++ text) :: choices)

/-- The texts that `v1_generate_response` gives the choices of a request, from the texts
of the answers. -/
def v1GenerateResponse (request : CompletionRequest) (ret : List Text) : Option (List Text) :=
  if request.echo then do
    let prompts ← responsePrompts decode request.prompt
    echoTexts prompts request.n 0 ret
  else some ret

/-- The prompt that the stream puts in front of the first chunk of a choice; `none` is
an `IndexError`. -/
def streamPrompt (request : CompletionRequest) (index : Nat) : Option Text :=
  match request.prompt with
  | .str prompt => some prompt
  | .strs prompts => prompts[index / request.n]?
  | .ids prompt => if prompt = [] then none else some (decode prompt)
  | .idLists prompts =>
    if request.prompt.startsEmpty then none else (prompts[index / request.n]?).map decode

/-- The text of a chunk, with the prompt in front where the stream takes it for the first
one of its choice. -/
def chunkText (request : CompletionRequest) (streamBuffer : Text) (index : Nat) (text : Text) :
    Option Text :=
  if streamBuffer = [] ∧ request.echo then
    (streamPrompt decode request index).map (· ++ text)
  else some text

/-- One turn of the loop of `generate_stream_resp`: the buffers and the delta sent for
a chunk that carries the whole text so far. -/
def streamChunk (request : CompletionRequest) (buffers : Nat → Text) (index : Nat)
    (text : Text) : Option ((Nat → Text) × Text) := do
  let streamBuffer := buffers index
  let text ← chunkText decode request streamBuffer index text
  let delta := text.drop streamBuffer.length
  some (Function.update buffers index (streamBuffer ++ delta), delta)

/-- `generate_stream_resp`: each delta with its index. -/
def generateStreamResp (request : CompletionRequest) :
    (Nat → Text) → List (Nat × Text) → Option (List (Nat × Text))
  | _, [] => some []
  | buffers, (index, text) :: rest => do
    let (buffers, delta) ← streamChunk decode request buffers index text
    let deltas ← generateStreamResp request buffers rest
    some ((index, delta) :: deltas)

/-- What arrives under an index, in order. -/
def ofIndex (index : Nat) (items : List (Nat × Text)) : List Text :=
  (items.filter fun item => item.1 = index).map Prod.snd

/-- The text that a client puts together for an index. -/
def streamedText (index : Nat) (deltas : List (Nat × Text)) : Text :=
  (ofIndex index deltas).flatten

/-- The deltas streamed for an index make up the text of its choice in the response. -/
def StreamAgrees (request : CompletionRequest) (contents : List (Nat × Text))
    (ret : List Text) (index : Nat) : Prop :=
  ∃ deltas choices, generateStreamResp decode request (fun _ => []) contents = some deltas ∧
    v1GenerateResponse decode request ret = some choices ∧
    choices[index]? = some (streamedText index deltas)

/-- What a chunk makes of the buffer of its index, with `prompt` before the first one. -/
def grow (prompt buffer text : Text) : Text :=
  buffer ++ (if buffer = [] then prompt ++ text else text).drop buffer.length

variable {decode} {request : CompletionRequest} {buffers buffers' : Nat → Text}
  {contents deltas : List (Nat × Text)} {index i : Nat} {prompt text delta first last : Text}
  {texts : List Text}

/-- The prompt that goes before the first chunk of an index, if any. -/
def echoed (decode : List Nat → Text) (request : CompletionRequest) (index : Nat) : Option Text :=
  if request.echo then streamPrompt decode request index else some []

theorem streamChunk_grows (h : streamChunk decode request buffers index text =
    some (buffers', delta)) (hprompt : echoed decode request index = some prompt) :
    buffers index ++ delta = grow prompt (buffers index) text ∧
      buffers' = Function.update buffers index (buffers index ++ delta) := by
  unfold echoed at hprompt
  obtain ⟨whole, hwhole, h⟩ := Option.bind_eq_some_iff.mp h
  cases h
  refine ⟨?_, rfl⟩
  unfold chunkText at hwhole
  unfold grow
  by_cases hbuf : buffers index = []
  · cases hecho : request.echo with
    | true =>
      simp only [hecho, if_true] at hprompt
      simp only [hbuf, hecho, and_self, if_true, hprompt, Option.map_some,
        Option.some.injEq] at hwhole
      simp [hbuf, ← hwhole]
    | false =>
      simp only [hecho, Bool.false_eq_true, if_false, Option.some.injEq] at hprompt
      simp only [hecho, Bool.false_eq_true, and_false, if_false, Option.some.injEq] at hwhole
      simp [hbuf, ← hprompt, ← hwhole]
  · simp only [hbuf, false_and, if_false, Option.some.injEq] at hwhole
    simp [hbuf, ← hwhole]

/-- The deltas of an index continue its buffer. -/
theorem generateStreamResp_grows
    (h : generateStreamResp decode request buffers contents = some deltas)
    (hprompt : echoed decode request i = some prompt) :
    buffers i ++ streamedText i deltas = (ofIndex i contents).foldl (grow prompt) (buffers i) := by
  induction contents generalizing buffers deltas with
  | nil =>
    cases h
    simp [streamedText, ofIndex]
  | cons content rest ih =>
    obtain ⟨index, text⟩ := content
    obtain ⟨⟨buffers', delta⟩, hchunk, h⟩ := Option.bind_eq_some_iff.mp h
    obtain ⟨deltas', hrest, h⟩ := Option.bind_eq_some_iff.mp h
    cases h
    have hstep := ih hrest
    by_cases hi : index = i
    · subst hi
      obtain ⟨hgrow, hbuf⟩ := streamChunk_grows hchunk hprompt
      rw [hbuf, Function.update_self, hgrow] at hstep
      have hcontents : ofIndex index ((index, text) :: rest) = text :: ofIndex index rest := by
        simp [ofIndex]
      have hdeltas : streamedText index ((index, delta) :: deltas') =
          delta ++ streamedText index deltas' := by
        simp [streamedText, ofIndex]
      rw [hcontents, hdeltas, List.foldl_cons, ← hstep, ← hgrow, List.append_assoc]
    · have hbuf : buffers' i = buffers i := by
        obtain ⟨whole, -, hwhole⟩ := Option.bind_eq_some_iff.mp hchunk
        cases hwhole
        exact Function.update_of_ne (Ne.symm hi) _ _
      have hcontents : ofIndex i ((index, text) :: rest) = ofIndex i rest := by
        simp [ofIndex, hi]
      have hdeltas : streamedText i ((index, delta) :: deltas') = streamedText i deltas' := by
        simp [streamedText, ofIndex, hi]
      rw [hcontents, hdeltas, ← hbuf]
      exact hstep

/-- The stream goes through when every index has its prompt. -/
theorem generateStreamResp_ok (buffers : Nat → Text)
    (h : ∀ content ∈ contents, (echoed decode request content.1).isSome) :
    ∃ deltas, generateStreamResp decode request buffers contents = some deltas := by
  induction contents generalizing buffers with
  | nil => exact ⟨[], rfl⟩
  | cons content rest ih =>
    obtain ⟨index, text⟩ := content
    have hchunk : ∃ r, streamChunk decode request buffers index text = some r := by
      have hprompt := h (index, text) List.mem_cons_self
      unfold streamChunk chunkText
      by_cases hfirst : buffers index = [] ∧ request.echo = true
      · obtain ⟨p, hp⟩ := Option.isSome_iff_exists.mp hprompt
        simp only [echoed, hfirst.2, if_true] at hp
        simp [hfirst, hp]
      · simp [hfirst]
    obtain ⟨⟨buffers', delta⟩, hr⟩ := hchunk
    obtain ⟨deltas, hd⟩ := ih buffers' fun c hc => h c (List.mem_cons_of_mem _ hc)
    exact ⟨(index, delta) :: deltas, by simp [generateStreamResp, hr, hd]⟩

end FastPP
