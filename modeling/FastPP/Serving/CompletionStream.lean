import FastPP.Serving.Completions

namespace FastPP

variable {decode : List Nat → Text} {request : CompletionRequest} {contents : List (Nat × Text)}
  {index : Nat} {prompt buffer first last : Text} {texts ret : List Text}

theorem grow_started (h : buffer ≠ []) (text : Text) :
    grow prompt buffer text = buffer ++ text.drop buffer.length := by
  simp [grow, h]

@[simp] theorem grow_first (prompt text : Text) : grow prompt [] text = prompt ++ text := by
  simp [grow]

theorem grow_ne_nil (h : buffer ≠ []) (text : Text) : grow prompt buffer text ≠ [] := by
  rw [grow_started h]
  simp [h]

/-- Texts that are no longer than the buffer add nothing. -/
theorem foldl_grow_short (hne : buffer ≠ []) (h : ∀ text ∈ texts, text.length ≤ buffer.length) :
    texts.foldl (grow prompt) buffer = buffer := by
  induction texts with
  | nil => rfl
  | cons text rest ih =>
    have hstep : grow prompt buffer text = buffer := by
      rw [grow_started hne, List.drop_eq_nil_of_le (h text List.mem_cons_self), List.append_nil]
    rw [List.foldl_cons, hstep]
    exact ih fun t ht => h t (List.mem_cons_of_mem _ ht)

/-- A buffer that has started never gets longer than the longest text. -/
theorem foldl_grow_length_le (prompt : Text) {n : Nat} (hne : buffer ≠ []) (hbuf : buffer.length ≤ n)
    (h : ∀ text ∈ texts, text.length ≤ n) :
    (texts.foldl (grow prompt) buffer).length ≤ n := by
  induction texts generalizing buffer with
  | nil => exact hbuf
  | cons text rest ih =>
    apply ih (grow_ne_nil hne text)
    · have htext := h text List.mem_cons_self
      rw [grow_started hne, List.length_append, List.length_drop]
      omega
    · exact fun t ht => h t (List.mem_cons_of_mem _ ht)

/-- Without a prompt the buffer is the text so far. -/
theorem foldl_grow_nil (hchain : (buffer :: texts).IsChain (· <+: ·)) :
    texts.foldl (grow []) buffer = (buffer :: texts).getLast (by simp) := by
  induction texts generalizing buffer with
  | nil => rfl
  | cons text rest ih =>
    obtain ⟨hpre, hrest⟩ := List.isChain_cons_cons.mp hchain
    have hstep : grow [] buffer text = text := by
      obtain ⟨more, rfl⟩ := hpre
      simp [grow]
    rw [List.foldl_cons, hstep, ih hrest, List.getLast_cons_cons]

theorem chain_prefix_last (hchain : (first :: texts).IsChain (· <+: ·))
    (hlast : (first :: texts).getLast? = some last) : ∀ text ∈ first :: texts, text <+: last := by
  induction texts generalizing first with
  | nil =>
    cases hlast
    simp
  | cons next rest ih =>
    obtain ⟨hpre, hrest⟩ := List.isChain_cons_cons.mp hchain
    have hall := ih hrest (by simpa using hlast)
    intro text htext
    rcases List.mem_cons.mp htext with rfl | hmem
    · exact hpre.trans (hall next List.mem_cons_self)
    · exact hall text hmem

/-- The stream of one choice ends with the prompt and the whole text exactly when there
is no prompt or the first chunk had the whole text. -/
theorem foldl_grow_eq_iff (hchain : (first :: texts).IsChain (· <+: ·))
    (hlast : (first :: texts).getLast? = some last) :
    (first :: texts).foldl (grow prompt) [] = prompt ++ last ↔ prompt = [] ∨ last = first := by
  have hpre := chain_prefix_last hchain hlast
  by_cases hprompt : prompt = []
  · subst hprompt
    have hend : (first :: texts).getLast (by simp) = last := by
      rw [List.getLast?_eq_some_getLast (by simp)] at hlast
      exact Option.some.inj hlast
    rw [List.foldl_cons, grow_first, List.nil_append, foldl_grow_nil hchain, hend]
    simp
  · have hne : prompt ++ first ≠ [] := by simp [hprompt]
    have hpos : 0 < prompt.length := List.length_pos_of_ne_nil hprompt
    rw [List.foldl_cons, grow_first]
    constructor
    · intro heq
      right
      have hbuf : (prompt ++ first).length ≤ max (prompt.length + first.length) last.length := by
        simp
      have htexts : ∀ text ∈ texts,
          text.length ≤ max (prompt.length + first.length) last.length := by
        intro text htext
        have hle := (hpre text (List.mem_cons_of_mem _ htext)).length_le
        omega
      have hlen := foldl_grow_length_le prompt hne hbuf htexts
      rw [heq, List.length_append] at hlen
      exact ((hpre first List.mem_cons_self).eq_of_length_le (by omega)).symm
    · intro h
      have hsame : last = first := h.resolve_left hprompt
      rw [hsame] at hpre ⊢
      apply foldl_grow_short hne
      intro text htext
      have hle := (hpre text (List.mem_cons_of_mem _ htext)).length_le
      rw [List.length_append]
      omega

/-- The prompt that the stream puts before a choice is the one of the response, unless
the stream fails to read it. -/
theorem streamPrompt_eq (hprompt : request.prompt.isEmptyList = false)
    (hindex : (request.prompt.decoded decode)[index / request.n]? = some prompt) :
    streamPrompt decode request index =
      if request.prompt.startsEmpty then none else some prompt := by
  obtain ⟨prompt', n, echo⟩ := request
  cases prompt' with
  | str p =>
    have hone : [p][index / n]? = some prompt := hindex
    have hp : p = prompt := (List.mem_singleton.mp (List.mem_of_getElem? hone)).symm
    subst hp
    rfl
  | strs prompts => exact hindex
  | ids ids =>
    have hone : [decode ids][index / n]? = some prompt := hindex
    have hp : decode ids = prompt := (List.mem_singleton.mp (List.mem_of_getElem? hone)).symm
    have hids : ids ≠ [] := by simpa [Prompt.isEmptyList] using hprompt
    subst hp
    simp [streamPrompt, hids, Prompt.startsEmpty]
  | idLists prompts =>
    have hmap : (prompts[index / n]?).map decode = some prompt := by
      rw [← List.getElem?_map]
      exact hindex
    simp only [streamPrompt, hmap]

theorem streamPrompt_startsEmpty (h : request.prompt.startsEmpty = true) (index : Nat) :
    streamPrompt decode request index = none := by
  unfold streamPrompt
  split
  next hp => simp [hp, Prompt.startsEmpty] at h
  next hp => simp [hp, Prompt.startsEmpty] at h
  next hp => simp [hp, Prompt.startsEmpty] at h
  next => rw [if_pos h]

/-- The stream raises on its first chunk when it cannot read the prompt. -/
theorem generateStreamResp_startsEmpty (h : request.prompt.startsEmpty = true)
    (hecho : request.echo = true) (hne : contents ≠ []) :
    generateStreamResp decode request (fun _ => []) contents = none := by
  obtain ⟨⟨index, text⟩, rest, rfl⟩ := List.exists_cons_of_ne_nil hne
  simp [generateStreamResp, streamChunk, chunkText, hecho, streamPrompt_startsEmpty h]

/-- The choices of an echoed response: each has its own prompt before its text. -/
theorem echoTexts_eq (prompts : List Text) (n start : Nat)
    (h : start + ret.length ≤ n * prompts.length) :
    ∃ choices, echoTexts prompts n start ret = some choices ∧
      ∀ i p t, prompts[(start + i) / n]? = some p → ret[i]? = some t →
        choices[i]? = some (p ++ t) := by
  induction ret generalizing start with
  | nil => exact ⟨[], rfl, fun i p t _ ht => by simp at ht⟩
  | cons text rest ih =>
    simp only [List.length_cons] at h
    have hlt : start / n < prompts.length := Nat.div_lt_of_lt_mul (by omega)
    obtain ⟨choices, hrest, hall⟩ := ih (start + 1) (by omega)
    have hprompt : prompts[start / n]? = some prompts[start / n] := List.getElem?_eq_getElem hlt
    refine ⟨(prompts[start / n] ++ text) :: choices, ?_, ?_⟩
    · simp [echoTexts, hprompt, hrest]
    · intro i p t hp ht
      cases i with
      | zero =>
        rw [Nat.add_zero, hprompt] at hp
        cases hp
        cases ht
        rfl
      | succ i =>
        have hp' : prompts[(start + 1 + i) / n]? = some p := by
          rw [← hp]
          congr 2
          omega
        exact hall i p t hp' ht

/-- The text of a choice in the response. -/
theorem response_text (hprompt : request.prompt.isEmptyList = false)
    (hret : ret.length ≤ request.n * (request.prompt.decoded decode).length)
    (hindex : (request.prompt.decoded decode)[index / request.n]? = some prompt)
    (hlast : ret[index]? = some last) :
    ∃ choices, v1GenerateResponse decode request ret = some choices ∧
      choices[index]? = some (if request.echo then prompt ++ last else last) := by
  unfold v1GenerateResponse responsePrompts
  cases request.echo with
  | false => exact ⟨ret, rfl, hlast⟩
  | true =>
    obtain ⟨choices, hchoices, hall⟩ := echoTexts_eq (request.prompt.decoded decode) request.n 0
      (show 0 + ret.length ≤ _ by omega)
    refine ⟨choices, ?_, ?_⟩
    · simp [hprompt, hchoices]
    · exact hall index prompt last (by simpa using hindex) hlast

/-- The streamed deltas of a choice make up its text in the response exactly when nothing
is echoed, or the stream can read the prompt and either there is no prompt text or the
first chunk of the choice had its whole text. -/
theorem streamAgrees_iff (hprompt : request.prompt.isEmptyList = false)
    (hcontents : ∀ content ∈ contents,
      content.1 < request.n * (request.prompt.decoded decode).length)
    (hret : ret.length ≤ request.n * (request.prompt.decoded decode).length)
    (hindex : (request.prompt.decoded decode)[index / request.n]? = some prompt)
    (htexts : ofIndex index contents = first :: texts)
    (hchain : (first :: texts).IsChain (· <+: ·))
    (hlast : (first :: texts).getLast? = some last) (hanswer : ret[index]? = some last) :
    StreamAgrees decode request contents ret index ↔
      request.echo = false ∨
        (request.prompt.startsEmpty = false ∧ (prompt = [] ∨ last = first)) := by
  obtain ⟨choices, hchoices, htext⟩ := response_text hprompt hret hindex hanswer
  have hagrees : ∀ deltas, generateStreamResp decode request (fun _ => []) contents = some deltas →
      (StreamAgrees decode request contents ret index ↔
        streamedText index deltas = if request.echo then prompt ++ last else last) := by
    intro deltas hdeltas
    unfold StreamAgrees
    simp only [hdeltas, hchoices, Option.some.injEq, exists_eq_left', exists_and_left, htext]
    exact eq_comm
  cases hecho : request.echo with
  | false =>
    have hall : ∀ i, echoed decode request i = some [] := fun i => by simp [echoed, hecho]
    have hprompts : ∀ content ∈ contents, (echoed decode request content.1).isSome :=
      fun content _ => by simp [hall content.1]
    obtain ⟨deltas, hdeltas⟩ := generateStreamResp_ok (fun _ => []) hprompts
    have hgrows := generateStreamResp_grows hdeltas (hall index)
    have hfold : (first :: texts).foldl (grow []) [] = [] ++ last :=
      (foldl_grow_eq_iff hchain hlast).mpr (.inl rfl)
    rw [htexts, hfold] at hgrows
    simp only [hagrees deltas hdeltas, hecho, Bool.false_eq_true, if_false, true_or, iff_true]
    exact hgrows
  | true =>
    simp only [Bool.true_eq_false, false_or]
    cases hstart : request.prompt.startsEmpty with
    | true =>
      have hne : contents ≠ [] := by
        intro he
        rw [he] at htexts
        simp [ofIndex] at htexts
      simp [StreamAgrees, generateStreamResp_startsEmpty hstart hecho hne]
    | false =>
      have hall : ∀ i p, (request.prompt.decoded decode)[i / request.n]? = some p →
          echoed decode request i = some p := by
        intro i p hp
        simp [echoed, hecho, streamPrompt_eq hprompt hp, hstart]
      have hprompts : ∀ content ∈ contents, (echoed decode request content.1).isSome := by
        intro content hmem
        have hlt := Nat.div_lt_of_lt_mul (hcontents content hmem)
        rw [hall content.1 _ (List.getElem?_eq_getElem hlt)]
        rfl
      obtain ⟨deltas, hdeltas⟩ := generateStreamResp_ok (fun _ => []) hprompts
      have hgrows := generateStreamResp_grows hdeltas (hall index prompt hindex)
      rw [htexts, List.nil_append] at hgrows
      simp only [hagrees deltas hdeltas, hecho, if_true, true_and]
      rw [hgrows]
      exact foldl_grow_eq_iff hchain hlast

/-- A completion request for one choice that echoes its prompt. -/
def echoRequest : CompletionRequest where
  prompt := .str ['h', 'i', ' ']
  n := 1
  echo := true

/-- A prompt of three characters and a text that arrives one character at a time: only
the first one is streamed. -/
theorem echoed_stream_loses_text :
    ¬ StreamAgrees (fun _ => []) echoRequest [(0, ['a']), (0, ['a', 'b'])] [['a', 'b']] 0 := by
  rintro ⟨deltas, choices, hdeltas, hchoices, hagree⟩
  cases hdeltas
  cases hchoices
  exact absurd hagree (by decide)

theorem streamAgrees_iff_echoRequest :
    StreamAgrees (fun _ => []) echoRequest [(0, ['a', 'b'])] [['a', 'b']] 0 ↔
      echoRequest.echo = false ∨ (echoRequest.prompt.startsEmpty = false ∧
        (['h', 'i', ' '] = ([] : Text) ∨ (['a', 'b'] : Text) = ['a', 'b'])) :=
  streamAgrees_iff (by decide) (by decide) (by decide) rfl
    (show ofIndex 0 [(0, ['a', 'b'])] = ['a', 'b'] :: [] from rfl) (by simp) rfl rfl

end FastPP
