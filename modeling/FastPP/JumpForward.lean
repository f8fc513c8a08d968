import FastPP.Detok.Streaming
import FastPP.Admission

namespace FastPP

/-- The tokenizer; the plain `decode` is the one without flags. -/
structure JumpTokenizer where
  decodeWith : (skipSpecialTokens spacesBetweenSpecialTokens : Bool) → List Nat → String
  decode : List Nat → String
  encode : String → List Nat

/-- The grammar backend. A jump helper is the suffix ids and what the backend adds; the states
are its own, and `none` is a failed assertion. -/
structure GrammarBackend (G Data State : Type) where
  tryJumpForward : G → Option JumpTokenizer → G × Option (List Nat × Data)
  jumpForwardStrState : G → List Nat × Data → String × State
  jumpAndRetokenize : G → List Nat → List Nat → State → Option G

/-- The fields of a request that a jump forward reads or sets. -/
structure JumpReq (G : Type) where
  originInputIds : List Nat
  originInputIdsUnpadded : List Nat
  originInputText : Option String
  outputIds : List Nat
  decodedText : String
  surrOffset : Option Int
  readOffset : Option Int
  vid : Nat
  grammar : Option G
  tokenizer : Option JumpTokenizer
  skipSpecialTokens : Bool
  spacesBetweenSpecialTokens : Bool
  imageInputs : Option Nat
  returnLogprob : Bool
  outputTokenLogprobsVal : List Rat
  outputTokenLogprobsIdx : List Nat
  outputTopLogprobsVal : List (List Rat)
  outputTopLogprobsIdx : List (List Nat)
  logprobStartLen : Int
  lastUpdateDecodeTokens : Int
  reqPoolIdx : Option Nat
  prefixIndices : List Nat
  lastNode : Option Nat

/-- `text.endswith("�")`. -/
def endsBroken (text : String) : Bool := decide (text.toList.getLast? = some replacement)

namespace JumpReq

variable {G Data State M : Type}

/-- `init_incremental_detokenize`: the ids to read and the offset of the new ones. -/
def initIncrementalDetokenize (req : JumpReq G) : JumpReq G × List Nat × Int :=
  let start : Int := req.originInputIdsUnpadded.length
  let offsets : Int × Int :=
    match req.surrOffset, req.readOffset with
    | some surrOffset, some readOffset => (surrOffset, readOffset)
    | _, _ => (max (start - initIncrementalDetokenizationOffset) 0, start)
  let allIds := req.originInputIdsUnpadded ++ req.outputIds
  ({ req with surrOffset := some offsets.1, readOffset := some offsets.2 },
    sliceFrom allIds offsets.1, offsets.2 - offsets.1)

/-- `get_next_inc_detokenization`, with the new text if it can be shown. -/
def getNextIncDetokenization (req : JumpReq G) : JumpReq G × Option String :=
  match req.tokenizer with
  | none => (req, none)
  | some tokenizer =>
    let decode := tokenizer.decodeWith req.skipSpecialTokens req.spacesBetweenSpecialTokens
    let init := req.initIncrementalDetokenize
    let surrText := decode (sliceTo init.2.1 init.2.2)
    let newText := decode init.2.1
    if surrText.length < newText.length ∧ ¬ endsBroken newText then
      (init.1, some (String.ofList (newText.toList.drop surrText.length)))
    else (init.1, none)

/-- The checks of `jump_forward_and_retokenize`: the ids of the new text, if they pass.
The outer `none` is a raised exception. -/
def retokenize (tokenizer : JumpTokenizer) (req : JumpReq G) (text jumpForwardStr : String) :
    Option (Option (List Nat)) :=
  let allIds := tokenizer.encode (text ++ req.decodedText ++ jumpForwardStr)
  let promptTokens := req.originInputIdsUnpadded.length
  if allIds = [] then some none
  else if allIds.length < promptTokens then some none
  else do
    let lastId ← req.originInputIdsUnpadded.getLast?
    let id ← allIds[promptTokens - 1]?
    pure (if id ≠ lastId then none else some allIds)

/-- The surrounding offset after a jump: the longest suffix is tried last. -/
def jumpSurrOffset (tokenizer : JumpTokenizer) (promptTokens : Nat) (allIds : List Nat) : Int :=
  match (List.range initIncrementalDetokenizationOffset).find? fun i =>
    !endsBroken (tokenizer.decode (sliceFrom allIds ((allIds.length : Int) - i))) with
  | some i => (allIds.length : Int) - i
  | none => promptTokens

/-- The number of old ids that are kept; a new list that is a proper prefix of the old one is
read beyond its end. -/
def keptIds : List Nat → List Nat → Option Nat
  | [], _ => some 0
  | _ :: _, [] => none
  | old :: olds, new :: news =>
    if old = new then (keptIds olds news).map (· + 1) else some 0

/-- The logprobs of the ids that are replaced are dropped. -/
def cutLogprobs (req : JumpReq G) (oldOutputIds : List Nat) (promptTokens : Nat) :
    Option (JumpReq G) :=
  if req.returnLogprob then do
    let k ← keptIds oldOutputIds req.outputIds
    pure { req with
      outputTokenLogprobsVal := req.outputTokenLogprobsVal.take k
      outputTokenLogprobsIdx := req.outputTokenLogprobsIdx.take k
      outputTopLogprobsVal := req.outputTopLogprobsVal.take k
      outputTopLogprobsIdx := req.outputTopLogprobsIdx.take k
      logprobStartLen := promptTokens + k
      lastUpdateDecodeTokens := (req.outputIds.length : Int) - k }
  else some req

/-- `jump_forward_and_retokenize`: the request and whether it jumped. -/
def jumpForwardAndRetokenize (backend : GrammarBackend G Data State) (grammar : G)
    (req : JumpReq G) (jumpForwardStr : String) (nextState : State) :
    Option (JumpReq G × Bool) := do
  let tokenizer ← req.tokenizer
  let text := req.originInputText.getD (tokenizer.decode req.originInputIdsUnpadded)
  let req := { req with originInputText := some text }
  let retokenized ← req.retokenize tokenizer text jumpForwardStr
  match retokenized with
  | none => pure (req, false)
  | some allIds =>
    let promptTokens := req.originInputIdsUnpadded.length
    let oldOutputIds := req.outputIds
    let req := { req with
      outputIds := allIds.drop promptTokens
      decodedText := req.decodedText ++ jumpForwardStr
      surrOffset := some (jumpSurrOffset tokenizer promptTokens allIds)
      readOffset := some allIds.length }
    let grammar ← backend.jumpAndRetokenize grammar oldOutputIds req.outputIds nextState
    let req ← { req with grammar := some grammar }.cutLogprobs oldOutputIds promptTokens
    pure (req, true)

/-- The rest of the scheduler: `tree_cache.cache_finished_req`, `pad_input_ids_func` and the
order of `list` on a set. -/
structure Surroundings (M G : Type) where
  cacheFinishedReq : M → JumpReq G → List Nat → Option M
  padInputIds : List Nat → Nat → List Nat
  listSet : List Nat → List Nat
  listSet_perm : ∀ indices, (listSet indices).Perm indices

/-- One request of `check_for_jump_forward`, and whether it is returned. -/
def checkRequest (backend : GrammarBackend G Data State) (env : Surroundings M G) (mem : M)
    (req : JumpReq G) : Option (M × JumpReq G × Bool) :=
  match req.grammar with
  | none => some (mem, req, false)
  | some grammar =>
    match backend.tryJumpForward grammar req.tokenizer with
    | (grammar, none) => some (mem, { req with grammar := some grammar }, false)
    | (grammar, some helper) => do
      let curAllIds := (req.originInputIds ++ req.outputIds).dropLast
      -- `extend` works on the list itself, which `cur_output_ids` names as well
      let req := { req with grammar := some grammar, outputIds := req.outputIds ++ helper.1 }
      let curOutputIds := req.outputIds
      match req.getNextIncDetokenization with
      | (req, none) => pure (mem, { req with outputIds := curOutputIds }, false)
      | (req, some newText) =>
        let (jumpForwardStr, nextState) := backend.jumpForwardStrState grammar helper
        let (req, jumped) ← req.jumpForwardAndRetokenize backend grammar
          (newText ++ jumpForwardStr) nextState
        if ¬ jumped then pure (mem, { req with outputIds := curOutputIds }, false)
        else
          let req := { req with vid := req.vid + 1 }
          let mem ← env.cacheFinishedReq mem req curAllIds
          let originInputIds := match req.imageInputs with
            | none => req.originInputIds
            | some images => env.padInputIds req.originInputIdsUnpadded images
          pure (mem, { req with originInputIds }, true)

/-- The loop of `check_for_jump_forward`. -/
def checkRequests (backend : GrammarBackend G Data State) (env : Surroundings M G) :
    M → List (JumpReq G) → Option (M × List (JumpReq G × Bool))
  | mem, [] => some (mem, [])
  | mem, req :: reqs => do
    let (mem, req, returned) ← checkRequest backend env mem req
    let (mem, rest) ← checkRequests backend env mem reqs
    pure (mem, (req, returned) :: rest)

/-- What `check_for_jump_forward` leaves: the requests, and the indices of those that stay in
the batch and of those that are returned. -/
structure Checked (M G : Type) where
  mem : M
  reqs : List (JumpReq G)
  kept : List Nat
  returned : List Nat

/-- `self.filter_batch(keep_indices=list(keep_indices))`, by the indices that stay. -/
def filterKept (bs : Nat) (keepIndices : List Nat) : List Nat :=
  if keepIndices.length = bs then List.range bs else keepIndices

/-- `check_for_jump_forward`. -/
def checkForJumpForward (backend : GrammarBackend G Data State) (env : Surroundings M G) (mem : M)
    (reqs : List (JumpReq G)) : Option (Checked M G) := do
  let (mem, out) ← checkRequests backend env mem reqs
  let isReturned (i : Nat) : Bool := (out[i]?.map Prod.snd).getD false
  let indices := List.range reqs.length
  pure {
    mem
    reqs := out.map Prod.fst
    kept := filterKept reqs.length (env.listSet (indices.filter fun i => !isReturned i))
    returned := indices.filter isReturned }

end JumpReq

end FastPP
