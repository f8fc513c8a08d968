import FastPP.SlotCalls
import FastPP.Lib.Segments

namespace FastPP

open Spans

/-- The extend range `[len(prefix_indices), len(fill_ids))` of a request in one prefill batch,
out of `target` tokens; a fresh one comes from the waiting queue. -/
structure Chunk extends Span where
  target : Nat
  fresh : Bool
  deriving DecidableEq

/-- The chunk reaches the last token of its request. -/
def Chunk.isLast (chunk : Chunk) : Bool := decide (chunk.stop = chunk.target)

/-- After a last chunk the request starts afresh; any other one is continued where it stops. -/
def Chunk.Follows (a b : Chunk) : Prop :=
  if a.isLast = true then b.fresh = true
  else b.fresh = false ∧ a.stop = b.start ∧ b.target = a.target

/-- A range within the tokens of the request, which is not empty unless it is the last one. -/
structure Chunk.Within (chunk : Chunk) : Prop where
  le : chunk.start ≤ chunk.stop
  le_target : chunk.stop ≤ chunk.target
  grows : chunk.isLast = false → chunk.start < chunk.stop

/-- The chunks of one request over time, round after round. -/
structure InRounds (chunks : List Chunk) : Prop where
  begins : ∀ c, chunks.head? = some c → c.fresh = true
  follows : chunks.IsChain Chunk.Follows
  within : ∀ c ∈ chunks, c.Within

namespace InRounds

variable {chunks : List Chunk}

theorem nil : InRounds [] := ⟨by simp, .nil, by simp⟩

/-- The next chunk: a fresh one after a last one, or the continuation. -/
theorem snoc (h : InRounds chunks) {c : Chunk} (hc : c.Within)
    (hnext : ∀ a, chunks.getLast? = some a → a.Follows c)
    (hfirst : chunks = [] → c.fresh = true) : InRounds (chunks ++ [c]) := by
  refine ⟨fun b hb => ?_, ?_, fun b hb => ?_⟩
  · cases chunks with
    | nil => simpa [← Option.some.inj hb] using hfirst rfl
    | cons a chunks => exact h.begins b (by simpa using hb)
  · refine List.isChain_append.mpr ⟨h.follows, .singleton c, fun a ha b hb => ?_⟩
    obtain rfl : c = b := by simpa using hb
    exact hnext a ha
  · rcases List.mem_append.mp hb with hb | hb
    · exact h.within b hb
    · rw [List.mem_singleton.mp hb]
      exact hc

/-- A chunk that is not fresh continues the one before it. -/
theorem continues (h : InRounds chunks) {a b : Chunk} {before after : List Chunk}
    (hsplit : chunks = before ++ a :: b :: after) (hb : b.fresh = false) :
    a.isLast = false ∧ a.stop = b.start ∧ b.target = a.target := by
  have hab := List.isChain_iff_forall_rel_of_append_cons_cons.mp h.follows hsplit
  unfold Chunk.Follows at hab
  split at hab
  next => simp [hb] at hab
  next hlast => exact ⟨Bool.eq_false_iff.mpr hlast, hab.2⟩

theorem joined (h : InRounds chunks) {c : Chunk} {before round after : List Chunk}
    (hsplit : chunks = before ++ c :: (round ++ after)) (hround : ∀ d ∈ round, d.fresh = false) :
    Joined ((c :: round).map Chunk.toSpan) ∧ ∀ d ∈ c :: round, d.target = c.target := by
  induction round generalizing c before with
  | nil => exact ⟨.singleton _, by simp⟩
  | cons d round ih =>
    obtain ⟨_, hstop, htarget⟩ := h.continues hsplit (hround d (by simp))
    have hsplit' : chunks = (before ++ [c]) ++ d :: (round ++ after) := by simp [hsplit]
    obtain ⟨hjoined, htargets⟩ := ih hsplit'
      fun e he => hround e (List.mem_cons_of_mem d he)
    refine ⟨List.isChain_cons_cons.mpr ⟨hstop, hjoined⟩, fun e he => ?_⟩
    rcases List.mem_cons.mp he with rfl | he
    · rfl
    · rw [htargets e he, htarget]

/-- The ranges of a round cover the positions from its initial prefix to where its last range
stops, each of them once and in order. -/
theorem covers (h : InRounds chunks) {c last : Chunk} {before round after : List Chunk}
    (hsplit : chunks = before ++ c :: (round ++ after)) (hround : ∀ d ∈ round, d.fresh = false)
    (hlast : (c :: round).getLast? = some last) :
    (c :: round).flatMap (fun d => d.toSpan.cells) = List.range' c.start (last.stop - c.start) := by
  have hle : ∀ s ∈ (c :: round).map Chunk.toSpan, s.start ≤ s.stop := by
    intro s hs
    obtain ⟨d, hd, rfl⟩ := List.mem_map.mp hs
    refine (h.within d ?_).le
    rw [hsplit]
    rcases List.mem_cons.mp hd with rfl | hd
    · simp
    · simp [hd]
  have hlast' : ((c :: round).map Chunk.toSpan).getLast? = some last.toSpan := by
    rw [List.getLast?_map, hlast, Option.map_some]
  rw [← List.flatMap_map Chunk.toSpan]
  exact Joined.cells (h.joined hsplit hround).1 hle hlast'

/-- A round that ends with a last chunk covers the whole request. -/
theorem covers_all (h : InRounds chunks) {c last : Chunk} {before round after : List Chunk}
    (hsplit : chunks = before ++ c :: (round ++ after)) (hround : ∀ d ∈ round, d.fresh = false)
    (hlast : (c :: round).getLast? = some last) (hends : last.isLast = true) :
    (c :: round).flatMap (fun d => d.toSpan.cells) = List.range' c.start (c.target - c.start) := by
  rw [h.covers hsplit hround hlast, of_decide_eq_true hends,
    (h.joined hsplit hround).2 last (List.mem_of_getLast? hlast)]

/-- A round is followed by another one only after its last chunk. -/
theorem ends (h : InRounds chunks) {last d : Chunk} {before after : List Chunk}
    (hsplit : chunks = before ++ last :: d :: after) (hd : d.fresh = true) :
    last.isLast = true := by
  have hab := List.isChain_iff_forall_rel_of_append_cons_cons.mp h.follows hsplit
  unfold Chunk.Follows at hab
  split at hab
  next hlast => exact hlast
  next => simp [hd] at hab

end InRounds

/-- The number of tokens of a request. -/
def Req.target (req : Req) : Nat := req.originInputIds.length + req.outputIds.length

/-- The extend range of a request that is passed to `prepare_for_extend`. -/
def Req.chunk (req : Req) (fresh : Bool) : Chunk where
  start := req.prefixLen
  stop := req.fillIds.length
  target := req.target
  fresh := fresh

namespace Sched

variable {M : Type} [MemoryPools M]

/-- The extend range of `q` in the prefill batch that an iteration forms, if it is listed. -/
def chunkOf (cfg : Config) (input : StepInput) (S : Sched M) (q : Nat) : Option Chunk := do
  let call ← S.extendCall cfg input
  if q ∈ call.2 then
    some ((call.1.heap q).chunk (decide (q ∈ (S.receive cfg input).waitingQueue)))
  else none

/-- The extend ranges of `q` in the first `n` iterations of a rank. -/
def chunks (cfg : Config) (ppRank : Nat) (mem : M) (inputs : Nat → StepInput)
    (samples : Nat → Nat → Nat) (q n : Nat) : List Chunk :=
  (List.range n).filterMap fun k =>
    (run cfg ppRank mem inputs samples k).bind fun S => S.chunkOf cfg (inputs k) q

end Sched

end FastPP
