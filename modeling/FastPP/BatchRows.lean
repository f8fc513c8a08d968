import FastPP.TurnRows
import FastPP.RebalanceLaw
import Mathlib.Algebra.BigOperators.Group.List.Basic

namespace FastPP

/-- The token that the next decode of a request reads. -/
def Req.lastToken (req : Req) : Nat := req.outputIds.getLastD 0

/-- What the sampling and logprob rows of a batch depend on. -/
structure Req.SameParams (r r' : Req) : Prop where
  samplingParams : r'.samplingParams = r.samplingParams
  returnLogprob : r'.returnLogprob = r.returnLogprob
  topLogprobsNum : r'.topLogprobsNum = r.topLogprobsNum

theorem Req.Prepared.sameParams {r r' : Req} (h : r.Prepared r') : r.SameParams r' := by
  obtain ⟨_, _, _, _, _, _, _, rfl⟩ := h
  exact ⟨rfl, rfl, rfl⟩

theorem Req.Processed.sameParams {r r' : Req} (h : r.Processed r') : r.SameParams r' := by
  obtain ⟨_, _, _, _, _, _, rfl⟩ := h
  exact ⟨rfl, rfl, rfl⟩

theorem Req.SameParams.topLogprobsEntry {r r' : Req} (h : r.SameParams r') :
    r'.topLogprobsEntry = r.topLogprobsEntry := by
  rw [Req.topLogprobsEntry, h.returnLogprob, h.topLogprobsNum, Req.topLogprobsEntry]

namespace ScheduleBatch

/-- Alignment reads the parameters of the listed requests and their rows. -/
theorem AlignedFields.congr {heap heap' : Nat → Req} {rows rows' : Rows} {batch : ScheduleBatch}
    (h : batch.AlignedFields heap rows) (hparams : ∀ q ∈ batch.reqs, (heap q).SameParams (heap' q))
    (hpool : ∀ q ∈ batch.reqs, rows'.poolIdx q = rows.poolIdx q)
    (hlen : ∀ q ∈ batch.reqs, rows'.seqLen q = rows.seqLen q) :
    batch.AlignedFields heap' rows' where
  reqPoolIndices := by rw [h.reqPoolIndices, List.map_congr_left hpool]
  seqLens := by rw [h.seqLens, List.map_congr_left hlen]
  seqLensSum := h.seqLensSum
  sampling := by
    have hsame : ∀ {α : Type} (f : SamplingParams → α),
        (batch.reqs.map fun q => f (heap' q).samplingParams) =
          batch.reqs.map fun q => f (heap q).samplingParams := fun f =>
      List.map_congr_left fun q hq => by rw [(hparams q hq).samplingParams]
    exact ⟨h.sampling.temperatures.trans (hsame _).symm, h.sampling.topPs.trans (hsame _).symm,
      h.sampling.topKs.trans (hsame _).symm, h.sampling.minPs.trans (hsame _).symm⟩
  returnLogprob := by
    rw [h.returnLogprob, Bool.eq_iff_iff, List.any_eq_true, List.any_eq_true]
    constructor
    · rintro ⟨q, hq, hlp⟩
      exact ⟨q, hq, (hparams q hq).returnLogprob.trans hlp⟩
    · rintro ⟨q, hq, hlp⟩
      exact ⟨q, hq, (hparams q hq).returnLogprob.symm.trans hlp⟩
  topLogprobsNums := fun hlp => by
    rw [h.topLogprobsNums hlp]
    exact congrArg some (List.map_congr_left fun q hq => (hparams q hq).topLogprobsEntry.symm)

end ScheduleBatch

namespace Sched

/-- What the rows of a batch should say about its requests. The KV length counts the
last output token from the dispatch of its decode on. -/
def rows (S : Sched Memory) (dispatched : Bool) : Rows where
  poolIdx q := (S.mem.reqPoolIdx q).getD 0
  seqLen q := (S.heap q).originInputIds.length + (S.heap q).outputIds.length -
    if dispatched then 0 else 1
  outputId q := (S.heap q).lastToken

/-- The rows of a prefill batch when it is dispatched. -/
def filledRows (S : Sched Memory) : Rows where
  poolIdx q := (S.mem.reqPoolIdx q).getD 0
  seqLen q := (S.heap q).fillIds.length
  outputId q := (S.heap q).lastToken

/-- Nothing that the row of a request depends on changed. -/
structure RowKept (S S' : Sched Memory) (q : Nat) : Prop where
  params : (S.heap q).SameParams (S'.heap q)
  originInputIds : (S'.heap q).originInputIds = (S.heap q).originInputIds
  outputIds : (S'.heap q).outputIds = (S.heap q).outputIds
  reqPoolIdx : S'.mem.reqPoolIdx q = S.mem.reqPoolIdx q

theorem RowKept.of_prepared {S S' : Sched Memory} {q : Nat} (h : (S.heap q).Prepared (S'.heap q))
    (hidx : S'.mem.reqPoolIdx q = S.mem.reqPoolIdx q) : RowKept S S' q := by
  refine ⟨h.sameParams, ?_, ?_, hidx⟩
  · obtain ⟨_, _, _, _, _, _, _, hq⟩ := h
    rw [hq]
  · obtain ⟨_, _, _, _, _, _, _, hq⟩ := h
    rw [hq]

theorem RowKept.trans {S S' S'' : Sched Memory} {q : Nat} (h : RowKept S S' q)
    (h' : RowKept S' S'' q) : RowKept S S'' q where
  params := ⟨h'.params.samplingParams.trans h.params.samplingParams,
    h'.params.returnLogprob.trans h.params.returnLogprob,
    h'.params.topLogprobsNum.trans h.params.topLogprobsNum⟩
  originInputIds := h'.originInputIds.trans h.originInputIds
  outputIds := h'.outputIds.trans h.outputIds
  reqPoolIdx := h'.reqPoolIdx.trans h.reqPoolIdx

theorem RowKept.rows {S S' : Sched Memory} {q : Nat} (h : RowKept S S' q) (dispatched : Bool) :
    (S'.rows dispatched).poolIdx q = (S.rows dispatched).poolIdx q ∧
      (S'.rows dispatched).seqLen q = (S.rows dispatched).seqLen q ∧
      (S'.rows dispatched).outputId q = (S.rows dispatched).outputId q := by
  simp only [Sched.rows, Req.lastToken, h.originInputIds, h.outputIds, h.reqPoolIdx, and_self]

/-- A batch whose rows are those of its requests, before or after its decode is dispatched. -/
structure AlignedAt (S : Sched Memory) (dispatched : Bool) (batch : ScheduleBatch) : Prop
    extends ScheduleBatch.AlignedFields S.heap (S.rows dispatched) batch where
  outputIds : dispatched = false →
    batch.outputIds = some (batch.reqs.map (S.rows false).outputId)
  started : dispatched = false → ∀ q ∈ batch.reqs, (S.heap q).outputIds ≠ []

theorem AlignedAt.keep {S S' : Sched Memory} {dispatched : Bool} {batch : ScheduleBatch}
    (h : S.AlignedAt dispatched batch) (hkept : ∀ q ∈ batch.reqs, RowKept S S' q) :
    S'.AlignedAt dispatched batch where
  toAlignedFields := h.toAlignedFields.congr (fun q hq => (hkept q hq).params)
    (fun q hq => ((hkept q hq).rows dispatched).1) fun q hq => ((hkept q hq).rows dispatched).2.1
  outputIds hnot := by
    rw [h.outputIds hnot]
    exact congrArg some (List.map_congr_left fun q hq => ((hkept q hq).rows false).2.2.symm)
  started hnot q hq := by
    rw [(hkept q hq).outputIds]
    exact h.started hnot q hq

theorem AlignedAt.aligned {S : Sched Memory} {batch : ScheduleBatch} (h : S.AlignedAt false batch) :
    batch.Aligned S.heap (S.rows false) :=
  ⟨h.toAlignedFields, h.outputIds rfl⟩

theorem AlignedAt.of_aligned {S : Sched Memory} {batch : ScheduleBatch}
    (h : batch.Aligned S.heap (S.rows false))
    (hstarted : ∀ q ∈ batch.reqs, (S.heap q).outputIds ≠ []) : S.AlignedAt false batch :=
  ⟨h.toAlignedFields, fun _ => h.outputIds, fun _ => hstarted⟩

/-- A non-empty selection of the rows of an aligned batch is aligned. -/
theorem AlignedAt.filterIndices {S : Sched Memory} {indices kept : List Nat}
    {batch out : ScheduleBatch} (h : S.AlignedAt false batch)
    (hkept : gather batch.reqs indices = some kept)
    (hf : batch.filterIndices S.heap indices = some out) (hreqs : out.reqs = kept)
    (hne : kept ≠ []) : S.AlignedAt false out := by
  obtain ⟨out', hout, haligned⟩ := h.aligned.filterIndices hkept
  cases Option.some.inj (hf.symm.trans hout)
  exact .of_aligned (haligned hne) fun q hq =>
    h.started rfl q (mem_of_gather hkept (hreqs ▸ hq))

theorem AlignedAt.filterBatch {S : Sched Memory} {chunk : Option Nat} {batch out : ScheduleBatch}
    (h : S.AlignedAt false batch) (hf : batch.filterBatch S.heap chunk = some out)
    (hne : out.reqs ≠ []) : S.AlignedAt false out := by
  have hreqs := ScheduleBatch.filterBatch_reqs hf
  exact h.filterIndices (ScheduleBatch.gather_keepIndices S.heap chunk batch) hf hreqs
    (hreqs ▸ hne)

/-- Decoding moves every row on by one token. -/
theorem prepareForDecode_aligned {S S' : Sched Memory} {batch out : ScheduleBatch}
    (ha : S.AlignedAt false batch) (h : S.prepareForDecode batch = some (S', out)) :
    S'.AlignedAt true out ∧
      out.inputIds = some (out.reqs.map fun q => (S'.heap q).lastToken) ∧
      S'.heap = S.heap ∧ S'.mem.reqPoolIdx = S.mem.reqPoolIdx := by
  have hidx := (prepareForDecode_rows h).reqPoolIdx
  obtain ⟨_, _, hwrite⟩ := Option.bind_eq_some_iff.mp h
  obtain ⟨mem, _, hpair⟩ := Option.bind_eq_some_iff.mp hwrite
  obtain ⟨rfl, rfl⟩ := Prod.mk.inj (Option.some.inj hpair)
  clear h hwrite hpair
  dsimp only at hidx
  refine ⟨⟨⟨?_, ?_, ?_, ha.sampling, ha.returnLogprob, ha.topLogprobsNums⟩, nofun, nofun⟩,
    ha.outputIds rfl, rfl, hidx⟩
  · simp only [Sched.rows, hidx]
    exact ha.reqPoolIndices
  · simp only [ha.seqLens, List.map_map]
    refine List.map_congr_left fun q hq => ?_
    have hpos := List.length_pos_iff.mpr (ha.started rfl q hq)
    simp only [Sched.rows, Function.comp, Bool.false_eq_true, if_false, if_true]
    omega
  · have hlen : batch.seqLens.length = batch.batchSize := by
      rw [ha.seqLens, List.length_map, ScheduleBatch.batchSize]
    simp [List.sum_map_add, ha.seqLensSum, hlen]

end Sched

namespace Sched

variable {cfg : Config} {S S' : Sched Memory}

/-- `prepare_for_extend` changes no tokens of a request. -/
theorem placeReqs_fillIds {pairs : List (Nat × Nat)} (h : S.placeReqs pairs = some S') (q : Nat) :
    (S'.heap q).fillIds = (S.heap q).fillIds ∧ (S'.heap q).prefixLen = (S.heap q).prefixLen := by
  induction pairs generalizing S with
  | nil => cases Option.some.inj h; exact ⟨rfl, rfl⟩
  | cons pair pairs ih =>
    obtain ⟨S₁, hplace, h⟩ := Option.bind_eq_some_iff.mp h
    rw [(ih h).1, (ih h).2]
    unfold placeReq at hplace
    dsimp only at hplace
    split at hplace
    next =>
      cases Option.some.inj hplace
      rcases eq_or_ne q pair.1 with rfl | hne
      · simp [setReq, Req.prepareForExtend]
      · simp [setReq, hne]
    next => simp at hplace

/-- Next to a request with logprobs, no request asks for top logprobs without asking for
logprobs. -/
def TopsAgree (heap : Nat → Req) (reqs : List Nat) : Prop :=
  (reqs.any fun q => (heap q).returnLogprob) = true →
    ∀ q ∈ reqs, (heap q).topLogprobsNum = (heap q).topLogprobsEntry

instance (heap : Nat → Req) (reqs : List Nat) : Decidable (TopsAgree heap reqs) :=
  inferInstanceAs (Decidable (_ → _))

theorem TopsAgree.congr {heap heap' : Nat → Req} {reqs : List Nat} (h : TopsAgree heap reqs)
    (hparams : ∀ q, (heap q).SameParams (heap' q)) : TopsAgree heap' reqs := by
  intro hany q hq
  rw [(hparams q).topLogprobsNum, (hparams q).topLogprobsEntry]
  refine h ?_ q hq
  rw [← hany]
  congr 1
  funext q
  exact (hparams q).returnLogprob.symm

/-- A new prefill batch is aligned with its requests. -/
theorem prepareForExtend_aligned {reqs : List Nat} {batch : ScheduleBatch} (hnodup : reqs.Nodup)
    (htops : TopsAgree S.heap reqs) (h : S.prepareForExtend reqs = some (S', batch)) :
    batch.AlignedFields S'.heap S'.filledRows ∧ batch.reqs = reqs ∧
      batch.inputIds = some (reqs.flatMap fun q => (S'.heap q).fillIds.drop (S'.heap q).prefixLen) ∧
      batch.outputIds = none ∧ batch.decodingReqs = none ∧ batch.forwardMode = .extend ∧
      ∀ q, (S'.heap q).fillIds = (S.heap q).fillIds := by
  have hprepared := (prepareForExtend_spec h).1.heap
  obtain ⟨⟨slots, mem⟩, halloc, h⟩ := Option.bind_eq_some_iff.mp h
  obtain ⟨⟨locs, mem'⟩, _, h⟩ := Option.bind_eq_some_iff.mp h
  obtain ⟨S₁, hplace, h⟩ := Option.bind_eq_some_iff.mp h
  obtain ⟨mem'', hwrite, h⟩ := Option.bind_eq_some_iff.mp h
  obtain ⟨rfl, rfl⟩ := Prod.mk.inj (Option.some.inj h)
  have hlen : slots.length = reqs.length := MemoryPools.allocReqSlots_length halloc
  have hfst : (reqs.zip slots).map Prod.fst = reqs := List.map_fst_zip hlen.ge
  have hsnd : (reqs.zip slots).map Prod.snd = slots := List.map_snd_zip hlen.le
  obtain ⟨_, _, htaken, hrows⟩ := placeReqs_rows hplace (by rwa [hfst])
  rw [hfst] at htaken hrows
  rw [hsnd] at hrows
  have hidx := (Memory.writeExtend_sameRows hwrite).reqPoolIdx
  have hpool : slots = reqs.map fun q => (S₁.mem.reqPoolIdx q).getD 0 := by
    rw [← hrows, ← List.flatMap_singleton' (reqs.map _), List.flatMap_map]
    refine List.flatMap_congr fun q hq => ?_
    obtain ⟨row, hrow⟩ := Option.isSome_iff_exists.mp (htaken q hq)
    simp [Memory.rowsOf, hrow]
  have hentry : TopsAgree S₁.heap reqs := htops.congr fun q => (hprepared q).sameParams
  refine ⟨⟨?_, rfl, rfl, ⟨rfl, rfl, rfl, rfl⟩, rfl, fun hany => ?_⟩, rfl, ?_, rfl, rfl, rfl,
    fun q => (placeReqs_fillIds hplace q).1⟩
  · simp only [extendBatch, filledRows, hidx]
    exact hpool
  · change (if (reqs.any fun q => (S₁.heap q).returnLogprob) = true then _ else _) = _
    rw [if_pos (show (reqs.any fun q => (S₁.heap q).returnLogprob) = true from hany)]
    exact congrArg some (List.map_congr_left (hentry hany))
  · simp only [extendBatch, List.flatMap_def]

/-- The tokens that the forward pass of a batch reads for one of its requests. -/
def inputOf {M : Type} (S : Sched M) (batch : ScheduleBatch) (q : Nat) : List Nat :=
  if batch.forwardMode.isDecode || decide (q ∈ batch.decodingReqs.getD []) then
    [(S.heap q).lastToken]
  else (S.heap q).fillIds.drop (S.heap q).prefixLen

/-- A prefill batch that is ready to run: its rows and its input tokens are those of
its requests. -/
structure PrefillAligned (S : Sched Memory) (batch : ScheduleBatch) : Prop
    extends ScheduleBatch.AlignedFields S.heap S.filledRows batch where
  inputIds : batch.inputIds = some (batch.reqs.flatMap (S.inputOf batch))

/-- Mixing the running requests into a new prefill batch keeps it aligned. -/
theorem mixWithRunning_aligned {batch running out : ScheduleBatch}
    (h : S.mixWithRunning batch running = some (S', out)) (ha : S.PrefillAligned batch)
    (hnone : batch.decodingReqs = none) (hmode : batch.forwardMode = .extend)
    (hrunning : S.AlignedAt true running)
    (hids : running.inputIds = some (running.reqs.map fun q => (S.heap q).lastToken))
    (hdisj : ∀ q ∈ batch.reqs, q ∉ running.reqs) : S'.PrefillAligned out := by
  obtain ⟨inputIds, hinput, h⟩ := Option.bind_eq_some_iff.mp h
  obtain ⟨runningIds, hrunningIds, h⟩ := Option.bind_eq_some_iff.mp h
  obtain ⟨outCacheLoc, _, h⟩ := Option.bind_eq_some_iff.mp h
  obtain ⟨runningLoc, _, h⟩ := Option.bind_eq_some_iff.mp h
  obtain ⟨merged, hmerge, h⟩ := Option.bind_eq_some_iff.mp h
  obtain ⟨rfl, rfl⟩ := Prod.mk.inj (Option.some.inj h)
  clear h
  obtain ⟨hreqs, _⟩ := ScheduleBatch.mergeBatch_reqs hmerge
  have hother : ∀ q ∈ batch.reqs,
      (S.modifyReqs running.reqs Req.mixWithRunning).heap q = S.heap q := fun q hq =>
    if_neg (hdisj q hq)
  have hmixed : ∀ q ∈ running.reqs,
      (S.modifyReqs running.reqs Req.mixWithRunning).heap q = (S.heap q).mixWithRunning :=
    fun q hq => if_pos hq
  have hprepared := (frame_modifyReqs S running.reqs Req.prepared_mixWithRunning).heap
  have hbatch : batch.AlignedFields (S.modifyReqs running.reqs Req.mixWithRunning).heap
      (S.modifyReqs running.reqs Req.mixWithRunning).filledRows :=
    ha.toAlignedFields.congr (fun q _ => (hprepared q).sameParams) (fun _ _ => rfl)
      fun q hq => by simp only [filledRows, hother q hq]
  have hrun : running.AlignedFields (S.modifyReqs running.reqs Req.mixWithRunning).heap
      (S.modifyReqs running.reqs Req.mixWithRunning).filledRows :=
    hrunning.toAlignedFields.congr (fun q _ => (hprepared q).sameParams) (fun _ _ => rfl)
      fun q hq => by simp [filledRows, hmixed q hq, Req.mixWithRunning, Sched.rows]
  have hmerged := hbatch.mergeBatch hrun hmerge
  refine ⟨⟨hmerged.reqPoolIndices, hmerged.seqLens, hmerged.seqLensSum, hmerged.sampling,
    hmerged.returnLogprob, hmerged.topLogprobsNums⟩, ?_⟩
  rw [ha.inputIds] at hinput
  rw [hids] at hrunningIds
  rw [← Option.some.inj hinput, ← Option.some.inj hrunningIds]
  simp only [hreqs, List.flatMap_append]
  congr 2
  · refine List.flatMap_congr fun q hq => ?_
    simp [inputOf, hmode, hnone, hother q hq, hdisj q hq, ForwardMode.isDecode]
  · rw [← List.flatMap_singleton' (running.reqs.map _), List.flatMap_map]
    refine List.flatMap_congr fun q hq => ?_
    simp [inputOf, hq, hmixed q hq, Req.mixWithRunning, Req.lastToken]

theorem mixChunk_aligned {batch out : ScheduleBatch} (h : S.mixChunk cfg batch = some (S', out))
    (ha : S.PrefillAligned batch) (hnone : batch.decodingReqs = none)
    (hmode : batch.forwardMode = .extend)
    (hrunning : ∀ b, S.stage.runningBatch = some b → b.reqs ≠ [] → S.AlignedAt false b)
    (hdisj : ∀ q ∈ batch.reqs, q ∉ reqsOf S.stage.runningBatch) : S'.PrefillAligned out := by
  unfold mixChunk at h
  split at h
  next => obtain ⟨rfl, rfl⟩ := Prod.mk.inj (Option.some.inj h); exact ha
  next running hrun =>
    split at h
    next =>
      obtain ⟨filtered, hfilter, h⟩ := Option.bind_eq_some_iff.mp h
      obtain ⟨⟨S₁, mixed⟩, hmixed, h⟩ := Option.bind_eq_some_iff.mp h
      obtain ⟨rfl, rfl⟩ := Prod.mk.inj (Option.some.inj h)
      have hrest : S₁.PrefillAligned mixed := by
        unfold mixUnfinished at hmixed
        split at hmixed
        next => obtain ⟨rfl, rfl⟩ := Prod.mk.inj (Option.some.inj hmixed); exact ha
        next hne =>
          obtain ⟨⟨S₂, decode⟩, hdecode, hmixed⟩ := Option.bind_eq_some_iff.mp hmixed
          have hreqs := ScheduleBatch.filterBatch_reqs hfilter
          have hfiltered : filtered.reqs ≠ [] := by simpa [ScheduleBatch.isEmpty] using hne
          have hrunne : running.reqs ≠ [] := fun hnil => hfiltered (by simp [hreqs, hnil])
          have haligned := (hrunning running hrun hrunne).filterBatch hfilter hfiltered
          obtain ⟨hdecoded, hids, hheap, hidx⟩ := prepareForDecode_aligned haligned hdecode
          have hout := (prepareForDecode_spec hdecode).2.1
          have hsame : S₂.filledRows = S.filledRows := by
            simp only [filledRows, hheap, hidx]
          have hbatch : S₂.PrefillAligned batch := by
            refine ⟨by rw [hheap, hsame]; exact ha.toAlignedFields, ?_⟩
            rw [ha.inputIds]
            exact congrArg some (List.flatMap_congr fun q _ => by simp only [inputOf, hheap])
          refine mixWithRunning_aligned hmixed hbatch hnone hmode hdecoded hids fun q hq hmem => ?_
          rw [hout, hreqs] at hmem
          exact hdisj q hq (by simpa [reqsOf, hrun] using (List.mem_filter.mp hmem).1)
      exact ⟨hrest.toAlignedFields, hrest.inputIds⟩
    next => obtain ⟨rfl, rfl⟩ := Prod.mk.inj (Option.some.inj h); exact ha

end Sched

end FastPP
