import FastPP.EventLoop
import FastPP.Prefilling
import FastPP.Delivery

namespace FastPP

namespace Sched

variable {M : Type}

/-- A request after messages arrived: flagged for abortion, or a new one. -/
def Arrived (cfg : Config) (S S' : Sched M) (q : Nat) : Prop :=
  (∃ toAbort, S'.heap q = { S.heap q with toAbort }) ∨
    (S.nextReq ≤ q ∧ ∃ input toAbort, S'.heap q = { handledReq cfg input with toAbort })

/-- What `process_input_requests` leaves alone and how the waiting queue grows. -/
structure Intake (cfg : Config) (S S' : Sched M) : Prop where
  others : ∃ heap nextReq waitingQueue, S' = { S with heap, nextReq, waitingQueue }
  nextReq : S.nextReq ≤ S'.nextReq
  waitingQueue : S'.waitingQueue.Sublist
    (S.waitingQueue ++ List.range' S.nextReq (S'.nextReq - S.nextReq))
  heap : ∀ q, Arrived cfg S S' q

theorem Intake.refl (cfg : Config) (S : Sched M) : Intake cfg S S :=
  ⟨⟨S.heap, S.nextReq, S.waitingQueue, rfl⟩, le_rfl, by simp, fun q => Or.inl ⟨_, rfl⟩⟩

theorem Intake.trans {cfg : Config} {S S' S'' : Sched M} (h : Intake cfg S S')
    (h' : Intake cfg S' S'') : Intake cfg S S'' where
  others := by
    obtain ⟨_, _, _, rfl⟩ := h.others
    obtain ⟨heap, nextReq, queue, hS⟩ := h'.others
    exact ⟨heap, nextReq, queue, hS⟩
  nextReq := h.nextReq.trans h'.nextReq
  waitingQueue := by
    have hrange : List.range' S.nextReq (S''.nextReq - S.nextReq) =
        List.range' S.nextReq (S'.nextReq - S.nextReq) ++
          List.range' S'.nextReq (S''.nextReq - S'.nextReq) := by
      obtain ⟨a, ha⟩ := Nat.exists_eq_add_of_le h.nextReq
      obtain ⟨b, hb⟩ := Nat.exists_eq_add_of_le h'.nextReq
      rw [hb, ha, Nat.add_sub_cancel_left, Nat.add_sub_cancel_left, List.range'_append_1,
        Nat.add_assoc, Nat.add_sub_cancel_left]
    rw [hrange, ← List.append_assoc]
    exact h'.waitingQueue.trans (h.waitingQueue.append (.refl _))
  heap q := by
    rcases h'.heap q with ⟨toAbort, hq⟩ | ⟨hle, hnew⟩
    · rcases h.heap q with ⟨toAbort', hq'⟩ | ⟨hle, input, toAbort', hq'⟩
      · exact Or.inl ⟨toAbort, by rw [hq, hq']⟩
      · exact Or.inr ⟨hle, input, toAbort, by rw [hq, hq']⟩
    · exact Or.inr ⟨h.nextReq.trans hle, hnew⟩

theorem intake_handleGenerateRequest (cfg : Config) (S : Sched M) (input : GenerateInput) :
    Intake cfg S (S.handleGenerateRequest cfg input) where
  others := ⟨_, _, _, rfl⟩
  nextReq := Nat.le_succ _
  waitingQueue := by simp [handleGenerateRequest]
  heap q := by
    rcases eq_or_ne q S.nextReq with rfl | hne
    · exact Or.inr ⟨le_rfl, input, (handledReq cfg input).toAbort, by
        simp [handleGenerateRequest, setReq]⟩
    · exact Or.inl ⟨(S.heap q).toAbort, by simp [handleGenerateRequest, setReq, hne]⟩

theorem intake_abortRequest (cfg : Config) (S : Sched M) (rid : Nat) :
    Intake cfg S (S.abortRequest rid) := by
  unfold abortRequest
  split
  next q _ =>
    exact ⟨⟨_, _, _, rfl⟩, le_rfl, by simpa using List.erase_sublist, fun _ => Or.inl ⟨_, rfl⟩⟩
  next =>
    split
    next q _ =>
      refine ⟨⟨_, _, _, rfl⟩, le_rfl, by simp [setReq], fun q' => Or.inl ?_⟩
      rcases eq_or_ne q' q with rfl | hne
      · exact ⟨true, by simp [setReq]⟩
      · exact ⟨(S.heap q').toAbort, by simp [setReq, hne]⟩
    next => exact .refl cfg S

theorem intake_processInputRequests (cfg : Config) (recvReqs : List RecvReq) (S : Sched M) :
    Intake cfg S (S.processInputRequests cfg recvReqs) := by
  induction recvReqs generalizing S with
  | nil => exact .refl cfg S
  | cons recvReq recvReqs ih =>
    refine Intake.trans ?_ (ih _)
    cases recvReq with
    | generate input => exact intake_handleGenerateRequest cfg S input
    | abort rid => exact intake_abortRequest cfg S rid

/-- The state in which an iteration starts to schedule. -/
structure Received (cfg : Config) (S S' : Sched M) : Prop where
  curPP : S'.curPP = S.curPP.next
  stages : S'.stages = S.stages
  pendingBatch : S'.pendingBatch = S.pendingBatch
  mem : S'.mem = S.mem
  nextReq : S.nextReq ≤ S'.nextReq
  waitingQueue : S'.waitingQueue.Sublist
    (S.waitingQueue ++ List.range' S.nextReq (S'.nextReq - S.nextReq))
  heap : ∀ q, Arrived cfg S S' q

theorem receive_spec [MemoryPools M] (cfg : Config) (input : StepInput) (S : Sched M) :
    Received cfg S (S.receive cfg input) := by
  have hintake := intake_processInputRequests cfg input.recvReqs
    { S with curPP := S.curPP.next, availableSize := input.availableSize }
  unfold receive
  dsimp only
  generalize processInputRequests cfg _ input.recvReqs = S₁ at hintake ⊢
  obtain ⟨⟨heap, nextReq, queue, rfl⟩, hnext, hwaiting, hheap⟩ := hintake
  split
  next => exact ⟨rfl, rfl, rfl, rfl, hnext, hwaiting, hheap⟩
  next => exact ⟨rfl, rfl, rfl, rfl, hnext, hwaiting, hheap⟩

end Sched

/-- A list of handled requests, none of them twice. -/
def ListedOnce (nextReq : Nat) (reqs : List Nat) : Prop :=
  ∀ q, reqs.count q ≤ if q < nextReq then 1 else 0

namespace ListedOnce

variable {nextReq : Nat} {reqs : List Nat}

theorem le_one (h : ListedOnce nextReq reqs) (q : Nat) : reqs.count q ≤ 1 := by
  have := h q
  split at this <;> omega

theorem nodup (h : ListedOnce nextReq reqs) : reqs.Nodup :=
  List.nodup_iff_count_le_one.mpr h.le_one

theorem lt (h : ListedOnce nextReq reqs) {q : Nat} (hq : q ∈ reqs) : q < nextReq := by
  have := h q
  have hpos := List.count_pos_iff.mpr hq
  split at this <;> omega

theorem of_count_le {others : List Nat} (h : ListedOnce nextReq reqs)
    (hle : ∀ q, others.count q ≤ reqs.count q) : ListedOnce nextReq others :=
  fun q => (hle q).trans (h q)

end ListedOnce

/-- The micro-batch whose turn comes before. -/
def Config.prev (cfg : Config) (i : Nat) : Nat := (i + cfg.ppSize - 1) % cfg.ppSize

/-- How many steps before the last one the batch of micro-batch `j` was dispatched,
when the turn of `i` comes next. -/
def turnsAgo (ppSize i j : Nat) : Nat := if j < i then i - 1 - j else i + ppSize - 1 - j

theorem prev_eq {cfg : Config} {i : Nat} (hi : i < cfg.ppSize) :
    cfg.prev i = if i = 0 then cfg.ppSize - 1 else i - 1 := by
  unfold Config.prev
  split
  next h =>
    subst h
    rw [Nat.zero_add, Nat.mod_eq_of_lt (by omega)]
  next h =>
    rw [show i + cfg.ppSize - 1 = i - 1 + cfg.ppSize by omega, Nat.add_mod_right,
      Nat.mod_eq_of_lt (by omega)]

theorem prev_self {cfg : Config} {i : Nat} (hi : i < cfg.ppSize) :
    cfg.prev i = i ↔ cfg.ppSize = 1 := by
  rw [prev_eq hi]
  split <;> omega

theorem prev_lt {cfg : Config} {i : Nat} (hi : i < cfg.ppSize) : cfg.prev i < cfg.ppSize :=
  Nat.mod_lt _ (by omega)

theorem succ_mod_eq {p i : Nat} (hi : i < p) : (i + 1) % p = if i + 1 = p then 0 else i + 1 := by
  split
  next h => rw [h, Nat.mod_self]
  next h => exact Nat.mod_eq_of_lt (by omega)

theorem prev_succ {cfg : Config} {i : Nat} (hi : i < cfg.ppSize) :
    cfg.prev ((i + 1) % cfg.ppSize) = i := by
  rw [prev_eq (Nat.mod_lt _ (by omega)), succ_mod_eq hi]
  split <;> split <;> omega

theorem turnsAgo_succ_self {p i : Nat} (hi : i < p) : turnsAgo p ((i + 1) % p) i = 0 := by
  rw [succ_mod_eq hi]
  unfold turnsAgo
  split <;> split <;> omega

theorem turnsAgo_succ {p i j : Nat} (hi : i < p) (hj : j < p) (hne : j ≠ i) :
    turnsAgo p ((i + 1) % p) j = turnsAgo p i j + 1 := by
  rw [succ_mod_eq hi]
  unfold turnsAgo
  split <;> split <;> split <;> omega

theorem turnsAgo_self (p i : Nat) : turnsAgo p i i = i + p - 1 - i := by
  simp [turnsAgo]

/-- The requests of a prefill batch that is not yet merged. -/
def Stage.ownReqs (stage : Stage) : List Nat :=
  match stage.lastBatch with
  | .own batch => batch.reqs
  | _ => []

/-- The requests of a micro-batch except for the chunked one, which moves on. -/
def Stage.settled (stage : Stage) : List Nat :=
  reqsOf stage.runningBatch ++ stage.ownReqs.filter fun q => stage.beingChunkedReq != some q

/-- A micro-batch between its turns. -/
structure Stage.WellPlaced (ppSize : Nat) (stage : Stage) : Prop where
  own : ∀ b, stage.lastBatch = .own b → b.forwardMode.isExtend = true ∧ b.reqs.Nodup
  aliased : stage.lastBatch = .running →
    ∃ b, stage.runningBatch = some b ∧ b.forwardMode = .decode ∧ b.reqs ≠ []
  chunk : ∀ q, stage.beingChunkedReq = some q → q ∈ stage.ownReqs ∨ ppSize = 1

namespace Sched

variable {M : Type}

/-- The requests of the other micro-batches. -/
def others (cfg : Config) (S : Sched M) (i : Nat) : List Nat :=
  ((List.range cfg.ppSize).filter (· ≠ i)).flatMap fun j => (S.stages j).settled

/-- Every place of a request before the turn of `i`, the carried chunked one last. -/
def places (cfg : Config) (S : Sched M) (i : Nat) : List Nat :=
  S.waitingQueue ++ (reqsOf S.pendingBatch ++ ((S.stages i).settled ++ (S.others cfg i ++
    (S.stages (cfg.prev i)).beingChunkedReq.toList)))

/-- The places within the turn of `i`, between the merge and the next batch. -/
def turnPlaces (cfg : Config) (S : Sched M) (i : Nat) : List Nat :=
  S.waitingQueue ++ (reqsOf S.pendingBatch ++ (reqsOf (S.stages i).runningBatch ++
    (S.others cfg i ++ (S.stages (cfg.prev i)).beingChunkedReq.toList)))

/-- The micro-batches in flight whose batch ends in a chunk of the request that is not
the last one. -/
def chunksInFlight (cfg : Config) (S : Sched M) (flight : Nat → Bool) (q : Nat) : Nat :=
  (List.range cfg.ppSize).countP fun j => flight j &&
    (decide ((S.stages j).beingChunkedReq = some q) && decide (q ∈ (S.stages j).ownReqs))

/-- The chunk counters and records of the micro-batches, apart from index `i`. A counter is
too high where a result left its request out, so never when all results are `complete`. -/
structure ChunksPlaced (complete : Prop) (cfg : Config) (S : Sched M) (flight : Nat → Bool) :
    Prop where
  fresh : ∀ j < cfg.ppSize, ∀ q, (S.stages j).beingChunkedReq = some q → q < S.nextReq
  counted : ∀ q, (S.chunksInFlight cfg flight q : Int) ≤ (S.heap q).isBeingChunked
  exact : complete → ∀ q, (S.heap q).isBeingChunked = S.chunksInFlight cfg flight q

/-- The invariant between two iterations; the turn of `i` comes next and the results of
the batches in `flight` are outstanding. -/
structure Placed (complete : Prop) (cfg : Config) (i : Nat) (flight : Nat → Bool) (S : Sched M) :
    Prop extends ChunksPlaced complete cfg S flight where
  once : ListedOnce S.nextReq (S.places cfg i)
  stages : ∀ j < cfg.ppSize, (S.stages j).WellPlaced cfg.ppSize
  ppIdx : ∀ j < cfg.ppSize, ∀ q, (S.stages j).beingChunkedReq = some q →
    ((S.heap q).ppIdx = some j ↔ j = cfg.prev i)
  order : ∀ j < cfg.ppSize, ∀ f < cfg.ppSize, ∀ q, (S.stages j).beingChunkedReq = some q →
    q ∈ (S.stages f).settled → turnsAgo cfg.ppSize i f < turnsAgo cfg.ppSize i j

/-- The invariant within the turn of `i`, between the merge and the next batch. -/
structure InTurn (complete : Prop) (cfg : Config) (i : Nat) (flight : Nat → Bool) (S : Sched M) :
    Prop extends ChunksPlaced complete cfg S flight where
  cur : S.cur = i
  landed : flight i = false
  once : ListedOnce S.nextReq (S.turnPlaces cfg i)
  stages : ∀ j < cfg.ppSize, j ≠ i → (S.stages j).WellPlaced cfg.ppSize
  moved : ∀ q, (S.stages i).beingChunkedReq = some q →
    cfg.ppSize = 1 ∧ (S.heap q).ppIdx = some i
  ppIdx : ∀ j < cfg.ppSize, j ≠ i → ∀ q, (S.stages j).beingChunkedReq = some q →
    ((S.heap q).ppIdx = some j ↔ j = cfg.prev i)
  order : ∀ j < cfg.ppSize, j ≠ i → ∀ f < cfg.ppSize, f ≠ i → ∀ q,
    (S.stages j).beingChunkedReq = some q → q ∈ (S.stages f).settled →
      turnsAgo cfg.ppSize i f < turnsAgo cfg.ppSize i j

theorem range_perm {p i : Nat} (hi : i < p) :
    (i :: (List.range p).filter (· ≠ i)).Perm (List.range p) := by
  refine (List.perm_ext_iff_of_nodup ?_ List.nodup_range).mpr fun j => ?_
  · exact List.nodup_cons.mpr ⟨by simp, List.nodup_range.filter _⟩
  · simp only [List.mem_cons, List.mem_filter, List.mem_range, decide_eq_true_eq]
    constructor
    · rintro (rfl | h)
      · exact hi
      · exact h.1
    · intro h
      rcases eq_or_ne j i with rfl | hne
      · exact Or.inl rfl
      · exact Or.inr ⟨h, hne⟩

/-- The settled requests of all micro-batches, with one of them first. -/
theorem others_perm (cfg : Config) (S : Sched M) {i : Nat} (hi : i < cfg.ppSize) :
    ((S.stages i).settled ++ S.others cfg i).Perm
      ((List.range cfg.ppSize).flatMap fun j => (S.stages j).settled) := by
  simpa [others] using (range_perm hi).flatMap_right fun j => (S.stages j).settled

/-- The places, seen from any micro-batch. -/
theorem places_count (cfg : Config) (S : Sched M) {i j : Nat} (hi : i < cfg.ppSize)
    (hj : j < cfg.ppSize) (q : Nat) : (S.places cfg i).count q =
      S.waitingQueue.count q + (reqsOf S.pendingBatch).count q + (S.stages j).settled.count q +
        (S.others cfg j).count q +
          (S.stages (cfg.prev i)).beingChunkedReq.toList.count q := by
  have hcount := ((others_perm cfg S hi).trans (others_perm cfg S hj).symm).count_eq q
  simp only [places, List.count_append] at hcount ⊢
  omega

theorem others_congr {S S' : Sched M} (cfg : Config) {i : Nat}
    (h : ∀ j, j ≠ i → S'.stages j = S.stages j) : S'.others cfg i = S.others cfg i := by
  unfold others
  rw [List.flatMap_def, List.flatMap_def]
  congr 1
  refine List.map_congr_left fun j hj => ?_
  rw [h j (by simpa using (List.mem_filter.mp hj).2)]

theorem mem_others {cfg : Config} {S : Sched M} {i j q : Nat} (hj : j < cfg.ppSize)
    (hne : j ≠ i) (hq : q ∈ (S.stages j).settled) : q ∈ S.others cfg i :=
  List.mem_flatMap.mpr ⟨j, by simp [hj, hne], hq⟩

theorem chunksInFlight_split {cfg : Config} (S : Sched M) (flight : Nat → Bool) {i : Nat} (q : Nat)
    (hi : i < cfg.ppSize) : S.chunksInFlight cfg flight q =
      (if flight i = true ∧ (S.stages i).beingChunkedReq = some q ∧ q ∈ (S.stages i).ownReqs
        then 1 else 0) +
      ((List.range cfg.ppSize).filter (· ≠ i)).countP fun j => flight j &&
        (decide ((S.stages j).beingChunkedReq = some q) && decide (q ∈ (S.stages j).ownReqs)) := by
  rw [chunksInFlight, ← (range_perm hi).countP_eq, List.countP_cons, Nat.add_comm]
  congr 1
  simp

/-- A micro-batch whose result arrived does not count. -/
theorem chunksInFlight_landed {S S' : Sched M} {cfg : Config} {flight : Nat → Bool} {i : Nat}
    (hlanded : flight i = false) (h : ∀ j, j ≠ i → S'.stages j = S.stages j) (q : Nat) :
    S'.chunksInFlight cfg flight q = S.chunksInFlight cfg flight q := by
  unfold chunksInFlight
  refine List.countP_congr fun j _ => ?_
  rcases eq_or_ne j i with rfl | hne
  · simp [hlanded]
  · rw [h j hne]

/-- Counters that change with the chunks in flight stay as close to them as they were. -/
theorem ChunksPlaced.shift {complete : Prop} {S S' : Sched M} {cfg : Config}
    {flight flight' : Nat → Bool} (h : ChunksPlaced complete cfg S flight)
    (hfresh : ∀ j < cfg.ppSize, ∀ q, (S'.stages j).beingChunkedReq = some q → q < S'.nextReq)
    (hshift : ∀ q, (S'.heap q).isBeingChunked + S.chunksInFlight cfg flight q =
      (S.heap q).isBeingChunked + S'.chunksInFlight cfg flight' q) :
    ChunksPlaced complete cfg S' flight' := by
  refine ⟨hfresh, fun q => ?_, fun hall q => ?_⟩
  · have hcounted := h.counted q
    have hq := hshift q
    omega
  · have hexact := h.exact hall q
    have hq := hshift q
    omega

/-- The chunks in flight of the other micro-batches. -/
theorem chunksInFlight_congr {S S' : Sched M} {cfg : Config} {i : Nat} (q : Nat)
    (flight flight' : Nat → Bool) (h : ∀ j, j ≠ i → S'.stages j = S.stages j)
    (hflight : ∀ j, j < cfg.ppSize → j ≠ i → flight' j = flight j) :
    ((List.range cfg.ppSize).filter (· ≠ i)).countP (fun j => flight' j &&
        (decide ((S'.stages j).beingChunkedReq = some q) && decide (q ∈ (S'.stages j).ownReqs))) =
      ((List.range cfg.ppSize).filter (· ≠ i)).countP fun j => flight j &&
        (decide ((S.stages j).beingChunkedReq = some q) &&
          decide (q ∈ (S.stages j).ownReqs)) := by
  refine List.countP_congr fun j hj => ?_
  obtain ⟨hlt, hne⟩ : j < cfg.ppSize ∧ j ≠ i := by simpa using hj
  rw [h j hne, hflight j hlt hne]

end Sched

end FastPP
