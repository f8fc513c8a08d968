import FastPP.BatchOps
import FastPP.State

namespace FastPP

/-- `SamplingBatchInfo` with its `logit_bias`, whose rows are opaque. -/
structure BiasedSampling (R : Type) extends SamplingBatchInfo where
  logitBias : Option (List R)

namespace BiasedSampling

variable {R : Type}

/-- `from_schedule_batch`, and the rows that are set as `logit_bias` afterwards, if any. -/
def fromScheduleBatch (heap : Nat → Req) (reqs : List Nat) (bias : Option (Nat → R)) :
    BiasedSampling R :=
  { SamplingBatchInfo.fromScheduleBatch heap reqs with logitBias := bias.map fun row => reqs.map row }

def filterBatch (info : BiasedSampling R) (newIndices : List Nat) : Option (BiasedSampling R) := do
  let rows ← info.toSamplingBatchInfo.filterBatch newIndices
  match info.logitBias with
  | none => pure { rows with logitBias := none }
  | some bias => do
    let bias ← gather bias newIndices
    pure { rows with logitBias := some bias }

/-- `merge_bias_tensor`. With rows on either side it enters `with torch.dtype(dtype)`, which
raises a `TypeError`: no row is filled in or joined. -/
def mergeBiasTensor (lhs rhs : Option (List R)) : Option (Option (List R)) :=
  match lhs, rhs with
  | none, none => some none
  | _, _ => none

def mergeBatch (info other : BiasedSampling R) : Option (BiasedSampling R) := do
  let logitBias ← mergeBiasTensor info.logitBias other.logitBias
  pure { info.toSamplingBatchInfo.mergeBatch other.toSamplingBatchInfo with logitBias }

end BiasedSampling

/-- What one object has gone through, with the histories of the objects merged into it. -/
inductive SamplingHistory (R : Type)
  | fromScheduleBatch (reqs : List Nat) (bias : Option (Nat → R))
  | filterBatch (before : SamplingHistory R) (newIndices : List Nat)
  | mergeBatch (self other : SamplingHistory R)

namespace SamplingHistory

variable {R : Type} (heap : Nat → Req)

/-- The object; `none` is a raised exception. -/
def object : SamplingHistory R → Option (BiasedSampling R)
  | .fromScheduleBatch reqs bias => some (.fromScheduleBatch heap reqs bias)
  | .filterBatch before newIndices => do
    let info ← before.object
    info.filterBatch newIndices
  | .mergeBatch self other => do
    let info ← self.object
    let otherInfo ← other.object
    info.mergeBatch otherInfo

/-- The requests of the batch, each with the bias it had when it came in, if any; `none` is an
index out of range. -/
def requests : SamplingHistory R → Option (List (Nat × Option R))
  | .fromScheduleBatch reqs bias => some (reqs.map fun q => (q, bias.map fun row => row q))
  | .filterBatch before newIndices => do
    let requests ← before.requests
    gather requests newIndices
  | .mergeBatch self other => do
    let requests ← self.requests
    let otherRequests ← other.requests
    pure (requests ++ otherRequests)

end SamplingHistory

/-- The flags and the bias of the object fit the requests of its batch. -/
structure BiasedSampling.FitsBatch {R : Type} (heap : Nat → Req) (default : R)
    (info : BiasedSampling R) (requests : List (Nat × Option R)) : Prop where
  needMinP : ∀ r ∈ requests, 0 < (heap r.1).samplingParams.minP → info.needMinPSampling = true
  allGreedy : info.isAllGreedy = true → ∀ r ∈ requests, (heap r.1).samplingParams.topK ≤ 1
  bias : ∀ rows, info.logitBias = some rows → rows = requests.map fun r => r.2.getD default

namespace SamplingHistory

variable {R : Type} (heap : Nat → Req) (default : R)

/-- With all indices in range the history has an object, which fits the requests of its batch. -/
def Sound (history : SamplingHistory R) : Prop :=
  ∀ requests, history.requests = some requests →
    ∃ info, history.object heap = some info ∧ info.FitsBatch heap default requests

variable {heap default}

theorem gather_of_gather_map {α β : Type} {f : α → β} {values : List α} {indices : List Nat}
    {result : List β} (h : gather (values.map f) indices = some result) :
    ∃ kept, gather values indices = some kept := by
  rw [gather_map] at h
  obtain ⟨kept, hkept, _⟩ := Option.map_eq_some_iff.mp h
  exact ⟨kept, hkept⟩

/-- What `filter_batch` keeps. -/
theorem filterBatch_cases {info info' : BiasedSampling R} {indices : List Nat}
    (h : info.filterBatch indices = some info') :
    info.toSamplingBatchInfo.filterBatch indices = some info'.toSamplingBatchInfo ∧
      (info.logitBias = none ∧ info'.logitBias = none ∨
        ∃ bias kept, info.logitBias = some bias ∧ gather bias indices = some kept ∧
          info'.logitBias = some kept) := by
  obtain ⟨rows, hrows, h⟩ := Option.bind_eq_some_iff.mp h
  split at h
  next hnone =>
    obtain rfl := Option.some.inj h
    exact ⟨hrows, .inl ⟨hnone, rfl⟩⟩
  next bias hbias =>
    obtain ⟨kept, hkept, h⟩ := Option.bind_eq_some_iff.mp h
    obtain rfl := Option.some.inj h
    exact ⟨hrows, .inr ⟨bias, kept, hbias, hkept, rfl⟩⟩

/-- `filter_batch` leaves the flags. -/
theorem filterBatch_flags {info info' : SamplingBatchInfo} {indices : List Nat}
    (h : info.filterBatch indices = some info') :
    (∃ kept, gather info.temperatures indices = some kept) ∧
      info'.needMinPSampling = info.needMinPSampling ∧ info'.isAllGreedy = info.isAllGreedy := by
  obtain ⟨temperatures, htemperatures, h⟩ := Option.bind_eq_some_iff.mp h
  obtain ⟨topPs, _, h⟩ := Option.bind_eq_some_iff.mp h
  obtain ⟨topKs, _, h⟩ := Option.bind_eq_some_iff.mp h
  obtain ⟨minPs, _, h⟩ := Option.bind_eq_some_iff.mp h
  obtain rfl := Option.some.inj h
  exact ⟨⟨temperatures, htemperatures⟩, rfl, rfl⟩

/-- A merge returns when neither side has a bias. -/
theorem mergeBatch_eq_some_iff {info other merged : BiasedSampling R} :
    info.mergeBatch other = some merged ↔ info.logitBias = none ∧ other.logitBias = none ∧
      merged = { info.toSamplingBatchInfo.mergeBatch other.toSamplingBatchInfo with
        logitBias := none } := by
  unfold BiasedSampling.mergeBatch BiasedSampling.mergeBiasTensor
  cases info.logitBias with
  | some bias => simp
  | none =>
    cases other.logitBias with
    | some bias => simp
    | none => simp [eq_comm]

/-- The sampling rows belong to the requests. -/
def Rowed (heap : Nat → Req) (info : BiasedSampling R) (requests : List (Nat × Option R)) : Prop :=
  info.toSamplingBatchInfo.RowsOf heap (requests.map Prod.fst)

/-- The requests that are kept are those of the rows that are kept. -/
theorem Rowed.filter {info info' : BiasedSampling R} {requests : List (Nat × Option R)}
    {indices : List Nat} (h : Rowed heap info requests)
    (hfilter : info.filterBatch indices = some info') :
    ∃ kept, gather requests indices = some kept ∧ Rowed heap info' kept := by
  obtain ⟨hrows, _⟩ := filterBatch_cases hfilter
  obtain ⟨⟨temperatures, htemperatures⟩, _⟩ := filterBatch_flags hrows
  rw [h.temperatures, List.map_map] at htemperatures
  obtain ⟨kept, hkept⟩ := gather_of_gather_map htemperatures
  obtain ⟨info₂, hrows', hkeptRows⟩ := SamplingBatchInfo.RowsOf.filter h (gather_map_of hkept)
  rw [hrows] at hrows'
  obtain rfl := Option.some.inj hrows'
  exact ⟨kept, hkept, hkeptRows⟩

theorem Rowed.merge {info other merged : BiasedSampling R} {requests others : List (Nat × Option R)}
    (h : Rowed heap info requests) (ho : Rowed heap other others)
    (hmerge : info.mergeBatch other = some merged) : Rowed heap merged (requests ++ others) := by
  obtain ⟨_, _, rfl⟩ := mergeBatch_eq_some_iff.mp hmerge
  unfold Rowed
  rw [List.map_append]
  exact SamplingBatchInfo.RowsOf.merge h ho

/-- The object of a sound history fits its requests. -/
theorem Sound.fits {history : SamplingHistory R} (h : Sound heap default history)
    {info : BiasedSampling R} {requests : List (Nat × Option R)}
    (hinfo : history.object heap = some info) (hrequests : history.requests = some requests) :
    info.FitsBatch heap default requests := by
  obtain ⟨info', hinfo', hfits⟩ := h requests hrequests
  obtain rfl := Option.some.inj (hinfo.symm.trans hinfo')
  exact hfits

end SamplingHistory

end FastPP
