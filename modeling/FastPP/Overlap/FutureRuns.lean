import FastPP.Overlap.FutureTokens
import Mathlib.Data.List.Induction

namespace FastPP

open BlockWrites TpModelWorkerClient

variable {limit : Nat} {batches : List OverlapBatch} {sample : Nat → List Int → Nat → Int}
  {sys sys' : OverlapSystem} {batch : OverlapBatch} {k : Nat}

/-- The id in the tensor, from the counters of the batches. -/
def placeValue (limit : Nat) (batches : List OverlapBatch) : InputId → Int
  | .token id => id
  | .future p i => -((counterAt limit batches p + 1 + i : Nat) : Int)

/-- What the queue holds for batch `k`. -/
def queueEntry (limit : Nat) (batches : List OverlapBatch) (k : Nat) : ModelWorkerBatch × Nat :=
  match batches[k]? with
  | some batch => (⟨batch.inputIds.map (placeValue limit batches), batch.bs⟩,
      counterAt limit batches k)
  | none => (⟨[], 0⟩, 0)

theorem counterAt_lt (hlimit : 0 < limit) (batches : List OverlapBatch) (k : Nat) :
    counterAt limit batches k < limit := Nat.mod_lt _ hlimit

theorem counterAt_succ (h : batches[k]? = some batch) :
    counterAt limit batches (k + 1) = (counterAt limit batches k + batch.bs) % limit := by
  unfold counterAt
  rw [List.take_add_one, h]
  simp [Nat.add_mod]

theorem batchSize_eq (h : batches[k]? = some batch) : batchSize batches k = batch.bs := by
  simp [batchSize, h]

theorem placeholders_get {ct bs i : Nat} (h : i < bs) :
    (placeholders ct bs)[i]? = some (-((ct + 1 + i : Nat) : Int)) := by
  simp [placeholders, h]

/-- The token that a batch sampled for the row over cell `x`. -/
def sampledAt (limit : Nat) (batches : List OverlapBatch) (sys : OverlapSystem) (q x : Nat) :
    Option Int :=
  (sys.ran[q]?).bind fun ran => ran.2[x - counterAt limit batches q]?

/-- What holds after any number of pushes and turns of the thread. -/
structure OverlapInv (limit : Nat) (batches : List OverlapBatch)
    (sample : Nat → List Int → Nat → Int) (sys : OverlapSystem) : Prop where
  limitEq : sys.client.maxRunningRequests = limit
  issuedLe : sys.issued.length ≤ batches.length
  ranLe : sys.ran.length ≤ sys.issued.length
  issued : ∀ p source, p < sys.issued.length → batches[p]? = some source →
    sys.issued[p]? = some (placeholders (counterAt limit batches p) source.bs)
  ct : sys.client.futureTokenIdsCt = counterAt limit batches sys.issued.length
  queue : sys.client.inputQueue =
    (List.range' sys.ran.length (sys.issued.length - sys.ran.length)).map
      (queueEntry limit batches)
  mapLength : sys.client.futureTokenIdsMap.length = limit * 2
  cells : ∀ x q, Holds (counterAt limit batches) (batchSize batches) sys.ran.length x q →
    sys.client.futureTokenIdsMap[x + 1]? = sampledAt limit batches sys q x
  sampled : ∀ (k : Nat) (batch : OverlapBatch) (ran : List Int × List Int), batches[k]? = some batch →
    sys.ran[k]? = some ran → ran.2 = (List.range batch.bs).map (sample k ran.1)
  resolved : ∀ (k : Nat) (batch : OverlapBatch) (j p i q : Nat) (ran : List Int × List Int),
    batches[k]? = some batch → batch.inputIds[j]? = some (InputId.future p i) → sys.ran[k]? = some ran →
    Holds (counterAt limit batches) (batchSize batches) k (counterAt limit batches p + i) q →
    ran.1[j]? = sampledAt limit batches sys q (counterAt limit batches p + i)

theorem inputValues_eq {issued : List (List Int)} {inputIds : List InputId}
    (h : ∀ inputId ∈ inputIds, inputId.value issued = some (placeValue limit batches inputId)) :
    inputValues issued inputIds = some (inputIds.map (placeValue limit batches)) := by
  induction inputIds with
  | nil => rfl
  | cons inputId rest ih =>
    have hrest := ih fun id hid => h id (List.mem_cons_of_mem _ hid)
    simp [inputValues, h inputId List.mem_cons_self, hrest]

/-- A push issues the placeholders of its batch. -/
theorem OverlapInv.push (inv : OverlapInv limit batches sample sys)
    (hwell : WellPushed limit batches) (h : batches[sys.issued.length]? = some batch) :
    ∃ sys', sys.step sample (.push batch) = some sys' ∧ OverlapInv limit batches sample sys' ∧
      sys'.issued.length = sys.issued.length + 1 ∧ sys'.ran = sys.ran := by
  obtain ⟨-, hrefs⟩ := hwell _ _ h
  have hvalues : inputValues sys.issued batch.inputIds =
      some (batch.inputIds.map (placeValue limit batches)) := by
    apply inputValues_eq
    intro inputId hid
    cases inputId with
    | token id => rfl
    | future p i =>
      obtain ⟨hp, source, hsource, hi⟩ := hrefs p i hid
      simp [InputId.value, inv.issued p source hp hsource, placeholders_get hi, placeValue]
  obtain ⟨client, future, hpush⟩ : ∃ client future, sys.client.forwardBatchGeneration
      ⟨batch.inputIds.map (placeValue limit batches), batch.bs⟩ = (client, future) := ⟨_, _, rfl⟩
  refine ⟨{ sys with client := client, issued := sys.issued ++ [future] }, ?_, ?_, by simp, rfl⟩
  · simp [OverlapSystem.step, hvalues, hpush]
  simp only [forwardBatchGeneration, Prod.mk.injEq] at hpush
  obtain ⟨rfl, rfl⟩ := hpush
  have hlt : sys.issued.length < batches.length := (List.getElem?_eq_some_iff.mp h).1
  have hran := inv.ranLe
  refine ⟨inv.limitEq, ?_, ?_, ?_, ?_, ?_, inv.mapLength, inv.cells, inv.sampled, inv.resolved⟩
  · simp only [List.length_append, List.length_singleton]
    omega
  · simp only [List.length_append, List.length_singleton]
    omega
  · intro p source hp hsource
    simp only [List.length_append, List.length_singleton] at hp
    by_cases hlast : p = sys.issued.length
    · subst hlast
      rw [h] at hsource
      cases hsource
      simp [inv.ct]
    · rw [List.getElem?_append_left (by omega)]
      exact inv.issued p source (by omega) hsource
  · simp only [List.length_append, List.length_singleton, futureTokenIdsLimit, inv.limitEq,
      Nat.mul_one, inv.ct]
    rw [counterAt_succ h]
  · simp only [List.length_append, List.length_singleton]
    rw [show sys.issued.length + 1 - sys.ran.length = sys.issued.length - sys.ran.length + 1 by
      omega, List.range'_concat, List.map_append, ← inv.queue, inv.ct]
    have hindex : sys.ran.length + 1 * (sys.issued.length - sys.ran.length) =
        sys.issued.length := by omega
    rw [hindex]
    simp [queueEntry, h]

/-- The ids that `resolve_future_token_ids` gives when every placeholder lies in the map. -/
theorem resolveFutureTokenIds_eq {map : List Int} {inputIds : List InputId}
    (h : ∀ inputId ∈ inputIds,
      (resolveFutureTokenId map (placeValue limit batches inputId)).isSome) :
    ∃ ids, resolveFutureTokenIds map (inputIds.map (placeValue limit batches)) = some ids ∧
      ∀ (j : Nat) (inputId : InputId), inputIds[j]? = some inputId →
        ids[j]? = resolveFutureTokenId map (placeValue limit batches inputId) := by
  induction inputIds with
  | nil => exact ⟨[], rfl, fun j inputId hj => by simp at hj⟩
  | cons inputId rest ih =>
    obtain ⟨ids, hids, hall⟩ := ih fun id hid => h id (List.mem_cons_of_mem _ hid)
    obtain ⟨id, hid⟩ := Option.isSome_iff_exists.mp (h inputId List.mem_cons_self)
    refine ⟨id :: ids, ?_, ?_⟩
    · simp [resolveFutureTokenIds, hid, hids]
    · intro j other hj
      cases j with
      | zero =>
        cases hj
        exact hid.symm
      | succ j => exact hall j other hj

theorem resolve_future (map : List Int) (p i : Nat) :
    resolveFutureTokenId map (placeValue limit batches (.future p i)) =
      map[counterAt limit batches p + i + 1]? := by
  have hvalue : placeValue limit batches (.future p i) =
      -((counterAt limit batches p + 1 + i : Nat) : Int) := rfl
  unfold resolveFutureTokenId
  rw [hvalue, if_pos (by omega)]
  congr 1
  omega

theorem resolve_token (map : List Int) (id : Nat) :
    resolveFutureTokenId map (placeValue limit batches (.token id)) = some (id : Int) := by
  have hvalue : placeValue limit batches (.token id) = (id : Int) := rfl
  unfold resolveFutureTokenId
  rw [hvalue, if_neg (by omega)]

/-- The tokens of the batches that have run stay as they are. -/
theorem sampledAt_append {client : TpModelWorkerClient} {issued : List (List Int)}
    (ran : List Int × List Int) {q x : Nat} (hq : q < sys.ran.length) :
    sampledAt limit batches ⟨client, issued, sys.ran ++ [ran]⟩ q x =
      sampledAt limit batches sys q x := by
  unfold sampledAt
  rw [List.getElem?_append_left hq]

/-- A turn of the thread on a batch keeps the invariant: no access leaves the map. -/
theorem OverlapInv.forward (inv : OverlapInv limit batches sample sys) (hlimit : 0 < limit)
    (hwell : WellPushed limit batches) :
    ∃ sys', sys.step sample .forward = some sys' ∧ OverlapInv limit batches sample sys' ∧
      sys'.issued = sys.issued ∧
      (sys.ran.length < sys.issued.length → sys'.ran.length = sys.ran.length + 1) := by
  by_cases hdone : sys.ran.length = sys.issued.length
  · have hempty : sys.client.inputQueue = [] := by
      rw [inv.queue, hdone]
      simp
    exact ⟨sys, by simp [OverlapSystem.step, hempty], inv, rfl, fun hlt => by omega⟩
  have hranLe := inv.ranLe
  have hissuedLe := inv.issuedLe
  obtain ⟨batch, hbatch⟩ : ∃ batch, batches[sys.ran.length]? = some batch :=
    ⟨_, List.getElem?_eq_getElem (by omega)⟩
  obtain ⟨hbs, hrefs⟩ := hwell _ _ hbatch
  have hqueue : sys.client.inputQueue =
      (⟨batch.inputIds.map (placeValue limit batches), batch.bs⟩,
        counterAt limit batches sys.ran.length) ::
      (List.range' (sys.ran.length + 1) (sys.issued.length - (sys.ran.length + 1))).map
        (queueEntry limit batches) := by
    rw [inv.queue, show sys.issued.length - sys.ran.length =
      sys.issued.length - (sys.ran.length + 1) + 1 by omega, List.range'_succ, List.map_cons]
    simp [queueEntry, hbatch]
  have hinside : ∀ inputId ∈ batch.inputIds, (resolveFutureTokenId
      sys.client.futureTokenIdsMap (placeValue limit batches inputId)).isSome := by
    intro inputId hid
    cases inputId with
    | token id =>
      rw [resolve_token]
      rfl
    | future p i =>
      obtain ⟨-, source, hsource, hi⟩ := hrefs p i hid
      have hsize := (hwell p source hsource).1
      have hct := counterAt_lt hlimit batches p
      have hlen : counterAt limit batches p + i + 1 < sys.client.futureTokenIdsMap.length := by
        rw [inv.mapLength]
        omega
      rw [resolve_future, List.getElem?_eq_getElem hlen]
      rfl
  obtain ⟨ids, hids, hget⟩ := resolveFutureTokenIds_eq hinside
  obtain ⟨tokens, htokens⟩ : ∃ tokens,
      tokens = (List.range batch.bs).map (sample sys.ran.length ids) := ⟨_, rfl⟩
  have htlen : tokens.length = batch.bs := by simp [htokens]
  obtain ⟨map, hmap⟩ : ∃ map, map = write sys.client.futureTokenIdsMap
      (counterAt limit batches sys.ran.length + 1) tokens := ⟨_, rfl⟩
  have hct := counterAt_lt hlimit batches sys.ran.length
  have hroom : counterAt limit batches sys.ran.length + 1 + tokens.length ≤
      sys.client.futureTokenIdsMap.length := by
    rw [inv.mapLength, htlen]
    omega
  have hthread : sys.client.forwardThread (sample sys.ran.length)
      ⟨batch.inputIds.map (placeValue limit batches), batch.bs⟩
      (counterAt limit batches sys.ran.length)
      ((List.range' (sys.ran.length + 1) (sys.issued.length - (sys.ran.length + 1))).map
        (queueEntry limit batches)) =
      some (⟨sys.client.maxRunningRequests, sys.client.futureTokenIdsCt, map,
        (List.range' (sys.ran.length + 1) (sys.issued.length - (sys.ran.length + 1))).map
          (queueEntry limit batches)⟩, ids, tokens) := by
    unfold forwardThread
    simp only [hids, Option.bind_eq_bind, Option.bind_some, ← htokens]
    by_cases hzero : batch.bs = 0
    · have hnil : tokens = [] := List.length_eq_zero_iff.mp (by omega)
      rw [if_pos hzero, hmap, hnil, write_nil]
    · rw [if_neg hzero, storeNextTokens, if_pos hroom, ← hmap]
      rfl
  obtain ⟨sys', hsys'⟩ : ∃ sys' : OverlapSystem, sys' =
      ⟨⟨sys.client.maxRunningRequests, sys.client.futureTokenIdsCt, map,
        (List.range' (sys.ran.length + 1) (sys.issued.length - (sys.ran.length + 1))).map
          (queueEntry limit batches)⟩, sys.issued, sys.ran ++ [(ids, tokens)]⟩ := ⟨_, rfl⟩
  have hran : sys'.ran.length = sys.ran.length + 1 := by simp [hsys']
  have hold : ∀ q x, q < sys.ran.length →
      sampledAt limit batches sys' q x = sampledAt limit batches sys q x := by
    intro q x hq
    rw [hsys']
    exact sampledAt_append _ hq
  have hread : ∀ j p i q : Nat, batch.inputIds[j]? = some (InputId.future p i) →
      Holds (counterAt limit batches) (batchSize batches) sys.ran.length
        (counterAt limit batches p + i) q →
      ids[j]? = sampledAt limit batches sys' q (counterAt limit batches p + i) := by
    intro j p i q hj hq
    rw [hget j _ hj, resolve_future, inv.cells _ q hq, hold q _ hq.1]
  have hlater : ∀ k, k < sys.ran.length → sys'.ran[k]? = sys.ran[k]? := by
    intro k hk
    rw [hsys']
    exact List.getElem?_append_left hk
  have hnow : sys'.ran[sys.ran.length]? = some (ids, tokens) := by
    rw [hsys']
    exact List.getElem?_concat_length
  have hlast : ∀ k ran, sys'.ran[k]? = some ran → k < sys.ran.length ∨ k = sys.ran.length := by
    intro k ran hk
    have hlt := (List.getElem?_eq_some_iff.mp hk).1
    omega
  refine ⟨sys', by simp [OverlapSystem.step, hqueue, hthread, hsys'], ?_, by rw [hsys'],
    fun _ => hran⟩
  refine ⟨by rw [hsys']; exact inv.limitEq, by rw [hsys']; exact hissuedLe, ?_,
    by rw [hsys']; exact inv.issued, by rw [hsys']; exact inv.ct, ?_, ?_, ?_, ?_, ?_⟩
  · rw [hran, hsys']
    show sys.ran.length + 1 ≤ sys.issued.length
    omega
  · rw [hran, hsys']
  · rw [hsys']
    show map.length = _
    rw [hmap, write_length hroom, inv.mapLength]
  · -- a cell of the block just written, or one that it leaves alone
    intro x q hq
    rw [hran] at hq
    have hpos : counterAt limit batches sys.ran.length + 1 ≤
        sys.client.futureTokenIdsMap.length := by omega
    have hmap' : sys'.client.futureTokenIdsMap = map := by rw [hsys']
    rw [hmap', hmap]
    rcases holds_succ.mp hq with ⟨hcov, rfl⟩ | ⟨hcov, hq⟩
    · obtain ⟨hle, hlt⟩ := hcov
      rw [batchSize_eq hbatch] at hlt
      rw [show x + 1 = counterAt limit batches sys.ran.length + 1 +
        (x - counterAt limit batches sys.ran.length) by omega,
        write_inside hpos (by omega)]
      simp [sampledAt, hnow]
    · unfold Covers at hcov
      rw [batchSize_eq hbatch] at hcov
      rw [write_outside hpos (by omega), inv.cells x q hq, hold q x hq.1]
  · intro k b ran hb hr
    rcases hlast k ran hr with hk | rfl
    · rw [hlater k hk] at hr
      exact inv.sampled k b ran hb hr
    · rw [hnow] at hr
      rw [hbatch] at hb
      cases hr
      cases hb
      exact htokens
  · intro k b j p i q ran hb hj hr hq
    rcases hlast k ran hr with hk | rfl
    · rw [hlater k hk] at hr
      have hqlt := hq.1
      rw [inv.resolved k b j p i q ran hb hj hr hq, hold q _ (by omega)]
    · rw [hnow] at hr
      rw [hbatch] at hb
      cases hr
      cases hb
      exact hread j p i q hj hq

end FastPP
