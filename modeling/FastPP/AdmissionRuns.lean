import FastPP.TreeAdmission
import FastPP.RebalanceLaw

namespace FastPP

namespace PrefillAdder

open RadixCache (Reached Represented)

/-- An admitted request: its `last_node`, its tokens to extend and the tokens that it takes
from the budget. -/
structure AdmittedReq where
  node : Nat
  extendInputLen : Int
  tokens : Int

/-- Calls of `add_one_req` and `match_prefix` on one adder, with the nodes that were matched
and the requests that were admitted, the last one first. -/
inductive Admissions (disable : Bool) (clock : Nat → Rat) (cfg : Config) (S₀ : RadixCache)
    (adder₀ : PrefillAdder) (matched₀ : List Nat) :
    RadixCache → PrefillAdder → List Nat → List AdmittedReq → Prop
  | start : Admissions disable clock cfg S₀ adder₀ matched₀ S₀ adder₀ matched₀ []
  | matchPrefix {S S' : RadixCache} {adder : PrefillAdder} {matched : List Nat}
      {admitted : List AdmittedReq} {rid len node : Nat} {key : List Nat}
      (h : Admissions disable clock cfg S₀ adder₀ matched₀ S adder matched admitted)
      (hrun : (radixPrefixCache disable clock).matchPrefix S rid key = some (S', len, node)) :
      Admissions disable clock cfg S₀ adder₀ matched₀ S' adder (node :: matched) admitted
  | addOneReq {S S' : RadixCache} {adder adder' : PrefillAdder} {matched : List Nat}
      {admitted : List AdmittedReq} {heap : Nat → Req} {q node : Nat} {req req' : Req}
      {result : AddReqResult}
      (h : Admissions disable clock cfg S₀ adder₀ matched₀ S adder matched admitted)
      (hnode : node ∈ matched) (heos : req.samplingParams.ignoreEos = false)
      (hrun : adder.addOneReqIn (radixPrefixCache disable clock) cfg heap S q req node =
        some (result, adder', req', S')) :
      Admissions disable clock cfg S₀ adder₀ matched₀ S' adder' matched
        (if adder'.canRunList = adder.canRunList then admitted
          else ⟨node, req'.extendInputLen, admittedTokens cfg req req'⟩ :: admitted)

variable {disable : Bool} {clock : Nat → Rat} {heapq : Heapq} {cfg : Config}
  {S₀ S : RadixCache} {adder₀ adder : PrefillAdder} {matched₀ matched locks returned : List Nat}
  {admitted : List AdmittedReq} {heap : Nat → Req} {tree₀ : Finset Nat}

/-- The balance of an adder. -/
structure Balanced (S₀ S : RadixCache) (adder₀ adder : PrefillAdder) (tree₀ : Finset Nat)
    (disable : Bool) (matched locks : List Nat) (admitted : List AdmittedReq) (tree : Finset Nat)
    (spell slots : Nat → List Nat) : Prop where
  locked : S.Locked tree spell slots (admitted.map AdmittedReq.node ++ locks)
  tokens : S.tokens tree = S₀.tokens tree₀
  matched : ∀ n ∈ matched, n ∈ tree ∧ (disable = true → n = 0)
  budget : adder.remTotalTokens + ((admitted.map AdmittedReq.tokens).sum : Int) +
    (S₀.evictableSize - S.evictableSize : Int) = adder₀.remTotalTokens
  extended : (admitted.map AdmittedReq.extendInputLen).sum ≤ (admitted.map AdmittedReq.tokens).sum
  nonneg : admitted ≠ [] → 0 ≤ adder.remTotalTokens

theorem Admissions.balanced {spell slots : Nat → List Nat}
    (h : Admissions disable clock cfg S₀ adder₀ matched₀ S adder matched admitted)
    (h₀ : S₀.Locked tree₀ spell slots locks)
    (hmatched : ∀ n ∈ matched₀, n ∈ tree₀ ∧ (disable = true → n = 0)) :
    ∃ tree spell slots,
      Balanced S₀ S adder₀ adder tree₀ disable matched locks admitted tree spell slots := by
  induction h with
  | start =>
    refine ⟨tree₀, spell, slots, h₀, rfl, hmatched, ?_, Int.le_refl _, fun e => absurd rfl e⟩
    simp
  | @matchPrefix S S' adder matched admitted rid len node key _ hrun ih =>
    obtain ⟨tree, spell, slots, hb⟩ := ih
    cases disable with
    | true =>
      cases Option.some.inj hrun
      refine ⟨tree, spell, slots, hb.locked, hb.tokens, ?_, hb.budget, hb.extended, hb.nonneg⟩
      intro n hn
      rcases List.mem_cons.mp hn with e | e
      · rw [e]
        exact ⟨hb.locked.shape.root_mem, fun _ => rfl⟩
      · exact hb.matched n e
    | false =>
      obtain ⟨⟨S₁, value, node₁⟩, hmatch, he⟩ := Option.map_eq_some_iff.mp
        (show (S.matchPrefix clock key).map _ = some _ from hrun)
      obtain ⟨rfl, rfl, rfl⟩ := he
      obtain ⟨S₂, found, last, tree', spell', slots', hmatch', hl, hmap, hlast, _, htok⟩ :=
        RadixCache.matchPrefix_spec clock hb.locked key
      cases Option.some.inj (hmatch.symm.trans hmatch')
      have hsize := RadixCache.matchPrefixHelper_size hmatch
      refine ⟨tree', spell', slots', hl, htok.trans hb.tokens, ?_, ?_, hb.extended, hb.nonneg⟩
      · intro n hn
        rcases List.mem_cons.mp hn with e | e
        · rw [e]
          exact ⟨hlast, Bool.noConfusion⟩
        · exact ⟨hmap.keeps.mem n (hb.matched n e).1, Bool.noConfusion⟩
      · rw [hsize]
        exact hb.budget
  | @addOneReq S S' adder adder' matched admitted heap q node req req' result _ hnode heos hrun ih =>
    obtain ⟨tree, spell, slots, hb⟩ := ih
    obtain ⟨result₁, adder₁, req₁, S₁, hrun₁, hcase⟩ := addOneReqIn_radix hb.locked
      (hb.matched node hnode).1 (hb.matched node hnode).2 clock cfg heap adder q heos
    cases Option.some.inj (hrun.symm.trans hrun₁)
    rcases hcase with hr | ha
    · have hsize := hr.relocked.evictableSize_eq hb.locked
      rw [if_pos (by rw [hr.adder])]
      refine ⟨tree, spell, slots, hr.relocked.locked, hr.relocked.tokens_eq.trans hb.tokens,
        hb.matched, ?_, hb.extended, ?_⟩
      · rw [hsize, hr.adder]
        exact hb.budget
      · rw [hr.adder]
        exact hb.nonneg
    · rw [if_neg (by rw [ha.canRunList]; simp)]
      refine ⟨tree, spell, slots, ha.relocked.locked, ha.relocked.tokens_eq.trans hb.tokens,
        hb.matched, ?_, ?_, fun _ => ha.nonneg⟩
      · have hbudget := hb.budget
        rw [ha.budget, List.map_cons, List.sum_cons]
        push_cast at hbudget ⊢
        linarith
      · have hext := hb.extended
        have hle : req'.extendInputLen ≤ admittedTokens cfg req req' := by
          unfold admittedTokens
          split <;> omega
        simp only [List.map_cons, List.sum_cons]
        omega

/-- The tokens that the running requests are expected to need. -/
def reservedTokens (cfg : Config) (heap : Nat → Req) (runningReqs : List Nat)
    (newTokenRatio : Rat) : Rat :=
  (runningReqs.map fun q =>
    (min (((heap q).samplingParams.maxNewTokens : Int) - (heap q).outputIdsLen)
      cfg.clipMaxNewTokens : Rat) * newTokenRatio).sum

/-- A call of `add_one_req` returns; it admits the request, or returns `NO_TOKEN` or `OTHER`
and leaves the adder, the request and the counts of the cache as they were. -/
def AdmitsOrKeeps (disable : Bool) (clock : Nat → Rat) (cfg : Config) (heap : Nat → Req)
    (S : RadixCache) (adder : PrefillAdder) (q : Nat) (req : Req) (node : Nat) : Prop :=
  ∃ result adder' req' S',
    adder.addOneReqIn (radixPrefixCache disable clock) cfg heap S q req node =
      some (result, adder', req', S') ∧
    (adder'.canRunList = adder.canRunList ++ [q] ∨
      result ≠ .continue ∧ adder' = adder ∧ req' = req ∧
        S'.evictableSize = S.evictableSize ∧
        ∀ n, S.InTree n → (S'.nodes n).lockRef = (S.nodes n).lockRef)

/-- Over any calls on one adder the budget, the admitted tokens and the newly locked tokens
balance, each admitted request holds one lock more, and refused calls change nothing. -/
theorem admissions_accounted {remInputTokens mixedWithDecodeTokens : Nat}
    {remChunkTokens : Option Nat} {runningReqs : List Nat} {newTokenRatio : Rat}
    {availableSize : Int} (h₀ : Reached clock heapq True S₀ returned locks)
    (hmatched : ∀ n ∈ matched₀, S₀.InTree n ∧ (disable = true → n = 0))
    (hnew : adder₀ = new cfg heap runningReqs newTokenRatio (availableSize + S₀.evictableSize)
      remInputTokens remChunkTokens mixedWithDecodeTokens)
    (h : Admissions disable clock cfg S₀ adder₀ matched₀ S adder matched admitted) :
    adder.remTotalTokens + ((admitted.map AdmittedReq.tokens).sum : Int) +
        (S.lockedTokens - S₀.lockedTokens : Int) = adder₀.remTotalTokens ∧
      (admitted ≠ [] →
        (((admitted.map AdmittedReq.extendInputLen).sum + mixedWithDecodeTokens : Int) : Rat) +
            reservedTokens cfg heap runningReqs newTokenRatio ≤
          (availableSize + S.evictableSize : Int)) ∧
      S.Represented (admitted.map AdmittedReq.node ++ locks) ∧
      ∀ heap q req, ∀ node ∈ matched, req.samplingParams.ignoreEos = false →
        AdmitsOrKeeps disable clock cfg heap S adder q req node := by
  obtain ⟨tree₀, spell₀, slots₀, hl₀⟩ := h₀.locked
  obtain ⟨tree, spell, slots, hb⟩ := h.balanced hl₀ fun n hn =>
    ⟨hl₀.shape.inTree_iff.mp (hmatched n hn).1, (hmatched n hn).2⟩
  have hsum₀ := hl₀.locked_add_evictable
  have hsum := hb.locked.locked_add_evictable
  have hlocked : S.lockedTokens - S₀.lockedTokens = S₀.evictableSize - S.evictableSize := by
    have htokens := hb.tokens
    omega
  refine ⟨?_, ?_, hb.locked.represented, ?_⟩
  · rw [hlocked]
    exact hb.budget
  · intro hne
    have hnonneg := hb.nonneg hne
    have hbudget := hb.budget
    have hext : (((admitted.map AdmittedReq.extendInputLen).sum : Int) : Rat) ≤
        ((admitted.map AdmittedReq.tokens).sum : Int) := by
      exact_mod_cast hb.extended
    have hstart : adder₀.remTotalTokens =
        ((availableSize + S₀.evictableSize - mixedWithDecodeTokens : Int) : Rat) -
          reservedTokens cfg heap runningReqs newTokenRatio := by
      rw [hnew]
      rfl
    rw [hstart] at hbudget
    push_cast at hbudget hext ⊢
    linarith
  · intro heap q req node hnode heos
    obtain ⟨result, adder', req', S', hrun, hcase⟩ := addOneReqIn_radix hb.locked
      (hb.matched node hnode).1 (hb.matched node hnode).2 clock cfg heap adder q heos
    refine ⟨result, adder', req', S', hrun, ?_⟩
    rcases hcase with hr | ha
    · refine .inr ⟨hr.result, hr.adder, hr.req, hr.relocked.evictableSize_eq hb.locked, ?_⟩
      intro n hn
      exact hr.relocked.lockRef_eq hb.locked (hb.locked.shape.inTree_iff.mp hn)
    · exact .inl ha.canRunList

/-- One token to extend and two to decode. -/
def shortReq : Req :=
  { Req.blank with
    originInputIds := [5, 6, 7]
    extendInputLen := 1
    samplingParams := { Req.blank.samplingParams with maxNewTokens := 2 } }

/-- A tree with the first two tokens of the request at node 1. -/
def sharedTree : RadixCache :=
  (RadixCache.addLeaf (fun _ => 0) (RadixCache.touch (fun _ => 0) (.reset fun _ => 0) 0) 0 5 [5, 6]
    [9, 8])

theorem sharedTree_reached : Reached (fun _ => 0) .list True sharedTree [] [] := by
  have h : Reached (fun _ => 0) .list True (RadixCache.reset fun _ => 0) [] [] := .reset
  exact h.insert (fun _ => by rfl)
    (show (RadixCache.reset fun _ => 0).insert (fun _ => 0) [5, 6] [9, 8] = some (_, _) from rfl)

/-- The adder of a step with room for nine tokens. -/
def nineTokens : PrefillAdder :=
  new twoRanks (fun _ => shortReq) [] 1 (7 + sharedTree.evictableSize) 100 none 0

def addShort (adder : PrefillAdder) (S : RadixCache) (q : Nat) :
    Option (AddReqResult × PrefillAdder × Req × RadixCache) :=
  adder.addOneReqIn (radixPrefixCache false fun _ => 0) twoRanks (fun _ => shortReq) S q shortReq 1

theorem addShort_three :
    ((nineTokens.addShort sharedTree 0).bind fun first =>
      (first.2.1.addShort first.2.2.2 1).bind fun second =>
        (second.2.1.addShort second.2.2.2 2).map fun third =>
          ((first.2.1.canRunList, first.2.2.1), (second.2.1.canRunList, second.2.2.1),
            third.1, third.2.1.canRunList)) =
      some (([0], shortReq), ([0, 1], shortReq), .noToken, [0, 1]) := by
  decide +kernel

/-- Two requests at one node are admitted, and a third one is refused: the first lock takes two
tokens out of the evictable ones, the second none. -/
theorem admissions_accounted_shared : ∃ S adder,
    Admissions false (fun _ => 0) twoRanks sharedTree nineTokens [1] S adder [1]
      [⟨1, 1, 3⟩, ⟨1, 1, 3⟩] ∧
    adder.canRunList = [0, 1] ∧
    adder.remTotalTokens + (6 : Int) + (S.lockedTokens - sharedTree.lockedTokens : Int) = 9 ∧
    2 ≤ 7 + S.evictableSize ∧ S.Represented [1, 1] := by
  obtain ⟨⟨_, adder₁, _, S₁⟩, hrun₁, hview⟩ := Option.bind_eq_some_iff.mp addShort_three
  obtain ⟨⟨_, adder₂, _, S₂⟩, hrun₂, hview⟩ := Option.bind_eq_some_iff.mp hview
  obtain ⟨⟨_, adder₃, _, S₃⟩, hrun₃, hview⟩ := Option.map_eq_some_iff.mp hview
  obtain ⟨hfirst, hview⟩ := Prod.mk.inj hview
  obtain ⟨hsecond, hthird⟩ := Prod.mk.inj hview
  obtain ⟨hlist₁, rfl⟩ := Prod.mk.inj hfirst
  obtain ⟨hlist₂, rfl⟩ := Prod.mk.inj hsecond
  obtain ⟨rfl, hlist₃⟩ := Prod.mk.inj hthird
  dsimp only at hrun₂ hrun₃ hlist₁ hlist₂ hlist₃
  have hstart : Admissions false (fun _ => 0) twoRanks sharedTree nineTokens [1] sharedTree
      nineTokens [1] [] := .start
  have hadd₁ := hstart.addOneReq List.mem_cons_self rfl hrun₁
  rw [nineTokens, new_canRunList, hlist₁, if_neg (by decide), ← nineTokens] at hadd₁
  have hadd₂ := hadd₁.addOneReq List.mem_cons_self rfl hrun₂
  rw [hlist₁, hlist₂, if_neg (by decide)] at hadd₂
  have hadd₃ := hadd₂.addOneReq List.mem_cons_self rfl hrun₃
  rw [hlist₂, hlist₃, if_pos rfl] at hadd₃
  obtain ⟨hbalance, hroom, hlocks, _⟩ := admissions_accounted sharedTree_reached
    (fun n hn => by
      rw [List.mem_singleton.mp hn]
      exact ⟨⟨_, _, .child .root (t := 5) (by decide)⟩, Bool.noConfusion⟩) rfl hadd₃
  refine ⟨S₃, adder₃, hadd₃, hlist₃, ?_, ?_, hlocks⟩
  · rw [show (9 : Rat) = nineTokens.remTotalTokens by decide +kernel]
    exact hbalance
  · have hroom' := hroom (List.cons_ne_nil _ _)
    have hzero : reservedTokens twoRanks (fun _ => shortReq) [] 1 = 0 := rfl
    rw [hzero, add_zero] at hroom'
    exact_mod_cast hroom'

/-- With no room for the running requests' own tokens nothing is admitted, and they alone are
more than what is free. -/
theorem mixed_tokens_exceed : ∃ S adder,
    Admissions false (fun _ => 0) twoRanks (.reset fun _ => 0)
      (new twoRanks (fun _ => shortReq) [1] 1 (0 + (RadixCache.reset fun _ => 0).evictableSize) 100
        none 1) [0] S adder [0] [] ∧
    ¬ (([] : List AdmittedReq).map AdmittedReq.extendInputLen).sum + 1 ≤ 0 + S.evictableSize := by
  have hrefused : ((new twoRanks (fun _ => shortReq) [1] 1
        (0 + (RadixCache.reset fun _ => 0).evictableSize) 100 none 1).addOneReqIn
        (radixPrefixCache false fun _ => 0) twoRanks (fun _ => shortReq) (.reset fun _ => 0) 0
        shortReq 0).map
      (fun added => (added.1, added.2.1.canRunList, added.2.2.2.evictableSize)) =
        some (.noToken, [], 0) := by
    decide +kernel
  obtain ⟨⟨result, adder, req, S⟩, hrun, hadded⟩ := Option.map_eq_some_iff.mp hrefused
  obtain ⟨_, hadded⟩ := Prod.mk.inj hadded
  obtain ⟨hcan, hsize⟩ := Prod.mk.inj hadded
  have hstart : Admissions false (fun _ => 0) twoRanks (.reset fun _ => 0)
      (new twoRanks (fun _ => shortReq) [1] 1 (0 + (RadixCache.reset fun _ => 0).evictableSize) 100
        none 1) [0] (.reset fun _ => 0) _ [0] [] := .start
  have hadd := hstart.addOneReq List.mem_cons_self rfl hrun
  rw [new_canRunList, if_pos (show adder.canRunList = [] from hcan)] at hadd
  refine ⟨S, adder, hadd, ?_⟩
  rw [show S.evictableSize = 0 from hsize]
  decide

end PrefillAdder

end FastPP
