import Mathlib.Order.Bounds.Basic
import HoleBlame.Proofs.Binary64
import HoleBlame.Proofs.Drafts
import HoleBlame.Proofs.Results

/-!
# What facts state

Whether facts describe a chain, and which one, can be said of the list of facts alone: how many states they
call for (`Fact.CallsFor`), which moves they state for a state (`Facts.moves`), what the probabilities of
these add up to (`Facts.total`), and which rewards they give it (`Facts.values`).

Drafts agree with this.  A draft to which facts are added one by one has as many states as they call for,
is turned into a chain iff the facts are acceptable (`Facts.Acceptable`), and then into the chain that they
determine (`Facts.Determine`); otherwise the first thing that is wrong with them is reported
(`Facts.Refused`).  All of this is `Draft.finish_stated`.
-/

namespace HoleBlame

variable {n : ℕ}

/-! ## Lists of facts -/

namespace Fact

/-- The fact calls for so many states. -/
def CallsFor (k : ℕ) : Fact → Prop
  | states count => k = count
  | transition source _ target => k = source + 1 ∨ k = target + 1
  | named _ => False
  | labelled state _ => k = state + 1
  | reward _ state _ => k = state + 1

/-- The move that a fact states for a state: where it leads, and with which probability. -/
def move? (s : ℕ) : Fact → Option (ℕ × Float)
  | transition source prob target => if source = s then some (target, prob) else none
  | _ => none

end Fact

namespace Facts

/-- The moves stated for a state, in their order. -/
def moves (facts : List Fact) (s : ℕ) : List (ℕ × Float) :=
  facts.filterMap (Fact.move? s)

/-- What the probabilities of a state add up to, in their order. -/
def total (facts : List Fact) (s : ℕ) : Float :=
  (moves facts s).foldl (fun sum move => sum + move.2) 0

/-- The probability is positive and at most one, up to the tolerance. -/
def Permitted (prob : Float) : Prop :=
  0 < prob ∧ prob ≤ 1 + stochasticTolerance

/-- All probabilities are permitted. -/
def AllPermitted (facts : List Fact) : Prop :=
  ∀ source prob target, .transition source prob target ∈ facts → Permitted prob

/-- The sum is one, up to the tolerance. -/
def NearOne (sum : Float) : Prop :=
  (sum - 1).abs ≤ stochasticTolerance

/-- The facts describe a chain with so many states and the given initial state. -/
structure Acceptable (facts : List Fact) (n initial : ℕ) : Prop where
  initial : initial < n
  permitted : AllPermitted facts
  near : ∀ s < n, NearOne (total facts s)

/-- What is wrong with facts: the initial state, or else the first probability that is not permitted, or
else the smallest state whose probabilities do not add up to one. -/
inductive Refused (facts : List Fact) (n initial : ℕ) : ChainError → Prop
  | initial (outside : n ≤ initial) : Refused facts n initial (.initialOutOfBounds initial n)
  | probability {before after : List Fact} {source target : ℕ} {prob : Float} (inside : initial < n)
      (split : facts = before ++ .transition source prob target :: after)
      (first : AllPermitted before) (bad : ¬ Permitted prob) :
      Refused facts n initial (.invalidProbability source target prob)
  | sum {s : ℕ} (inside : initial < n) (permitted : AllPermitted facts) (hs : s < n)
      (smallest : ∀ t < s, NearOne (total facts t)) (off : ¬ NearOne (total facts s)) :
      Refused facts n initial (.notStochastic s (total facts s))

/-- The chain is the one that the facts state, with rewards under the given name. -/
structure Determine (facts : List Fact) (name : String) (initial : ℕ) (c : Chain Float n) : Prop where
  initial : c.initial.val = initial
  row : ∀ s, (c.row s).map (fun e => (e.next.val, e.prob)) = moves facts s
  label : ∀ (s : Fin n) label, c.labelling.has s label = true ↔ .labelled s label ∈ facts
  known : ∀ label, label ∈ c.labelling.names ↔ .named label ∈ facts ∨ ∃ s, .labelled s label ∈ facts
  rewarded : c.reward.isSome = true ↔ ∃ s value, .reward name s value ∈ facts
  reward : ∀ model, c.reward = some model → model.name = name ∧
    ∀ s, model.rewards.get s = (values facts s).getLast?.getD 0

end Facts

/-! ## Single facts -/

namespace Fact

variable {fact : Fact} {k : ℕ}

theorem size_le_iff : fact.size ≤ k ↔ ∀ j, fact.CallsFor j → j ≤ k := by
  cases fact with
  | states _ | named _ | labelled _ _ | reward _ _ _ => simp [size, CallsFor]
  | transition source prob target =>
    simp only [size, CallsFor, or_imp, forall_and, forall_eq]
    omega

theorem callsFor_size (h : fact.size ≠ 0) : fact.CallsFor fact.size := by
  cases fact with
  | states _ | labelled _ _ | reward _ _ _ => rfl
  | named _ => exact h rfl
  | transition source prob target =>
    show max source target + 1 = source + 1 ∨ max source target + 1 = target + 1
    omega

theorem edge?_eq_some {s : Fin n} {e : Edge Float n} :
    fact.edge? n = some (s, e) ↔ fact = .transition s e.prob e.next := by
  obtain ⟨next, prob⟩ := e
  cases fact with
  | transition source p target =>
    simp only [edge?, transition.injEq]
    constructor
    · intro h
      split at h
      · cases h
        exact ⟨rfl, rfl, rfl⟩
      · cases h
    · rintro ⟨rfl, rfl, rfl⟩
      exact dif_pos ⟨s.isLt, next.isLt⟩
  | states _ | named _ | labelled _ _ | reward _ _ _ => simp [edge?]

/-- Among enough states, a fact states the move that its transition makes. -/
theorem move?_eq (fits : fact.size ≤ n) (s : Fin n) : fact.move? s =
    ((fact.edge? n).filter (·.1 = s)).map fun (_, e) => (e.next.val, e.prob) := by
  cases fact with
  | transition source prob target =>
    have bounds : source < n ∧ target < n := by
      have : max source target < n := fits
      omega
    simp only [move?, edge?, dif_pos bounds, Option.filter_some, decide_eq_true_eq, Fin.ext_iff]
    split <;> rfl
  | states _ | named _ | labelled _ _ | reward _ _ _ => rfl

end Fact

namespace Facts

variable {facts : List Fact}

theorem mem_moves {s target : ℕ} {prob : Float} :
    (target, prob) ∈ moves facts s ↔ .transition s prob target ∈ facts := by
  have states (fact : Fact) :
      fact.move? s = some (target, prob) ↔ fact = .transition s prob target := by
    cases fact <;> simp [Fact.move?, and_comm]
  simp only [moves, List.mem_filterMap, states, exists_eq_right]

theorem total_nonneg (permitted : AllPermitted facts) (s : ℕ) : 0 ≤ total facts s := by
  refine Scalar.Monotone.foldl_add_nonneg (fun move mem => ?_) Scalar.Monotone.zero_le_zero
  exact Scalar.Monotone.le_of_lt (permitted _ _ _ (mem_moves.mp mem)).1

/-- If some probability is not permitted, there is a first one. -/
theorem allPermitted_or_first (facts : List Fact) : AllPermitted facts ∨
    ∃ before source prob target after, facts = before ++ .transition source prob target :: after ∧
      AllPermitted before ∧ ¬ Permitted prob := by
  induction facts with
  | nil => exact .inl (by rintro _ _ _ ⟨⟩)
  | cons fact rest ih =>
    by_cases permitted : AllPermitted [fact]
    · have extend {list : List Fact} (h : AllPermitted list) : AllPermitted (fact :: list) := by
        intro source prob target mem
        rcases List.mem_cons.mp mem with same | mem
        · exact permitted source prob target (List.mem_singleton.mpr same)
        · exact h source prob target mem
      rcases ih with all | ⟨before, source, prob, target, after, rfl, first, bad⟩
      · exact .inl (extend all)
      · exact .inr ⟨fact :: before, source, prob, target, after, rfl, extend first, bad⟩
    · simp only [AllPermitted, List.mem_singleton] at permitted
      push Not at permitted
      obtain ⟨source, prob, target, rfl, bad⟩ := permitted
      exact .inr ⟨[], source, prob, target, rest, rfl, by rintro _ _ _ ⟨⟩, bad⟩

/-- Facts are acceptable, or something is wrong with them. -/
theorem acceptable_or_refused (facts : List Fact) (n initial : ℕ) :
    Acceptable facts n initial ∨ ∃ e, Refused facts n initial e := by
  rcases Nat.lt_or_ge initial n with inside | outside
  · rcases allPermitted_or_first facts with
      permitted | ⟨before, source, prob, target, after, split, first, bad⟩
    · by_cases off : ∃ s, s < n ∧ ¬ NearOne (total facts s)
      · classical
        obtain ⟨hs, far⟩ := Nat.find_spec off
        refine .inr ⟨_, .sum inside permitted hs (fun t ht => ?_) far⟩
        by_contra far'
        exact Nat.find_min off ht ⟨ht.trans hs, far'⟩
      · push Not at off
        exact .inl ⟨inside, permitted, off⟩
    · exact .inr ⟨_, .probability inside split first bad⟩
  · exact .inr ⟨_, .initial outside⟩

end Facts

/-! ## Facts of a draft -/

namespace Draft

open Facts

variable {d : Draft} {m : ℕ} {steps : List Fact} {initial : ℕ}

theorem validProbability_iff {prob : Float} : validProbability prob = true ↔ Permitted prob := by
  simp [validProbability, Permitted]

theorem valid_of_allPermitted {facts : List Fact} (permitted : AllPermitted facts) :
    ∀ e ∈ facts.filterMap (Fact.edge? n), validProbability e.2.prob = true := by
  rintro ⟨s, e⟩ mem
  obtain ⟨fact, mem, edge⟩ := List.mem_filterMap.mp mem
  rw [Fact.edge?_eq_some] at edge
  subst edge
  exact validProbability_iff.mpr (permitted _ _ _ mem)

theorem mem_names_mark {fact : Fact} {L : Labelling n} {label : String} (fits : fact.size ≤ n) :
    label ∈ (fact.mark L).names ↔
      label ∈ L.names ∨ fact = .named label ∨ ∃ s, fact = .labelled s label := by
  have update (change : StateSet n → StateSet n) (name : String) :
      label ∈ (L.update name change).names ↔ label ∈ L.names ∨ name = label := by
    rw [Labelling.names_update]
    split <;> simp_all [eq_comm]
  cases fact with
  | named name => simp [Fact.mark, Labelling.introduce, update]
  | labelled state name =>
    have bound : state < n := fits
    simp [Fact.mark, bound, Labelling.add, update]
  | states _ | transition _ _ _ | reward _ _ _ => simp [Fact.mark]

open Rounding in
/-- Sums that are not negative are near one iff they are not off. -/
theorem isOff_eq_false_iff {sum : Float} (h : 0 ≤ sum) : isOff sum = false ↔ NearOne sum := by
  have tolerance : stochasticTolerance.isFinite = true := by decide +kernel
  have one : (1 : Float).isFinite = true := by decide +kernel
  rw [isOff, decide_eq_false_iff_not, NearOne]
  exact not_lt_iff (ne_notANumber_of_isFinite tolerance)
    (abs_sub_ne_notANumber (ne_notANumber_of_nonneg h) one)

section Steps

variable (hd : d.Records (.states m :: steps))
include hd

theorem size_fact_le {fact : Fact} (mem : fact ∈ .states m :: steps) : fact.size ≤ d.size :=
  (hd.size d.size).mp (Nat.le_refl d.size) fact mem

theorem size_step_le {fact : Fact} (mem : fact ∈ steps) : fact.size ≤ d.size :=
  size_fact_le hd (List.mem_cons_of_mem _ mem)

theorem isGreatest_size : IsGreatest {k | k = m ∨ ∃ fact ∈ steps, fact.CallsFor k} d.size := by
  have start : m ≤ d.size := size_fact_le hd List.mem_cons_self
  constructor
  · rcases Nat.eq_zero_or_pos d.size with none | pos
    · exact .inl (by omega)
    · -- The size is the least bound, so some fact calls for no less.
      have larger : ¬ d.size ≤ d.size - 1 := by omega
      rw [hd.size] at larger
      push Not at larger
      obtain ⟨fact, mem, large⟩ := larger
      have same : fact.size = d.size := by
        have := size_fact_le hd mem
        omega
      rcases List.mem_cons.mp mem with rfl | mem
      · exact .inl same.symm
      · exact .inr ⟨fact, mem, same ▸ Fact.callsFor_size (by omega)⟩
  · rintro k (rfl | ⟨fact, mem, calls⟩)
    · exact start
    · exact Fact.size_le_iff.mp (size_step_le hd mem) k calls

theorem edges_eq : d.edges n = steps.filterMap (Fact.edge? n) :=
  hd.edges n

/-- Every state has the moves stated for it. -/
theorem map_get_rowsOf (s : Fin d.size) :
    ((rowsOf (d.edges d.size)).get s).map (fun e => (e.next.val, e.prob)) = moves steps s := by
  rw [get_rowsOf, edges_eq hd, List.filter_filterMap, List.map_map, List.map_filterMap, moves]
  refine List.filterMap_congr fun fact mem => ?_
  rw [Fact.move?_eq (size_step_le hd mem)]
  rfl

theorem rowSum_get_rowsOf (s : Fin d.size) : rowSum ((rowsOf (d.edges d.size)).get s) = total steps s := by
  rw [total, ← map_get_rowsOf hd, List.foldl_map]
  rfl

theorem transition_lt {source target : ℕ} {prob : Float} (mem : .transition source prob target ∈ steps) :
    source < d.size ∧ target < d.size := by
  have fits : max source target + 1 ≤ d.size := size_step_le hd mem
  omega

theorem valid_edges_iff :
    (∀ e ∈ d.edges d.size, validProbability e.2.prob = true) ↔ AllPermitted steps := by
  rw [edges_eq hd]
  constructor
  · intro valid source prob target mem
    obtain ⟨hs, ht⟩ := transition_lt hd mem
    exact validProbability_iff.mp (valid (⟨source, hs⟩, ⟨⟨target, ht⟩, prob⟩)
      (List.mem_filterMap.mpr ⟨_, mem, Fact.edge?_eq_some.mpr rfl⟩))
  · exact valid_of_allPermitted

theorem isOff_get_rowsOf_iff (permitted : AllPermitted steps) (s : Fin d.size) :
    isOff (rowSum ((rowsOf (d.edges d.size)).get s)) = false ↔ NearOne (total steps s) := by
  rw [rowSum_get_rowsOf hd, isOff_eq_false_iff (total_nonneg permitted s)]

/-! ## Finishing a draft -/

theorem exists_finish_iff_acceptable :
    (∃ r, d.finish initial = .ok r) ↔ Acceptable steps d.size initial := by
  rw [exists_finish_iff rfl, valid_edges_iff hd]
  constructor
  · rintro ⟨inside, permitted, near⟩
    exact ⟨inside, permitted, fun s hs => (isOff_get_rowsOf_iff hd permitted ⟨s, hs⟩).mp (near _)⟩
  · rintro ⟨inside, permitted, near⟩
    exact ⟨inside, permitted, fun s => (isOff_get_rowsOf_iff hd permitted s).mpr (near s s.isLt)⟩

/-- The first probability that is not permitted is found. -/
theorem find?_edges {before after : List Fact} {source target : ℕ} {prob : Float}
    (split : steps = before ++ .transition source prob target :: after)
    (first : AllPermitted before) (bad : ¬ Permitted prob) : ∃ hs ht,
      (d.edges d.size).find? (fun e => !validProbability e.2.prob) =
        some (⟨source, hs⟩, ⟨⟨target, ht⟩, prob⟩) := by
  obtain ⟨hs, ht⟩ := transition_lt hd (split ▸ List.mem_append_right before List.mem_cons_self)
  have edge : (Fact.transition source prob target).edge? d.size =
      some (⟨source, hs⟩, ⟨⟨target, ht⟩, prob⟩) := Fact.edge?_eq_some.mpr rfl
  have earlier : (before.filterMap (Fact.edge? d.size)).find?
      (fun e => !validProbability e.2.prob) = none :=
    List.find?_eq_none.mpr fun e he => by simpa using valid_of_allPermitted first e he
  have invalid : (!validProbability prob) = true := by
    rw [Bool.not_eq_true', ← Bool.not_eq_true, validProbability_iff]
    exact bad
  refine ⟨hs, ht, ?_⟩
  rw [edges_eq hd, split, List.filterMap_append, List.filterMap_cons_some edge, List.find?_append,
    earlier, Option.none_or]
  exact List.find?_cons_of_pos invalid

/-- The smallest state whose probabilities do not add up to one is found. -/
theorem find?_isOff {s : ℕ} (permitted : AllPermitted steps) (hs : s < d.size)
    (smallest : ∀ t < s, NearOne (total steps t)) (off : ¬ NearOne (total steps s)) :
    (List.finRange d.size).find? (fun s => isOff (rowSum ((rowsOf (d.edges d.size)).get s))) =
      some ⟨s, hs⟩ := by
  rw [List.find?_eq_some_iff_getElem]
  refine ⟨?_, s, by simpa using hs, by simp, fun t ht => ?_⟩
  · rw [← Bool.not_eq_false, isOff_get_rowsOf_iff hd permitted]
    exact off
  · rw [Bool.not_eq_true', isOff_get_rowsOf_iff hd permitted]
    simpa using smallest t ht

theorem finish_of_refused {e : ChainError} (refused : Refused steps d.size initial e) :
    d.finish initial = .error e := by
  rw [finish_eq_outcome]
  unfold outcome
  simp only
  cases refused with
  | initial outside => rw [dif_neg (Nat.not_lt.mpr outside)]
  | probability inside split first bad =>
    obtain ⟨hs, ht, found⟩ := find?_edges hd split first bad
    rw [dif_pos inside, found]
  | sum inside permitted hs smallest off =>
    have valid : (d.edges d.size).find? (fun e => !validProbability e.2.prob) = none :=
      List.find?_eq_none.mpr fun e he => by simpa using (valid_edges_iff hd).mpr permitted e he
    rw [dif_pos inside, valid, find?_isOff hd permitted hs smallest off]
    simp only
    rw [rowSum_get_rowsOf hd]

/-- A draft is refused because of what is wrong with its facts. -/
theorem finish_eq_error_iff {e : ChainError} :
    d.finish initial = .error e ↔ Refused steps d.size initial e := by
  refine ⟨fun h => ?_, finish_of_refused hd⟩
  rcases acceptable_or_refused steps d.size initial with acceptable | ⟨e', refused⟩
  · obtain ⟨r, accepted⟩ := (exists_finish_iff_acceptable hd).mpr acceptable
    cases h.symm.trans accepted
  · cases h.symm.trans (finish_of_refused hd refused)
    exact refused

/-! ## The chain -/

theorem mem_names_labelling {label : String} : label ∈ (d.labelling d.size).names ↔
    .named label ∈ steps ∨ ∃ s, .labelled s label ∈ steps := by
  have general (facts : List Fact) (L : Labelling d.size) (fits : ∀ fact ∈ facts, fact.size ≤ d.size) :
      label ∈ (facts.foldl Fact.mark L).names ↔
        label ∈ L.names ∨ .named label ∈ facts ∨ ∃ s, .labelled s label ∈ facts := by
    induction facts generalizing L with
    | nil => simp
    | cons fact rest ih =>
      rw [List.foldl_cons, ih _ fun fact mem => fits fact (List.mem_cons_of_mem _ mem),
        mem_names_mark (fits fact List.mem_cons_self)]
      simp only [List.mem_cons, exists_or, eq_comm]
      tauto
  rw [hd.labelling _ (Nat.le_refl _), List.foldl_cons, general _ _ fun _ => size_step_le hd]
  exact or_iff_right (List.not_mem_nil (a := label))

section Single

variable {name : String} (single : ∀ model s value, .reward model s value ∈ steps → model = name)
include single

theorem model?_eq_some_iff {model : String} :
    d.model? = some model ↔ model = name ∧ ∃ s value, .reward name s value ∈ steps := by
  have first : d.model? = steps.findSome? Fact.model? := hd.model?
  have named {model : String} (h : d.model? = some model) :
      model = name ∧ ∃ s value, .reward name s value ∈ steps := by
    rw [first] at h
    obtain ⟨fact, mem, hf⟩ := List.exists_of_findSome?_eq_some h
    cases fact with
    | reward other s value =>
      obtain rfl := Option.some.inj hf
      obtain rfl := single _ _ _ mem
      exact ⟨rfl, s, value, mem⟩
    | states _ | named _ | labelled _ _ | transition _ _ _ => cases hf
  refine ⟨named, ?_⟩
  rintro ⟨rfl, s, value, mem⟩
  cases h : d.model? with
  | none =>
    rw [first, List.findSome?_eq_none_iff] at h
    cases h _ mem
  | some other => rw [(named h).1]

/-- **A draft becomes the chain that its facts determine.** -/
theorem determine_of_finish {c : Chain Float n} (h : d.finish initial = .ok ⟨n, c⟩) :
    Determine steps name initial c := by
  have described := finish_eq_ok_iff.mp h
  obtain rfl := described.size
  refine ⟨described.initial, fun s => ?_, fun s label => ?_, fun label => ?_, ?_, fun model hm => ?_⟩
  · rw [Chain.row, described.rows, map_get_rowsOf hd]
  · rw [described.labelling, hd.has_labelling (Nat.le_refl _)]
    simp
  · rw [described.labelling, mem_names_labelling hd]
  · rw [described.reward, rewardModel?, Option.isSome_map, Option.isSome_iff_exists]
    simp only [model?_eq_some_iff hd single, exists_eq_left]
  · rw [described.reward, rewardModel?] at hm
    obtain ⟨_, named, rfl⟩ := Option.map_eq_some_iff.mp hm
    refine ⟨((model?_eq_some_iff hd single).mp named).1, fun s => ?_⟩
    rw [get_ofFn, hd.reward]
    rfl

end Single

end Steps

/-! ## Adding facts one by one -/

/-- Facts that speak of the same rewards can be added one by one. -/
theorem foldlM_state? {name : String} (named : ∀ model, d.model? = some model → model = name)
    (single : ∀ model s value, .reward model s value ∈ steps → model = name) :
    steps.foldlM state? d = some (steps.foldl state d) := by
  induction steps generalizing d with
  | nil => rfl
  | cons fact rest ih =>
    have own (model : String) (h : fact.model? = some model) : model = name := by
      cases fact with
      | reward other s value =>
        obtain rfl := Option.some.inj h
        exact single other s value List.mem_cons_self
      | states _ | named _ | labelled _ _ | transition _ _ _ => cases h
    have added : d.state? fact = some (d.state fact) := by
      unfold state?
      split
      · next model other hm ho => rw [if_pos ((named model hm).trans (own other ho).symm)]
      · rfl
    have named' (model : String) (h : (d.state fact).model? = some model) : model = name := by
      rw [model?_state, Option.or_eq_some_iff] at h
      rcases h with h | ⟨-, h⟩
      · exact named model h
      · exact own model h
    rw [List.foldlM_cons, added]
    exact ih named' fun model s value mem => single model s value (List.mem_cons_of_mem _ mem)

/-- **A draft to which facts are added becomes the chain that they determine, or it is refused because of
what is wrong with them.** -/
theorem finish_stated {name : String}
    (single : ∀ model s value, .reward model s value ∈ steps → model = name) :
    ∃ d n, steps.foldlM state? (ofSize m) = some d ∧
      IsGreatest {k | k = m ∨ ∃ fact ∈ steps, fact.CallsFor k} n ∧
      ∀ initial,
        ((∃ r, d.finish initial = .ok r) ↔ Acceptable steps n initial) ∧
        (∀ r, d.finish initial = .ok r →
          ∃ c : Chain Float n, r = ⟨n, c⟩ ∧ Determine steps name initial c) ∧
        ∀ e, d.finish initial = .error e ↔ Refused steps n initial e := by
  have hd : (steps.foldl state (ofSize m)).Records (.states m :: steps) := (records_ofSize m).foldl_state steps
  refine ⟨_, _, foldlM_state? (by rintro _ ⟨⟩) single, isGreatest_size hd, fun initial =>
    ⟨exists_finish_iff_acceptable hd, ?_, fun e => finish_eq_error_iff hd⟩⟩
  rintro ⟨n, c⟩ accepted
  obtain rfl := (finish_eq_ok_iff.mp accepted).size
  exact ⟨c, rfl, determine_of_finish hd single accepted⟩

/-- Moves of three states that are stated in turn, and a reward for the first of them. -/
def inTurn : List Fact :=
  [.transition 1 1 0, .transition 0 0.5 0, .transition 2 1 2, .transition 0 0.5 2, .reward "steps" 0 1]

/-- Moves that are stated in turn come to stand together. -/
theorem finish_inTurn : ∃ d, inTurn.foldlM state? (ofSize 0) = some d ∧
    (∃ c : Chain Float 3, d.finish 1 = .ok ⟨3, c⟩ ∧ Determine inTurn "steps" 1 c) ∧
    d.finish 3 = .error (.initialOutOfBounds 3 3) := by
  have single : ∀ model s value, .reward model s value ∈ inTurn → model = "steps" := by
    simp +contextual [inTurn]
  obtain ⟨d, n, added, -, finished⟩ := finish_stated (m := 0) single
  have computed : ((inTurn.foldlM state? (ofSize 0)).bind fun d =>
      (d.finish 1).toOption.map (·.1)) = some 3 := by
    decide +kernel
  rw [added, Option.bind_some, Option.map_eq_some_iff] at computed
  obtain ⟨r, accepted, size⟩ := computed
  have accepted := eq_ok_of_toOption accepted
  obtain ⟨c, rfl, determined⟩ := (finished 1).2.1 r accepted
  obtain rfl : n = 3 := size
  exact ⟨d, added, ⟨c, accepted, determined⟩, ((finished 3).2.2 _).mpr (.initial (Nat.le_refl 3))⟩

end Draft

end HoleBlame
