import HoleBlame.Chain.Draft
import HoleBlame.Proofs.Labellings

/-!
# What a draft has gathered

A draft grows while facts are stated, its labels at once and its rewards late.  None of this can be seen in
the end, and the list of all facts says why: the draft has as many states as the facts call for, and what it
knows of transitions, labels and rewards is what going through the list would find if all states had been
there from the beginning (`Draft.Records`).

To grow changes nothing about what is known in a chain that is large enough (`Draft.edges_require`,
`Draft.labelling_require`, `Draft.reward_require`).  So each fact keeps the draft in step with the list
(`Draft.Records.state`), and a draft records all facts that have been stated (`Draft.Records.foldl_state`).
-/

namespace HoleBlame

variable {n m k : ℕ}

/-! ## Facts about a chain of a given size -/

namespace Fact

/-- The transition that a fact states among `n` states, with its source. -/
def edge? (n : ℕ) : Fact → Option (Fin n × Edge Float n)
  | transition source prob target =>
    if h : source < n ∧ target < n then some (⟨source, h.1⟩, ⟨⟨target, h.2⟩, prob⟩) else none
  | _ => none

/-- What a fact says about labels. -/
def mark (L : Labelling n) : Fact → Labelling n
  | named label => L.introduce label
  | labelled state label => if h : state < n then L.add ⟨state, h⟩ label else L
  | _ => L

/-- The reward that a fact states for a state. -/
def value? (s : ℕ) : Fact → Option Float
  | reward _ state value => if state = s then some value else none
  | _ => none

end Fact

/-- The rewards stated for a state, in their order. -/
def Facts.values (facts : List Fact) (s : ℕ) : List Float :=
  facts.filterMap (Fact.value? s)

/-! ## Growing -/

namespace Labelling

variable {L : Labelling n}

theorem widen_self : L.widen n = L := by
  refine ext_get? rfl fun name => ?_
  rw [get?_widen]
  cases L.get? name with
  | none => rfl
  | some S => exact congrArg some (StateSet.ext fun s => by simp)

/-- A labelling may grow in two steps. -/
theorem widen_widen (h : n ≤ m) : (L.widen m).widen k = L.widen k := by
  refine ext_get? rfl fun name => ?_
  rw [get?_widen, get?_widen, get?_widen, Option.map_map]
  refine congrArg (Option.map · (L.get? name)) (funext fun S => StateSet.ext fun s => ?_)
  constructor
  · intro mem
    obtain ⟨_, within⟩ := StateSet.mem_widen.mp mem
    obtain ⟨lt, mem⟩ := StateSet.mem_widen.mp within
    exact StateSet.mem_widen.mpr ⟨lt, mem⟩
  · intro mem
    obtain ⟨lt, mem⟩ := StateSet.mem_widen.mp mem
    exact StateSet.mem_widen.mpr ⟨Nat.lt_of_lt_of_le lt h, StateSet.mem_widen.mpr ⟨lt, mem⟩⟩

/-- A set may be changed before a labelling grows or after it. -/
theorem widen_update {name : String} {change : StateSet n → StateSet n} {change' : StateSet m → StateSet m}
    (same : ∀ S, (change S).widen m = change' (S.widen m)) :
    (L.update name change).widen m = (L.widen m).update name change' := by
  have names : (L.widen m).names = L.names := rfl
  refine ext_get? ?_ fun other => ?_
  · show (L.update name change).names = _
    rw [names_update, names_update, names]
  · rw [get?_widen, get?_update, get?_update, get?_widen, get?_widen]
    split
    · have empty : (StateSet.empty n).widen m = .empty m := StateSet.ext fun s => by simp
      cases L.get? name with
      | none => exact congrArg some ((same _).trans (congrArg change' empty))
      | some S => exact congrArg some (same S)
    · rfl

end Labelling

theorem Fact.widen_mark {L : Labelling n} {fact : Fact} (fits : fact.size ≤ n) (h : n ≤ m) :
    (fact.mark L).widen m = fact.mark (L.widen m) := by
  cases fact with
  | named label => exact Labelling.widen_update fun S => rfl
  | labelled state label =>
    have inside : state < n := fits
    simp only [mark, dif_pos inside, dif_pos (Nat.lt_of_lt_of_le inside h)]
    refine Labelling.widen_update fun S => StateSet.ext fun s => ?_
    simp only [StateSet.mem_widen, StateSet.mem_insert, Fin.ext_iff]
    constructor
    · rintro ⟨lt, same | mem⟩
      · exact .inl same
      · exact .inr ⟨lt, mem⟩
    · rintro (same | ⟨lt, mem⟩)
      · exact ⟨same ▸ inside, .inl same⟩
      · exact ⟨lt, .inr mem⟩
  | states _ | transition _ _ _ | reward _ _ _ => rfl

namespace PartialRewards

variable {r : PartialRewards n} {s : ℕ}

/-- The reward of a state. -/
def value (r : PartialRewards n) (s : ℕ) : Float :=
  r.values[s]?.getD 0

theorem get_resized (s : Fin n) : r.resized.get s = r.value s := by
  have found : r.resized.toArray[s.val]? = some (r.resized.get s) := by
    rw [Vector.getElem?_toArray]
    exact Vector.getElem?_eq_getElem s.isLt
  rw [resized, Array.getElem?_append] at found
  rw [value]
  split at found
  · rw [found]
    rfl
  · next beyond =>
    rw [Array.getElem?_eq_none (Nat.le_of_not_lt beyond)]
    rw [Array.getElem?_replicate] at found
    split at found
    · exact (Option.some.inj found).symm
    · cases found

theorem value_zeros {name : String} : (zeros name n).value s = 0 := by
  rw [value, zeros, Array.getElem?_replicate]
  split <;> rfl

/-- The reward that is set is the reward of that state, and no other reward changes. -/
theorem value_set {t : Fin n} {x : Float} : (r.set t x).value s = if s = t.val then x else r.value s := by
  by_cases inside : s < n
  · have found : (assign r.resized t x).toArray[s]? = some ((assign r.resized t x).get ⟨s, inside⟩) := by
      rw [Vector.getElem?_toArray]
      exact Vector.getElem?_eq_getElem inside
    rw [value, set, found, Option.getD_some, get_assign, get_resized]
    exact if_congr Fin.ext_iff rfl rfl
  · have other : s ≠ t.val := fun same => inside (same ▸ t.isLt)
    rw [if_neg other, value, value, Array.getElem?_eq_none, Array.getElem?_eq_none]
    · exact Nat.le_trans r.fits (Nat.le_of_not_lt inside)
    · exact Nat.le_trans (r.set t x).fits (Nat.le_of_not_lt inside)

end PartialRewards

/-! ## Drafts -/

namespace Draft

variable {d : Draft} {fact : Fact}

/-- The transitions among the first `n` states, in the order in which they were stated. -/
def edges (d : Draft) (n : ℕ) : List (Fin n × Edge Float n) :=
  d.transitions.toList.filterMap fun t => (Fact.transition t.source t.prob t.target).edge? n

/-- The labels in a chain with `n` states. -/
def labelling (d : Draft) (n : ℕ) : Labelling n :=
  d.labels.widen n

/-- The reward of a state, which is zero if none has been stated. -/
def reward (d : Draft) (s : ℕ) : Float :=
  (d.rewards.map (·.value s)).getD 0

/-- The rewards in a chain with `n` states, if one has been stated. -/
def rewardModel? (d : Draft) (n : ℕ) : Option (RewardModel Float n) :=
  d.model?.map fun name => ⟨name, .ofFn fun s => d.reward s⟩

/-! ## Growing changes nothing -/

theorem edges_require : (d.require k).edges n = d.edges n := by
  unfold require
  split <;> rfl

theorem labelling_require : (d.require k).labelling n = d.labelling n := by
  unfold require
  split
  · next h => exact Labelling.widen_widen (Nat.le_of_lt h)
  · rfl

theorem model?_require : (d.require k).model? = d.model? := by
  unfold require
  split
  · exact Option.map_map ..
  · rfl

theorem reward_require {s : ℕ} : (d.require k).reward s = d.reward s := by
  unfold require
  split
  · exact congrArg (Option.getD · 0) (Option.map_map ..)
  · rfl

/-! ## What a fact adds -/

variable {fits : fact.size ≤ d.size}

theorem size_record : (d.record fact fits).size = d.size := by
  cases fact <;> rfl

theorem edges_record : (d.record fact fits).edges n = d.edges n ++ (fact.edge? n).toList := by
  cases fact with
  | transition source prob target =>
    show (d.transitions.push _).toList.filterMap _ = _
    rw [Array.toList_push, List.filterMap_append]
    rfl
  | states _ | named _ | labelled _ _ | reward _ _ _ => exact (List.append_nil _).symm

theorem labelling_record (h : d.size ≤ n) :
    (d.record fact fits).labelling n = fact.mark (d.labelling n) := by
  rw [labelling, labelling, ← Fact.widen_mark fits h]
  cases fact with
  | labelled state label =>
    have inside : state < d.size := fits
    rw [Fact.mark, dif_pos inside]
    rfl
  | states _ | transition _ _ _ | named _ | reward _ _ _ => rfl

theorem model?_record : (d.record fact fits).model? = d.model?.or fact.model? := by
  cases fact with
  | reward model state value =>
    show some ((d.rewards.getD _).set _ _).name = _
    rw [model?]
    cases d.rewards <;> rfl
  | states _ | transition _ _ _ | named _ | labelled _ _ => exact (Option.or_none ..).symm

theorem reward_record {s : ℕ} : (d.record fact fits).reward s = (fact.value? s).getD (d.reward s) := by
  cases fact with
  | reward model state value =>
    show ((d.rewards.getD _).set _ value).value s = _
    rw [PartialRewards.value_set, Fact.value?]
    by_cases same : state = s
    · rw [if_pos same.symm, if_pos same, Option.getD_some]
    · rw [if_neg (Ne.symm same), if_neg same, Option.getD_none, Draft.reward]
      cases d.rewards with
      | none => exact PartialRewards.value_zeros
      | some r => rfl
  | states _ | transition _ _ _ | named _ | labelled _ _ => rfl

theorem model?_state : (d.state fact).model? = d.model?.or fact.model? :=
  model?_record.trans (congrArg (Option.or · _) model?_require)

/-! ## Drafts and the facts stated to them -/

/-- A draft knows of a chain what a list of facts says. -/
structure Records (d : Draft) (facts : List Fact) : Prop where
  /-- It has the states that the facts call for. -/
  size : ∀ k, d.size ≤ k ↔ ∀ fact ∈ facts, fact.size ≤ k
  /-- It has their transitions, in their order. -/
  edges : ∀ n, d.edges n = facts.filterMap (Fact.edge? n)
  /-- Its labels are what they make of no labels. -/
  labelling : ∀ n, d.size ≤ n → d.labelling n = facts.foldl Fact.mark (.empty n)
  /-- The first reward decides the name of the reward model. -/
  model? : d.model? = facts.findSome? Fact.model?
  /-- The last reward of a state counts. -/
  reward : ∀ s, d.reward s = (Facts.values facts s).getLast?.getD 0

/-- A draft to which nothing has been stated. -/
theorem records_ofSize (m : ℕ) : (ofSize m).Records [.states m] where
  size k := by simp [ofSize, Fact.size]
  edges n := rfl
  labelling n _ := rfl
  model? := rfl
  reward s := rfl

namespace Records

variable {facts : List Fact}

/-- **Stating a fact to a draft adds it to the list.** -/
theorem state (h : d.Records facts) (fact : Fact) : (d.state fact).Records (facts ++ [fact]) where
  size k := by
    rw [Draft.state, size_record, size_require, Nat.max_le, h.size, List.forall_mem_append,
      List.forall_mem_singleton]
  edges n := by
    rw [Draft.state, edges_record, edges_require, h.edges, List.filterMap_append]
    cases found : fact.edge? n <;> simp [found]
  labelling n large := by
    rw [Draft.state, size_record] at large
    have earlier : d.size ≤ n := by
      rw [size_require] at large
      exact Nat.le_trans (Nat.le_max_left _ _) large
    rw [Draft.state, labelling_record large, labelling_require, h.labelling n earlier,
      List.foldl_append]
    rfl
  model? := by
    rw [model?_state, h.model?, List.findSome?_append]
    cases found : fact.model? <;> simp [found]
  reward s := by
    rw [Draft.state, reward_record, reward_require, h.reward, Facts.values, Facts.values,
      List.filterMap_append]
    cases found : fact.value? s <;> simp [found]

/-- **A draft records all facts that have been stated.** -/
theorem foldl_state (h : d.Records facts) (more : List Fact) :
    (more.foldl Draft.state d).Records (facts ++ more) := by
  induction more generalizing d facts with
  | nil => rwa [List.append_nil]
  | cons fact rest ih =>
    have next := ih (h.state fact)
    rwa [List.append_assoc] at next

/-- The largest number of states that is called for is the number of states. -/
theorem size_eq (h : d.Records facts) (le : ∀ fact ∈ facts, fact.size ≤ n) {fact : Fact} (mem : fact ∈ facts)
    (own : fact.size = n) : d.size = n :=
  Nat.le_antisymm ((h.size n).mpr le) (own ▸ (h.size d.size).mp (Nat.le_refl _) fact mem)

/-- If all rewards are in one model, it is that model, unless there are none. -/
theorem model?_eq_some (h : d.Records facts) {fact : Fact} {name : String} (mem : fact ∈ facts)
    (said : fact.model? = some name) (one : ∀ fact ∈ facts, ∀ model ∈ fact.model?, model = name) :
    d.model? = some name := by
  have rewarded : d.model?.isSome = true := by
    rw [h.model?, List.findSome?_isSome_iff]
    exact ⟨fact, mem, Option.isSome_of_eq_some said⟩
  obtain ⟨model, named⟩ := Option.isSome_iff_exists.mp rewarded
  obtain ⟨other, ho, same⟩ := List.exists_of_findSome?_eq_some (h.model?.symm.trans named)
  rw [named, one other ho model same]

end Records

end Draft

end HoleBlame
