import HoleBlame.Proofs.Drafts
import HoleBlame.Proofs.Queueing

/-!
# The member that results when the holes are filled

When all states that can be reached have been visited, what has been stated about them describes a chain
(`Sketch.describes_chain`): no state is missing, since a reward is stated for every state, and every state is
described once.  The chain is accepted if the rows of the sketch are, so the holes can always be filled
(`Sketch.resolve?_eq_some`).

The member is the part of the quotient model that can be reached (`Sketch.Resolves`), whose states are told
apart by the states of the quotient model that they come from (`Sketch.get_injective`).
-/

namespace HoleBlame

open Relation (ReflTransGen)

variable {n h : ℕ} {values : Vector ℕ h} {initial q : Fin n}

namespace Sketch

open Resolution (moveFacts headFacts visitFacts)

/-- Every choice has a row that a chain can have.  No row is empty, since the probabilities of an empty one do
not add up to one. -/
structure Accepted (k : Sketch Float n h) : Prop where
  valid : ∀ q i, ∀ e ∈ ((k.states.get q).choices.get i).row, Draft.validProbability e.prob = true
  sums : ∀ q i, Draft.isOff (Draft.rowSum ((k.states.get q).choices.get i).row) = false

/-! ## The order of the states -/

section Order

variable {α : Type} {k : Sketch α n h} {s : Fin (k.order values initial).length}

theorem idxOf_get : (k.order values initial).idxOf ((k.order values initial).get s) = s :=
  List.get_idxOf nodup_order s

theorem get_injective {t : Fin (k.order values initial).length}
    (same : (k.order values initial).get s = (k.order values initial).get t) : s = t :=
  List.nodup_iff_injective_get.mp nodup_order same

/-- The chain starts in the given state. -/
theorem get_initial : (k.order values initial).get (k.chain values initial).initial = initial := by
  have first : k.order values initial = _ := Graph.explore_eq_queued
  have start : (k.order values initial).head? = some initial := by
    rw [first, Graph.queued_cons]
    rfl
  rw [List.head?_eq_getElem?] at start
  exact (List.getElem?_eq_some_iff.mp start).2

theorem flatMap_order {β : Type} (f : Fin n → List β) : (k.order values initial).flatMap f =
    (List.finRange (k.order values initial).length).flatMap fun s => f ((k.order values initial).get s) := by
  conv_lhs => rw [← List.map_get_finRange (k.order values initial), List.flatMap_map]

theorem row_chain : (k.chain values initial).row s =
    k.rowOf values initial ((k.order values initial).get s) (List.get_mem _ s) := by
  simp [Chain.row, chain]

/-- A row leads to the states with the numbers that the successors have. -/
theorem map_row {β : Type} (f : ℕ → α → β) :
    ((k.chain values initial).row s).map (fun e => f e.next.val e.prob) =
      (k.choice values ((k.order values initial).get s)).row.map fun e =>
        f ((k.order values initial).idxOf e.next) e.prob := by
  rw [row_chain, rowOf, List.map_map]
  exact List.attach_map_val (f := fun e : Edge α n => f ((k.order values initial).idxOf e.next) e.prob)

/-- The transitions of the chain are those of the quotient model. -/
theorem mem_successors_chain {t : Fin (k.order values initial).length} :
    t ∈ (k.chain values initial).successors s ↔
      (k.order values initial).get t ∈ k.successors values ((k.order values initial).get s) := by
  rw [Chain.successors, row_chain, rowOf, List.map_map, successors]
  constructor
  · intro ht
    obtain ⟨⟨e, own⟩, -, rfl⟩ := List.mem_map.mp ht
    refine List.mem_map.mpr ⟨e, own, ?_⟩
    exact (List.idxOf_get _).symm
  · intro ht
    obtain ⟨e, own, led⟩ := List.mem_map.mp ht
    refine List.mem_map.mpr ⟨⟨e, own⟩, List.mem_attach _ _, Fin.ext ?_⟩
    show (k.order values initial).idxOf e.next = t
    rw [led, idxOf_get]

/-- Every state can be reached in the chain. -/
theorem mem_reachable_chain : s ∈ Graph.reachable (k.chain values initial) := by
  obtain ⟨_, first, path⟩ := Graph.mem_closure.mp (List.get_mem (k.order values initial) s)
  rw [List.mem_singleton.mp first] at path
  rw [Graph.mem_reachable]
  -- By induction on the path: the states on it have numbers, too.
  have general : ∀ q, ReflTransGen (fun a b => b ∈ k.successors values a) initial q →
      ∀ t, (k.order values initial).get t = q →
        (k.chain values initial).Path (fun _ => True) (k.chain values initial).initial t := by
    intro q path
    induction path with
    | refl =>
      rintro t ht
      have same : t = (k.chain values initial).initial := get_injective (ht.trans get_initial.symm)
      exact same ▸ .refl
    | tail before move ih =>
      rintro t rfl
      obtain ⟨r, rfl⟩ := List.get_of_mem (Graph.mem_closure.mpr ⟨initial, List.mem_singleton_self _, before⟩)
      exact (ih r rfl).tail trivial (mem_successors_chain.mpr move)
  exact general _ path s rfl

end Order

/-! ## The chain that is described -/

section Facts

variable {k : Sketch Float n h} {s : Fin (k.order values initial).length}

theorem moveFacts_get :
    moveFacts (k.order values initial) s (k.choice values ((k.order values initial).get s)).row =
      ((k.chain values initial).row s).map fun e => .transition s e.prob e.next :=
  (map_row fun next prob => Fact.transition s prob next).symm

theorem visitFacts_get : visitFacts k values (k.order values initial) ((k.order values initial).get s) =
    (if (k.states.get ((k.order values initial).get s)).isTarget then [.labelled s randomTarget] else []) ++
      [.reward randomModel s (k.choice values ((k.order values initial).get s)).reward] ++
      ((k.chain values initial).row s).map fun e => .transition s e.prob e.next := by
  rw [visitFacts, headFacts, idxOf_get, moveFacts_get]

theorem edges_visitFacts :
    (visitFacts k values (k.order values initial) ((k.order values initial).get s)).filterMap
      (Fact.edge? (k.order values initial).length) =
        ((k.chain values initial).row s).map (s, ·) := by
  have labels : ∀ b : Bool, (if b then [Fact.labelled s randomTarget] else []).filterMap
      (Fact.edge? (k.order values initial).length) = [] := by
    rintro (_ | _) <;> rfl
  rw [visitFacts_get, List.filterMap_append, List.filterMap_append, labels]
  simp [List.filterMap_map, Function.comp_def, Fact.edge?]

/-- A visit states one reward. -/
theorem values_visitFacts {t : Fin (k.order values initial).length} :
    Facts.values (visitFacts k values (k.order values initial) ((k.order values initial).get s)) t =
      if s = t then [(k.choice values ((k.order values initial).get t)).reward] else [] := by
  have labels : ∀ b : Bool, (if b then [Fact.labelled s randomTarget] else []).filterMap
      (Fact.value? t) = [] := by
    rintro (_ | _) <;> rfl
  rw [Facts.values, visitFacts_get, List.filterMap_append, List.filterMap_append, labels]
  by_cases same : s = t
  · subst same
    simp [List.filterMap_map, Function.comp_def, Fact.value?]
  · simp [List.filterMap_map, Function.comp_def, Fact.value?, Fin.val_inj, same]

theorem labelled_mem_visitFacts {t : ℕ} {label : String} : .labelled t label ∈
    visitFacts k values (k.order values initial) ((k.order values initial).get s) ↔
      (k.states.get ((k.order values initial).get s)).isTarget = true ∧ t = s ∧ label = randomTarget := by
  rw [visitFacts_get]
  split <;> simp_all

theorem size_le_of_mem_visitFacts {fact : Fact} (hf : fact ∈
    visitFacts k values (k.order values initial) ((k.order values initial).get s)) :
    fact.size ≤ (k.order values initial).length := by
  rw [visitFacts_get] at hf
  rcases List.mem_append.mp hf with head | move
  · rcases List.mem_append.mp head with label | reward
    · split at label
      · obtain rfl := List.mem_singleton.mp label
        exact s.isLt
      · cases label
    · obtain rfl := List.mem_singleton.mp reward
      exact s.isLt
  · obtain ⟨e, -, rfl⟩ := List.mem_map.mp move
    exact Nat.succ_le_of_lt (max_lt s.isLt e.next.isLt)

end Facts

/-- All that is stated. -/
def facts (k : Sketch Float n h) (values : Vector ℕ h) (initial : Fin n) : List Fact :=
  [.states 1, .named randomTarget] ++
    (k.order values initial).flatMap (visitFacts k values (k.order values initial))

section Describes

variable {k : Sketch Float n h}

theorem mem_facts {fact : Fact} : fact ∈ k.facts values initial ↔
    fact = .states 1 ∨ fact = .named randomTarget ∨
      ∃ s, fact ∈ visitFacts k values (k.order values initial) ((k.order values initial).get s) := by
  rw [facts, flatMap_order]
  simp

theorem reward_mem_facts (s : Fin (k.order values initial).length) :
    .reward randomModel s (k.choice values ((k.order values initial).get s)).reward ∈
      k.facts values initial := by
  refine mem_facts.mpr (.inr (.inr ⟨s, ?_⟩))
  rw [visitFacts_get]
  exact List.mem_append_left _ (List.mem_append_right _ List.mem_cons_self)

/-- One reward is stated for every state. -/
theorem values_facts (s : Fin (k.order values initial).length) :
    Facts.values (k.facts values initial) s =
      [(k.choice values ((k.order values initial).get s)).reward] := by
  rw [Facts.values, facts, flatMap_order, List.filterMap_append, List.filterMap_flatMap]
  exact (List.flatMap_congr fun _ _ => values_visitFacts).trans (Draft.flatMap_finRange_ite s _)

/-- No other label is named. -/
theorem mark_of_mem {fact : Fact} (hf : fact ∈ k.facts values initial)
    (S : StateSet (k.order values initial).length) :
    ∃ T, fact.mark ((Labelling.empty _).set randomTarget S) = (Labelling.empty _).set randomTarget T := by
  rcases mem_facts.mp hf with rfl | rfl | ⟨s, hs⟩
  · exact ⟨S, rfl⟩
  · exact ⟨S, Labelling.update_set⟩
  · cases fact with
    | labelled t label =>
      obtain ⟨-, rfl, rfl⟩ := labelled_mem_visitFacts.mp hs
      exact ⟨S.insert s, (dif_pos s.isLt).trans Labelling.update_set⟩
    | named label =>
      rw [visitFacts_get] at hs
      simp at hs
    | states _ | transition _ _ _ | reward _ _ _ => exact ⟨S, rfl⟩

theorem exists_foldl_mark (k : Sketch Float n h) (values : Vector ℕ h) (initial : Fin n) :
    ∃ T, (k.facts values initial).foldl Fact.mark (.empty _) =
      (Labelling.empty (k.order values initial).length).set randomTarget T := by
  have general : ∀ facts : List Fact, (∀ fact ∈ facts, fact ∈ k.facts values initial) →
      ∀ S : StateSet (k.order values initial).length,
        ∃ T, facts.foldl Fact.mark ((Labelling.empty _).set randomTarget S) =
          (Labelling.empty _).set randomTarget T := by
    intro facts sub
    induction facts with
    | nil => exact fun S => ⟨S, rfl⟩
    | cons fact rest ih =>
      intro S
      obtain ⟨first, others⟩ := List.forall_mem_cons.mp sub
      obtain ⟨T, marked⟩ := mark_of_mem first S
      rw [List.foldl_cons, marked]
      exact ih others T
  exact general _ (fun fact hf => List.mem_append_right _ hf) (.empty _)

variable {d : Draft} (records : d.Records (k.facts values initial))
include records

theorem size_draft : d.size = (k.order values initial).length := by
  have positive : 0 < (k.order values initial).length := (k.chain values initial).initial.pos
  have last := reward_mem_facts (k := k) ⟨(k.order values initial).length - 1, Nat.sub_one_lt_of_lt positive⟩
  refine records.size_eq (fun fact hf => ?_) last (Nat.sub_add_cancel positive)
  rcases mem_facts.mp hf with rfl | rfl | ⟨s, hs⟩
  · exact positive
  · exact Nat.zero_le _
  · exact size_le_of_mem_visitFacts hs

theorem edges_draft : d.edges (k.order values initial).length =
    (List.finRange _).flatMap fun s => ((k.chain values initial).rows.get s).map (s, ·) := by
  rw [records.edges, facts, flatMap_order, List.filterMap_append, List.filterMap_flatMap]
  simp only [edges_visitFacts]
  rfl

theorem labelling_draft : d.labelling (k.order values initial).length = (k.chain values initial).labelling := by
  have fits := Nat.le_of_eq (size_draft records)
  obtain ⟨T, marked⟩ := exists_foldl_mark k values initial
  have labelling := (records.labelling _ fits).trans marked
  have targets : T = .ofFn fun s => (k.states.get ((k.order values initial).get s)).isTarget := by
    refine StateSet.ext fun s => ?_
    have carried : s ∈ T ↔ .labelled s randomTarget ∈ k.facts values initial := by
      rw [← records.has_labelling fits, labelling]
      rw [Labelling.has_set, if_pos rfl]
    rw [carried, mem_facts, StateSet.mem_ofFn]
    simp only [reduceCtorEq, false_or, labelled_mem_visitFacts, Fin.val_inj, and_true]
    constructor
    · rintro ⟨t, marked, rfl⟩
      exact marked
    · exact fun marked => ⟨s, marked, rfl⟩
  rw [labelling, targets]
  rfl

theorem model?_draft : d.model? = some randomModel := by
  refine records.model?_eq_some (reward_mem_facts (k.chain values initial).initial) rfl fun fact hf => ?_
  rcases mem_facts.mp hf with rfl | rfl | ⟨s, hs⟩
  · rintro _ ⟨⟩
  · rintro _ ⟨⟩
  · exact Resolution.oneModel_visitFacts fact hs

theorem rewardModel?_draft :
    d.rewardModel? (k.order values initial).length = (k.chain values initial).reward := by
  rw [Draft.rewardModel?, model?_draft records]
  simp only [Option.map_some, records.reward, values_facts]
  rfl

/-- **What is stated describes the chain.** -/
theorem describes_chain (accepted : k.Accepted) : d.Describes 0 (k.chain values initial) := by
  have edges := edges_draft records
  constructor
  case size => exact size_draft records
  case initial => rfl
  case rows => rw [edges, Draft.rowsOf_flatMap]
  case labelling => exact (labelling_draft records).symm
  case reward => exact (rewardModel?_draft records).symm
  case valid =>
    rw [edges]
    intro _ listed
    obtain ⟨s, -, hs⟩ := List.mem_flatMap.mp listed
    obtain ⟨e, he, rfl⟩ := List.mem_map.mp hs
    rw [show (k.chain values initial).rows.get s = _ from row_chain] at he
    obtain ⟨⟨e, own⟩, -, rfl⟩ := List.mem_map.mp he
    exact accepted.valid _ _ e own
  case sums =>
    intro s
    have probs : ((k.chain values initial).row s).map (·.prob) =
        (k.choice values ((k.order values initial).get s)).row.map (·.prob) :=
      map_row fun _ prob => prob
    have same : Draft.rowSum ((k.chain values initial).row s) =
        Draft.rowSum (k.choice values ((k.order values initial).get s)).row := by
      rw [Draft.rowSum, ← List.foldl_map, probs, List.foldl_map]
      rfl
    rw [same]
    exact accepted.sums _ _

end Describes

/-! ## The member -/

/-- The maps of a member cover its states. -/
theorem ofMaps?_eq_ok {α : Type} (m : Member α n) :
    Member.ofMaps? m.chain m.quotientState.toArray m.choice.toArray = .ok m := by
  rw [Member.ofMaps?, dif_pos m.quotientState.size_toArray, dif_pos m.choice.size_toArray]

/-- A map that lists something about each state in order. -/
theorem eq_toArray_ofFn {α β : Type} {k : Sketch α n h} {f : Fin n → β} {list : Array β}
    (listed : list.toList = (k.order values initial).map f) :
    list = (Vector.ofFn fun s => f ((k.order values initial).get s)).toArray := by
  refine Array.toList_inj.mp ?_
  have split : List.ofFn (fun s => f ((k.order values initial).get s)) =
      ((List.finRange _).map (k.order values initial).get).map f := by
    rw [List.ofFn_eq_map, List.map_map]
    rfl
  rw [listed, Vector.toArray_ofFn, Array.toList_ofFn, split, List.map_get_finRange]

/-- **Filling the holes state by state gives the member.** -/
theorem resolve?_eq_some {k : Sketch Float n h} (accepted : k.Accepted) :
    k.resolve? values initial = some ⟨_, k.resolve values initial⟩ := by
  obtain ⟨x, ran, standing, empty⟩ :=
    Resolution.exists_run? (Resolution.standing_start : Resolution.Standing k values _ [] (.start initial))
  have finished := Draft.finish_eq_ok_iff.mpr (describes_chain standing.records accepted)
  have states : x.states.toList = k.order values initial := by
    rw [standing.states, empty, List.append_nil]
  have quotient : x.states.map (·.val) = (k.resolve values initial).quotientState.toArray :=
    eq_toArray_ofFn (by rw [Array.toList_map, states])
  have choices : x.choices = (k.resolve values initial).choice.toArray :=
    eq_toArray_ofFn standing.choices
  have mapped := ofMaps?_eq_ok (k.resolve values initial)
  rw [← quotient, ← choices] at mapped
  simp only [resolve?, ran, Option.bind_eq_bind, Option.bind_some, finished, Except.toOption]
  rw [show Member.ofMaps? (k.chain values initial) _ _ = _ from mapped]
  rfl

/-- The member is the part of the quotient model that can be reached from a state when the holes are filled. -/
structure Resolves (k : Sketch Float n h) (values : Vector ℕ h) (initial : Fin n) {m : ℕ}
    (x : Member Float m) : Prop where
  injective : ∀ s t, x.quotientState.get s = x.quotientState.get t → s = t
  start : x.chain.initial.val = 0 ∧ x.quotientState.get x.chain.initial = initial
  image : ∀ number, (∃ s, x.quotientState.get s = number) ↔
    ∃ q : Fin n, q.val = number ∧ ReflTransGen (fun a b => b ∈ k.successors values a) initial q
  /-- The choice is the sum of the values of the controlling holes, modulo two. -/
  choice : ∀ s (q : Fin n), x.quotientState.get s = q → x.choice.get s =
    2 * q + (k.states.get q).controllers.toList.foldl (fun sum x => sum + values.get x) 0 % 2
  /-- The row is that of the choice, in order. -/
  row : ∀ s (q : Fin n) (i : Fin 2), x.quotientState.get s = q → x.choice.get s = 2 * q + i →
    (x.chain.row s).map (fun e => (x.quotientState.get e.next, e.prob)) =
      ((k.states.get q).choices.get i).row.map fun e => (e.next.val, e.prob)
  names : x.chain.labelling.names = [randomTarget]
  target : ∀ s (q : Fin n), x.quotientState.get s = q →
    x.chain.labelling.has s randomTarget = (k.states.get q).isTarget
  reward : ∃ model, x.chain.rewardModel? randomModel = some model ∧
    ∀ s (q : Fin n) (i : Fin 2), x.quotientState.get s = q → x.choice.get s = 2 * q + i →
      model.rewards.get s = ((k.states.get q).choices.get i).reward
  reachable : ∀ s, s ∈ Graph.reachable x.chain

theorem resolves_resolve {k : Sketch Float n h} : k.Resolves values initial (k.resolve values initial) := by
  have state (s) : (k.resolve values initial).quotientState.get s = ((k.order values initial).get s).val :=
    get_ofFn _ s
  have option (s) : (k.resolve values initial).choice.get s = 2 * ((k.order values initial).get s).val +
      (k.option values ((k.order values initial).get s)).val := get_ofFn _ s
  have same {s} {q : Fin n} (hq : (k.resolve values initial).quotientState.get s = q) :
      (k.order values initial).get s = q := Fin.ext ((state s).symm.trans hq)
  have taken {s} {q : Fin n} {i : Fin 2} (hq : (k.resolve values initial).quotientState.get s = q)
      (hi : (k.resolve values initial).choice.get s = 2 * q + i) : k.option values q = i := by
    rw [option, same hq] at hi
    exact Fin.ext (Nat.add_left_cancel hi)
  constructor
  case injective =>
    intro s t e
    rw [state, state] at e
    exact get_injective (Fin.ext e)
  case start => exact ⟨rfl, (state _).trans (congrArg Fin.val get_initial)⟩
  case image =>
    intro number
    have met {q : Fin n} : q ∈ k.order values initial ↔
        ReflTransGen (fun a b => b ∈ k.successors values a) initial q :=
      Graph.mem_closure.trans (by simp)
    constructor
    · rintro ⟨s, rfl⟩
      exact ⟨_, (state s).symm, met.mp (List.get_mem _ s)⟩
    · rintro ⟨q, rfl, path⟩
      obtain ⟨s, rfl⟩ := List.get_of_mem (met.mpr path)
      exact ⟨s, state s⟩
  case choice =>
    intro s q hq
    rw [option, same hq]
    rfl
  case row =>
    intro s q i hq hi
    obtain rfl := taken hq hi
    obtain rfl := same hq
    show ((k.chain values initial).row s).map _ = (k.choice values _).row.map _
    rw [row_chain, rowOf, List.map_map]
    refine (List.map_congr_left fun e _ => ?_).trans
      (List.attach_map_val (f := fun e : Edge Float n => (e.next.val, e.prob)))
    exact congrArg (·, e.1.prob) ((state _).trans (congrArg Fin.val (List.idxOf_get _)))
  case names => rfl
  case target =>
    intro s q hq
    obtain rfl := same hq
    refine Bool.eq_iff_iff.mpr (Labelling.has_set.trans ?_)
    rw [if_pos rfl, StateSet.mem_ofFn]
  case reward =>
    refine ⟨_, rfl, fun s q i hq hi => ?_⟩
    obtain rfl := taken hq hi
    obtain rfl := same hq
    exact get_ofFn _ s
  case reachable => exact fun s => mem_reachable_chain

/-- **Filling the holes is always possible, and gives the reachable part of the quotient model.** -/
theorem resolve?_resolves {k : Sketch Float n h} (accepted : k.Accepted) :
    k.resolve? values initial = some ⟨_, k.resolve values initial⟩ ∧
      k.Resolves values initial (k.resolve values initial) :=
  ⟨resolve?_eq_some accepted, resolves_resolve⟩

/-- All holes decide together whether a state is left, half of the times, for the one on the other side. -/
def crossing (n h : ℕ) : Sketch Float n h :=
  ⟨.ofFn fun s => ⟨.ofFn fun _ => true, s.val == 0, #v[⟨[⟨s, 1⟩], 0⟩, ⟨[⟨s.rev, 0.5⟩, ⟨s, 0.5⟩], 1⟩]⟩⟩

/-- Both of two states can be reached from the second one, which gets the first number. -/
theorem resolve?_crossing : (crossing 2 2).Accepted ∧
    ((crossing 2 2).resolve? #v[1, 0] 1 = some ⟨_, (crossing 2 2).resolve #v[1, 0] 1⟩ ∧
      (crossing 2 2).Resolves #v[1, 0] 1 ((crossing 2 2).resolve #v[1, 0] 1)) ∧
    ((crossing 2 2).resolve? #v[1, 0] 1).map (fun r => (r.2.quotientState.toList, r.2.choice.toList)) =
      some ([1, 0], [3, 1]) := by
  have accepted : (crossing 2 2).Accepted := ⟨by decide +kernel, by decide +kernel⟩
  exact ⟨accepted, resolve?_resolves accepted, by decide +kernel⟩

end Sketch

end HoleBlame
