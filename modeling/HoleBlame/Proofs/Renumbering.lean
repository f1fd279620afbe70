import HoleBlame.Annotated
import HoleBlame.Proofs.Labels
import HoleBlame.Proofs.Revelation
import Mathlib.Algebra.BigOperators.Fin

/-!
# New numbers for states and holes

States and holes are told apart by their numbers, and which one has which number should not matter.  A
permutation gives new numbers to the states of a chain or to the holes of a sketch, and `renumber` moves
everything along that is kept for each of them: the entry that a table had under the old number is found
under the new one (`get_renumber`).  Lists keep their order, so in particular the transitions of a state do.

What is here about an operation always says that it may be carried out before or after the change of
numbers.  The lemmas are named after the operation.
-/

namespace HoleBlame

variable {α β γ : Type} {n h : Nat} {σ : Equiv.Perm (Fin n)} {τ : Equiv.Perm (Fin h)}

/-- Two computations succeed together, with the same result under new numbers, or they fail together with
errors that are alike. -/
inductive Likewise {ε β : Type} (alike : ε → ε → Prop) (move : β → β) :
    Except ε β → Except ε β → Prop where
  | ok (result : β) : Likewise alike move (.ok result) (.ok (move result))
  | error {reason reason' : ε} (h : alike reason reason') :
    Likewise alike move (.error reason) (.error reason')

theorem Likewise.ok_of_eq {ε β : Type} {alike : ε → ε → Prop} {move : β → β} {result result' : β}
    (h : result' = move result) : Likewise alike move (.ok result) (.ok result') :=
  h ▸ .ok result

/-! ## Tables and sets -/

/-- The same table under new numbers. -/
def renumber (σ : Equiv.Perm (Fin n)) (table : Vector β n) : Vector β n :=
  .ofFn fun i => table.get (σ.symm i)

@[simp] theorem get_renumber (table : Vector β n) (i : Fin n) :
    (renumber σ table).get (σ i) = table.get i := by
  simp [renumber]

/-- A table that has the old entries under the new numbers is the renumbered one. -/
theorem eq_renumber {table other : Vector β n} (same : ∀ i, other.get (σ i) = table.get i) :
    other = renumber σ table := by
  refine ext_get fun i => ?_
  obtain ⟨j, rfl⟩ := σ.surjective i
  rw [same, get_renumber]

theorem map_renumber (f : β → γ) (table : Vector β n) :
    (renumber σ table).map f = renumber σ (table.map f) :=
  eq_renumber fun i => by
    have get_map (t : Vector β n) (j : Fin n) : (t.map f).get j = f (t.get j) := by
      simp [get_eq_getElem]
    rw [get_map, get_map, get_renumber]

theorem assign_renumber (table : Vector β n) (i : Fin n) (x : β) :
    assign (renumber σ table) (σ i) x = renumber σ (assign table i x) :=
  eq_renumber fun j => by simp [get_assign]

theorem renumber_replicate (x : β) : renumber σ (Vector.replicate n x) = Vector.replicate n x :=
  (eq_renumber fun j => by simp).symm

namespace StateSet

variable {S T : StateSet n} {s : Fin n}

/-- The same states under new numbers. -/
def renumber (σ : Equiv.Perm (Fin n)) (S : StateSet n) : StateSet n :=
  ⟨HoleBlame.renumber σ S.bits⟩

@[simp] theorem mem_renumber : σ s ∈ S.renumber σ ↔ s ∈ S := by
  simp [mem_def, renumber]

/-- A set that has the old members under the new numbers is the renumbered one. -/
theorem eq_renumber (same : ∀ s, σ s ∈ T ↔ s ∈ S) : T = S.renumber σ := by
  refine ext fun s => ?_
  obtain ⟨t, rfl⟩ := σ.surjective s
  rw [same, mem_renumber]

theorem renumber_empty : (empty n).renumber σ = empty n :=
  (eq_renumber fun s => by simp).symm

theorem insert_renumber : (S.renumber σ).insert (σ s) = (S.insert s).renumber σ :=
  eq_renumber fun t => by simp

theorem compl_renumber : (S.renumber σ).compl = S.compl.renumber σ :=
  eq_renumber fun s => by simp

theorem union_renumber : (S.renumber σ).union (T.renumber σ) = (S.union T).renumber σ :=
  eq_renumber fun s => by simp

theorem inter_renumber : (S.renumber σ).inter (T.renumber σ) = (S.inter T).renumber σ :=
  eq_renumber fun s => by simp

end StateSet

/-! ## Chains -/

namespace Labelling

variable {L : Labelling n} {name : String}

/-- The same labels under new numbers of the states. -/
def renumber (σ : Equiv.Perm (Fin n)) (L : Labelling n) : Labelling n :=
  L.map (·.renumber σ)

theorem get?_renumber : (L.renumber σ).get? name = (L.get? name).map (·.renumber σ) :=
  get?_map _

theorem update_renumber {change change' : StateSet n → StateSet n}
    (same : ∀ S, change' (S.renumber σ) = (change S).renumber σ) :
    (L.renumber σ).update name change' = (L.update name change).renumber σ := by
  refine ext_get? ?_ fun other => ?_
  · show _ = (L.update name change).names
    rw [names_update, names_update]
    rfl
  · rw [get?_update, get?_renumber, get?_renumber, get?_renumber, get?_update]
    split
    · rw [Option.map_some, ← same]
      cases L.get? name with
      | none => rw [Option.getD_none, StateSet.renumber_empty]; rfl
      | some states => rfl
    · rfl

theorem add_renumber {s : Fin n} : (L.renumber σ).add (σ s) name = (L.add s name).renumber σ :=
  update_renumber fun _ => StateSet.insert_renumber

theorem set_renumber {states : StateSet n} :
    (L.renumber σ).set name (states.renumber σ) = (L.set name states).renumber σ :=
  update_renumber fun _ => rfl

end Labelling

/-- The same transition between states with new numbers. -/
def Edge.renumber (σ : Equiv.Perm (Fin n)) (e : Edge α n) : Edge α n :=
  ⟨σ e.next, e.prob⟩

/-- The same rewards under new numbers of the states. -/
def RewardModel.renumber (σ : Equiv.Perm (Fin n)) (model : RewardModel α n) : RewardModel α n :=
  ⟨model.name, HoleBlame.renumber σ model.rewards⟩

namespace Chain

variable {c : Chain α n} {s : Fin n} {name : String}

/-- The same chain under new numbers of the states.  Every row keeps its order. -/
def renumber (σ : Equiv.Perm (Fin n)) (c : Chain α n) : Chain α n where
  initial := σ c.initial
  rows := HoleBlame.renumber σ (c.rows.map (·.map (Edge.renumber σ)))
  labelling := c.labelling.renumber σ
  reward := c.reward.map (RewardModel.renumber σ)

theorem row_renumber : (c.renumber σ).row (σ s) = (c.row s).map (Edge.renumber σ) := by
  rw [row, renumber, get_renumber, row]
  simp [get_eq_getElem]

theorem successors_renumber : (c.renumber σ).successors (σ s) = (c.successors s).map σ := by
  rw [successors, row_renumber, successors, List.map_map, List.map_map]
  rfl

theorem rewardModel?_renumber :
    (c.renumber σ).rewardModel? name = (c.rewardModel? name).map (RewardModel.renumber σ) := by
  simp only [rewardModel?, renumber]
  cases c.reward with
  | none => rfl
  | some model =>
    rw [Option.map_some, Option.filter, Option.filter]
    by_cases same : model.name = name <;> simp [same, RewardModel.renumber]

/-- A chain that has the old parts under the new numbers is the renumbered one. -/
theorem eq_renumber {c' : Chain α n} (initial : c'.initial = σ c.initial)
    (row : ∀ s, c'.row (σ s) = (c.row s).map (Edge.renumber σ))
    (labelling : c'.labelling = c.labelling.renumber σ)
    (reward : c'.reward = c.reward.map (RewardModel.renumber σ)) : c' = c.renumber σ := by
  have rows : c'.rows = (c.renumber σ).rows := by
    refine ext_get fun s => ?_
    obtain ⟨t, rfl⟩ := σ.surjective s
    exact (row t).trans row_renumber.symm
  obtain ⟨_, _, _, _⟩ := c'
  simp only at initial rows labelling reward
  rw [initial, rows, labelling, reward]
  rfl

theorem numTransitions_eq_sum : c.numTransitions = ∑ s, (c.row s).length := by
  rw [numTransitions, List.length_flatten, toList_rows, List.map_map, Fin.sum_univ_def]
  rfl

theorem numTransitions_renumber : (c.renumber σ).numTransitions = c.numTransitions := by
  rw [numTransitions_eq_sum, numTransitions_eq_sum]
  exact (Fintype.sum_equiv σ _ _ fun s => by rw [row_renumber, List.length_map]).symm

end Chain

/-! ## Holes -/

namespace HoleSet

variable {S : HoleSet h} {y : Fin h}

/-- The same holes under new numbers. -/
def renumber (τ : Equiv.Perm (Fin h)) (S : HoleSet h) : HoleSet h :=
  .ofFn fun y => τ.symm y ∈ S

@[simp] theorem mem_renumber : τ y ∈ S.renumber τ ↔ y ∈ S := by
  simp [renumber]

/-- A set that has the old members under the new numbers is the renumbered one. -/
theorem eq_renumber {T : HoleSet h} (same : ∀ y, τ y ∈ T ↔ y ∈ S) : T = S.renumber τ := by
  refine ext fun y => ?_
  obtain ⟨z, rfl⟩ := τ.surjective y
  rw [same, mem_renumber]

theorem nodup_toList : S.toList.Nodup :=
  S.ascending.imp fun lt => Fin.ne_of_lt lt

/-- The members of the renumbered set are the old ones in another order. -/
theorem perm_renumber : (S.renumber τ).toList.Perm (S.toList.map τ) := by
  refine (List.perm_ext_iff_of_nodup nodup_toList (nodup_toList.map τ.injective)).mpr fun y => ?_
  obtain ⟨z, rfl⟩ := τ.surjective y
  rw [List.mem_map_of_injective τ.injective]
  exact mem_renumber

end HoleSet

namespace HoleTable

variable {t : HoleTable h}

/-- The same table under new numbers of the holes. -/
def renumber (τ : Equiv.Perm (Fin h)) (t : HoleTable h) : HoleTable h :=
  ofSets (t.sets.map (HoleSet.renumber τ))

theorem numChoices_renumber : (t.renumber τ).numChoices = t.numChoices := by
  rw [renumber, numChoices_ofSets, sets, List.length_map, List.length_map, List.length_range]

theorem holes_renumber (choice : Nat) :
    (t.renumber τ).holes choice = (t.holes choice).renumber τ := by
  rw [renumber, holes_ofSets, sets, List.getElem?_map, List.getElem?_map]
  by_cases lt : choice < t.numChoices
  · rw [List.getElem?_range lt]
    rfl
  · rw [List.getElem?_eq_none (by simpa using lt), holes_of_le (Nat.le_of_not_lt lt)]
    exact HoleSet.eq_renumber fun y => by simp

end HoleTable

/-! ## Annotated chains -/

/-- The same member under new numbers of its states. -/
def Member.renumber (σ : Equiv.Perm (Fin n)) (m : Member α n) : Member α n where
  chain := m.chain.renumber σ
  quotientState := HoleBlame.renumber σ m.quotientState
  choice := HoleBlame.renumber σ m.choice

/-- The same member and the same knowledge of its family under new numbers of the states of the member
and of the holes. -/
def Annotated.renumber (σ : Equiv.Perm (Fin n)) (τ : Equiv.Perm (Fin h)) (a : Annotated α n h) :
    Annotated α n h where
  member := a.member.renumber σ
  table := a.table.renumber τ
  priors := a.priors

theorem Annotated.holes_renumber {a : Annotated α n h} {s : Fin n} :
    (a.renumber σ τ).holes (σ s) = (a.holes s).renumber τ := by
  rw [holes, renumber, HoleTable.holes_renumber, Member.renumber, get_renumber, holes]

end HoleBlame
