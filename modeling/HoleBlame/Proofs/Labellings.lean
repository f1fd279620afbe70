import HoleBlame.Labelling
import Mathlib.Data.List.Nodup
import Mathlib.Data.Set.Insert

/-!
# Labellings as ordered maps

A labelling answers like a map from names to sets of states: each way of changing it comes with the lemma
that says which states carry which label afterwards (`Labelling.get?_update`, `Labelling.has_add`,
`Labelling.has_set`, `Labelling.has_widen`).  The names stay in the order in which they were introduced
(`Labelling.names_update`), and the labels of a state are the names that it carries, in this order
(`Labelling.labelsOf_eq`).  No more is in a labelling (`Labelling.ext_get?`).

A labelling that has been made by any history of changes, in between which the chain may have grown, is
the map that the same changes make of the empty map (`Labelling.isOrderedMap`).
-/

namespace HoleBlame

variable {n m : ℕ}

namespace Labelling

variable {L L' : Labelling n} {name other : String} {place : ℕ} {s t : Fin n}
  {change : StateSet n → StateSet n}

/-! ## Places -/

/-- The index finds every name at its place. -/
theorem place?_eq_some : L.place? name = some place ↔ L.names[place]? = some name := by
  have stored {place : ℕ} (found : L.place? name = some place) : L.names[place]? = some name := by
    rw [place?, L.indexed] at found
    obtain ⟨front, back, split, -⟩ := List.lookup_eq_some_iff.mp found
    have mem : (name, place) ∈ L.names.zipIdx.reverse := by simp [split]
    exact List.mk_mem_zipIdx_iff_getElem?.mp (List.mem_reverse.mp mem)
  refine ⟨stored, fun at_place => ?_⟩
  cases found : L.place? name with
  | none => exact absurd (List.mem_of_getElem? at_place) (place?_eq_none.mp found)
  | some place' =>
    -- The name stands at both places, but no name occurs twice.
    have lt : place < L.names.length := (List.getElem?_eq_some_iff.mp at_place).1
    rw [(List.getElem?_inj lt L.distinct).mp (at_place.trans (stored found).symm)]

theorem mem_names_of_place? (found : L.place? name = some place) : name ∈ L.names :=
  List.mem_of_getElem? (place?_eq_some.mp found)

/-- There is a set at the place of a name. -/
theorem lt_of_place? (found : L.place? name = some place) : place < L.sets.length := by
  rw [L.aligned]
  exact (List.getElem?_eq_some_iff.mp (place?_eq_some.mp found)).1

/-- Names at the same place are the same. -/
theorem name_eq_of_place? (found : L.place? name = some place) (found' : L.place? other = some place) :
    other = name :=
  Option.some.inj ((place?_eq_some.mp found').symm.trans (place?_eq_some.mp found))

theorem get?_of_place? (found : L.place? name = some place) : L.get? name = L.sets[place]? := by
  rw [get?, found, Option.bind_some]

theorem get?_eq_none : L.get? name = none ↔ name ∉ L.names := by
  rw [← place?_eq_none]
  cases found : L.place? name with
  | none => simp [get?, found]
  | some place => simp [get?_of_place? found, List.getElem?_eq_getElem (lt_of_place? found)]

/-- A labelling is its names in their order and the sets of the names. -/
theorem ext_get? (names : L.names = L'.names) (same : ∀ name, L.get? name = L'.get? name) : L = L' := by
  have index : L.index = L'.index := by rw [L.indexed, L'.indexed, names]
  -- What is at a place is found by the name that stands there.
  have sets : L.sets = L'.sets := by
    refine List.ext_getElem? fun place => ?_
    cases at_place : L.names[place]? with
    | none =>
      have beyond := List.getElem?_eq_none_iff.mp at_place
      rw [List.getElem?_eq_none (L.aligned ▸ beyond), List.getElem?_eq_none (L'.aligned ▸ names ▸ beyond)]
    | some name =>
      rw [← get?_of_place? (place?_eq_some.mpr at_place), same,
        get?_of_place? (place?_eq_some.mpr (names ▸ at_place))]
  cases L
  cases L'
  cases names
  cases sets
  cases index
  rfl

/-! ## Introducing names -/

theorem place?_push (new : name ∉ L.names) : (L.push name new).place? other =
    if other = name then some L.names.length else L.place? other := by
  rw [place?, push, List.lookup_cons]
  by_cases same : other = name
  · rw [if_pos same, beq_iff_eq.mpr same]
  · rw [if_neg same, beq_false_of_ne same]
    rfl

theorem get?_push (new : name ∉ L.names) : (L.push name new).get? other =
    if other = name then some (.empty n) else L.get? other := by
  rw [get?, place?_push]
  split
  · show (L.sets ++ [StateSet.empty n])[L.names.length]? = _
    rw [← L.aligned, List.getElem?_concat_length]
  · cases found : L.place? other with
    | none => rw [get?, found]; rfl
    | some place =>
      rw [get?_of_place? found]
      exact List.getElem?_append_left (lt_of_place? found)

/-- A name that is there has been found, and any other has been put at the end. -/
theorem locate_cases (L : Labelling n) (name : String) :
    (∃ place, L.place? name = some place ∧ L.locate name = (L, place)) ∨
      ∃ new : name ∉ L.names, L.locate name = (L.push name new, L.names.length) := by
  unfold locate
  split
  · next place found => exact .inl ⟨place, found, rfl⟩
  · next found => exact .inr ⟨place?_eq_none.mp found, rfl⟩

theorem place?_locate : (L.locate name).1.place? name = some (L.locate name).2 := by
  obtain ⟨place, found, located⟩ | ⟨new, located⟩ := L.locate_cases name
  · rw [located, found]
  · rw [located, place?_push, if_pos rfl]

theorem names_locate : (L.locate name).1.names = if name ∈ L.names then L.names else L.names ++ [name] := by
  obtain ⟨place, found, located⟩ | ⟨new, located⟩ := L.locate_cases name
  · rw [located, if_pos (mem_names_of_place? found)]
  · rw [located, if_neg new]
    rfl

theorem get?_locate : (L.locate name).1.get? other =
    if other = name then some ((L.get? name).getD (.empty n)) else L.get? other := by
  obtain ⟨place, found, located⟩ | ⟨new, located⟩ := L.locate_cases name
  · rw [located]
    split
    · next same =>
      rw [same, get?_of_place? found, List.getElem?_eq_getElem (lt_of_place? found), Option.getD_some]
    · rfl
  · rw [located, get?_push, get?_eq_none.mpr new, Option.getD_none]

/-! ## Changing sets -/

theorem get?_modify (found : L.place? name = some place) : (L.modify place change).get? other =
    if other = name then (L.get? name).map change else L.get? other := by
  rw [get?, show (L.modify place change).place? other = L.place? other from rfl, modify]
  split
  · next same => rw [same, found, get?_of_place? found, Option.bind_some, List.getElem?_modify_eq]; rfl
  · next apart =>
    cases found' : L.place? other with
    | none => rw [get?, found']; rfl
    | some place' =>
      have elsewhere : place ≠ place' := by
        rintro rfl
        exact apart (name_eq_of_place? found found')
      rw [get?_of_place? found', Option.bind_some, List.getElem?_modify_ne _ _ elsewhere]

theorem names_update (change : StateSet n → StateSet n) : (L.update name change).names =
    if name ∈ L.names then L.names else L.names ++ [name] :=
  names_locate

/-- **Changing the set of a name changes that set and no other.** -/
theorem get?_update (change : StateSet n → StateSet n) :
    (L.update name change).get? other =
      if other = name then some (change ((L.get? name).getD (StateSet.empty n)))
      else L.get? other := by
  rw [update, get?_modify place?_locate, get?_locate, get?_locate, if_pos rfl, Option.map_some]
  split <;> rfl

theorem isSome_get?_update {change : StateSet n → StateSet n}
    (h : (L.get? other).isSome = true) : ((L.update name change).get? other).isSome = true := by
  rw [get?_update]
  split
  · rfl
  · exact h

/-- A set that has just been replaced is changed at once. -/
theorem update_set {states : StateSet n} : (L.set name states).update name change = L.set name (change states) := by
  refine ext_get? ?_ fun other => ?_
  · have there : name ∈ (L.set name states).names := by
      rw [set, names_update]
      split <;> simp [*]
    rw [names_update, if_pos there, set, names_update, set, names_update]
  · rw [get?_update, set, get?_update, get?_update, if_pos rfl, Option.getD_some, set, get?_update]
    split <;> rfl

theorem has_iff : L.has s name = true ↔ s ∈ (L.get? name).getD (StateSet.empty n) := by
  cases h : L.get? name with
  | none => simp [has, h]
  | some states => simp [has, h]

theorem has_add : (L.add s name).has t other = true ↔
    other = name ∧ t = s ∨ L.has t other = true := by
  rw [has_iff, has_iff, add, get?_update]
  by_cases h : other = name
  · subst h
    simp
  · simp [h]

theorem has_set {states : StateSet n} : (L.set name states).has t other = true ↔
    if other = name then t ∈ states else L.has t other = true := by
  rw [has_iff, set, get?_update]
  by_cases h : other = name
  · rw [if_pos h, if_pos h]
    rfl
  · rw [if_neg h, if_neg h, has_iff]

theorem get?_map (f : StateSet n → StateSet m) : (L.map f).get? name = (L.get? name).map f := by
  rw [get?, get?, show (L.map f).place? name = L.place? name from rfl, map]
  cases L.place? name with
  | none => rfl
  | some place => rw [Option.bind_some, Option.bind_some, List.getElem?_map]

theorem get?_widen : (L.widen m).get? other = (L.get? other).map (·.widen m) :=
  get?_map _

theorem has_widen {s : Fin m} : (L.widen m).has s name = true ↔
    ∃ h : s.val < n, L.has ⟨s.val, h⟩ name = true := by
  cases h : L.get? name with
  | none => simp [has, get?_widen, h]
  | some states => simp [has, get?_widen, h]

/-! ## The labels of a state -/

theorem mem_entries {states : StateSet n} : (name, states) ∈ L.entries ↔ L.get? name = some states := by
  rw [entries, List.mem_iff_getElem?]
  simp only [List.getElem?_zip_eq_some]
  constructor
  · rintro ⟨place, at_place, set⟩
    rw [get?_of_place? (place?_eq_some.mpr at_place), set]
  · intro known
    cases found : L.place? name with
    | none => simp [get?, found] at known
    | some place => exact ⟨place, place?_eq_some.mp found, get?_of_place? found ▸ known⟩

/-- **A state has the labels that it carries**, in the order in which they were introduced. -/
theorem labelsOf_eq : L.labelsOf s = L.names.filter (L.has s ·) := by
  have names : L.names = L.entries.map (·.1) := (List.map_fst_zip (Nat.le_of_eq L.aligned.symm)).symm
  rw [labelsOf, names, List.filter_map]
  refine congrArg (List.map _) (List.filter_congr fun entry mem => ?_)
  rw [Function.comp_apply, has, mem_entries.mp mem, Option.any_some]

theorem mem_labelsOf : name ∈ L.labelsOf s ↔ L.has s name = true := by
  rw [labelsOf_eq, List.mem_filter, and_iff_right_iff_imp]
  intro carried
  by_contra new
  rw [has, get?_eq_none.mpr new] at carried
  cases carried

theorem nodup_labelsOf : (L.labelsOf s).Nodup := by
  rw [labelsOf_eq]
  exact L.distinct.filter _

end Labelling

/-! ## Histories -/

/-- The numbers of the states in a set. -/
def StateSet.numbers (S : StateSet n) : Set ℕ :=
  {x | ∃ h : x < n, (⟨x, h⟩ : Fin n) ∈ S}

namespace StateSet

variable {S : StateSet n}

theorem val_mem_numbers {s : Fin n} : s.val ∈ S.numbers ↔ s ∈ S :=
  ⟨fun ⟨_, mem⟩ => mem, fun mem => ⟨s.isLt, mem⟩⟩

theorem numbers_empty : (StateSet.empty n).numbers = ∅ := by
  simp [numbers]

theorem numbers_insert {s : Fin n} : (S.insert s).numbers = Insert.insert s.val S.numbers := by
  ext x
  constructor
  · rintro ⟨h, mem⟩
    rcases mem_insert.mp mem with rfl | mem
    · exact .inl rfl
    · exact .inr ⟨h, mem⟩
  · rintro (rfl | ⟨h, mem⟩)
    · exact ⟨s.isLt, mem_insert.mpr (.inl rfl)⟩
    · exact ⟨h, mem_insert.mpr (.inr mem)⟩

/-- Further states are in no set. -/
theorem numbers_widen (more : n ≤ m) : (S.widen m).numbers = S.numbers := by
  ext x
  constructor
  · rintro ⟨_, mem⟩
    exact mem_widen.mp mem
  · rintro ⟨h, mem⟩
    exact ⟨by omega, mem_widen.mpr ⟨h, mem⟩⟩

end StateSet

namespace Labelling

/-- A change of a labelling of `n` states, which has `m` states afterwards. -/
inductive Edit : ℕ → ℕ → Type
  | introduce {n : ℕ} (name : String) : Edit n n
  | add {n : ℕ} (s : Fin n) (name : String) : Edit n n
  | set {n : ℕ} (name : String) (states : StateSet n) : Edit n n
  | widen {n m : ℕ} (more : n ≤ m) : Edit n m

namespace Edit

/-- The labelling after a change. -/
def apply {n m : ℕ} : Edit n m → Labelling n → Labelling m
  | introduce name, L => L.introduce name
  | add s name, L => L.add s name
  | set name states, L => L.set name states
  | widen (m := m) _, L => L.widen m

/-- The name that a change mentions. -/
def name? {n m : ℕ} : Edit n m → Option String
  | introduce name => some name
  | add _ name => some name
  | set name _ => some name
  | widen _ => none

/-- What is known after a change, in a map from names to sets of numbers. -/
def record {n m : ℕ} : Edit n m → (String → Option (Set ℕ)) → String → Option (Set ℕ)
  | introduce name, known => Function.update known name (some ((known name).getD ∅))
  | add s name, known => Function.update known name (some (insert s.val ((known name).getD ∅)))
  | set name states, known => Function.update known name (some states.numbers)
  | widen _, known => known

end Edit

/-- Changes of a labelling that has no labels at first, for `start` states. -/
inductive History (start : ℕ) : ℕ → Type
  | new : History start start
  | edited {n m : ℕ} (before : History start n) (edit : Edit n m) : History start m

namespace History

variable {start : ℕ}

/-- The labelling after all changes. -/
def labelling {n : ℕ} : History start n → Labelling n
  | new => .empty start
  | edited before edit => edit.apply before.labelling

/-- The map after all changes. -/
def recorded {n : ℕ} : History start n → String → Option (Set ℕ)
  | new => fun _ => none
  | edited before edit => edit.record before.recorded

/-- The names in the order in which they are mentioned. -/
def mentioned {n : ℕ} : History start n → List String
  | new => []
  | edited before edit => before.mentioned ++ edit.name?.toList

end History

variable {L : Labelling n} {known : String → Option (Set ℕ)} {name : String}

/-- A labelling has the same sets as a map. -/
def Answers (L : Labelling n) (known : String → Option (Set ℕ)) : Prop :=
  ∀ name, (L.get? name).map StateSet.numbers = known name

theorem Answers.update {change : StateSet n → StateSet n} {f : Set ℕ → Set ℕ} (same : L.Answers known)
    (agree : ∀ S, (change S).numbers = f S.numbers) :
    (L.update name change).Answers (Function.update known name (some (f ((known name).getD ∅)))) := by
  intro other
  rw [get?_update, Function.update_apply]
  split
  · rw [Option.map_some, agree, ← same name]
    cases L.get? name with
    | none => rw [Option.getD_none, StateSet.numbers_empty]; rfl
    | some states => rfl
  · exact same other

/-- **A change has the same effect on a labelling as on a map.** -/
theorem Answers.apply (same : L.Answers known) (edit : Edit n m) : (edit.apply L).Answers (edit.record known) := by
  cases edit with
  | introduce name => exact same.update (f := id) fun S => rfl
  | add s name => exact same.update (f := insert s.val) fun S => StateSet.numbers_insert
  | set name states => exact same.update (f := fun _ => states.numbers) fun S => rfl
  | widen more =>
    intro name
    rw [Edit.apply, Edit.record, get?_widen, Option.map_map, ← same name]
    exact congrArg (Option.map · (L.get? name)) (funext fun S => StateSet.numbers_widen more)

theorem Answers.has_iff (same : L.Answers known) {s : Fin n} :
    L.has s name = true ↔ ∃ numbers, known name = some numbers ∧ s.val ∈ numbers := by
  rw [has, ← same name]
  cases L.get? name with
  | none => simp
  | some states => simp [StateSet.val_mem_numbers]

/-- A change puts a name that it mentions for the first time behind the others. -/
theorem names_apply {names : List String} (order : L.names = names.eraseDups) (edit : Edit n m) :
    (edit.apply L).names = (names ++ edit.name?.toList).eraseDups := by
  have mention (change : StateSet n → StateSet n) (name : String) :
      (L.update name change).names = (names ++ [name]).eraseDups := by
    rw [names_update, order, List.eraseDups_append, List.removeAll]
    by_cases mem : name ∈ names
    · rw [if_pos (List.mem_eraseDups.mpr mem)]
      simp [mem]
    · rw [if_neg (fun old => mem (List.mem_eraseDups.mp old))]
      simp [mem, List.eraseDups_cons]
  cases edit with
  | introduce name => exact mention _ name
  | add s name => exact mention _ name
  | set name states => exact mention _ name
  | widen more => exact order.trans (congrArg List.eraseDups (List.append_nil names).symm)

namespace History

variable {start : ℕ}

theorem answers (h : History start n) : h.labelling.Answers h.recorded := by
  induction h with
  | new => exact fun name => rfl
  | edited before edit ih => exact ih.apply edit

theorem names_labelling (h : History start n) : h.labelling.names = h.mentioned.eraseDups := by
  induction h with
  | new => rfl
  | edited before edit ih => exact names_apply ih edit

/-- The labelling is a map that keeps the order of its names. -/
structure IsOrderedMap (h : History start n) : Prop where
  /-- The names stand in the order in which they were mentioned for the first time. -/
  names : h.labelling.names = h.mentioned.eraseDups
  distinct : h.labelling.names.Nodup
  /-- Every name has its place in the index, and there is a set at this place. -/
  place : ∀ name place, h.labelling.place? name = some place ↔ h.labelling.names[place]? = some name
  aligned : h.labelling.sets.length = h.labelling.names.length
  covers : ∀ S ∈ h.labelling.sets, S.bits.toList.length = n
  get? : ∀ name, (h.labelling.get? name).map StateSet.numbers = h.recorded name
  has : ∀ s name, h.labelling.has s name = true ↔ ∃ numbers, h.recorded name = some numbers ∧ s.val ∈ numbers
  labelsOf : ∀ s, h.labelling.labelsOf s = h.labelling.names.filter fun name => h.labelling.has s name
  /-- States that are new carry no label. -/
  grown : ∀ m (more : n ≤ m) (s : Fin m), n ≤ s.val →
    (∀ name, (h.edited (.widen more)).labelling.has s name = false) ∧
      (h.edited (.widen more)).labelling.labelsOf s = []

end History

/-- **A labelling is the ordered map that its history describes.** -/
theorem isOrderedMap {start : ℕ} (h : History start n) : h.IsOrderedMap := by
  constructor
  case names => exact h.names_labelling
  case distinct => exact h.labelling.distinct
  case place => exact fun name place => place?_eq_some
  case aligned => exact h.labelling.aligned
  case covers => exact fun S _ => Vector.length_toList
  case get? => exact h.answers
  case has => exact fun s name => h.answers.has_iff
  case labelsOf => exact fun s => labelsOf_eq
  case grown =>
    intro m more s new
    have unlabelled (name : String) : (h.labelling.widen m).has s name = false := by
      rw [Bool.eq_false_iff, ne_eq, has_widen]
      rintro ⟨old, -⟩
      omega
    refine ⟨unlabelled, List.eq_nil_iff_forall_not_mem.mpr fun name mem => ?_⟩
    exact Bool.false_ne_true ((unlabelled name).symm.trans (mem_labelsOf.mp mem))

end Labelling

end HoleBlame
