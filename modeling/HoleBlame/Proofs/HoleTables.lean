import HoleBlame.HoleTable
import HoleBlame.Proofs.Results
import Mathlib.Data.List.Forall2
import Mathlib.Data.List.Sort
import Mathlib.Order.Bounds.Basic

/-!
# Tables of sets of holes

The sets of a hole table are stored one behind the other, so that where the holes of a choice stand depends on all
choices before it.  Still a table is no more than its sets: a choice that is added goes behind the others
(`HoleTable.Packs.push`), and tables with the same sets are equal (`HoleTable.ext_holes`).

Lists of holes are a table iff all holes exist.  Otherwise the first list with a hole that does not exist is reported,
and the smallest such hole of this list (`HoleTable.tabulates`).
-/

namespace HoleBlame

variable {h : ℕ}

/-- Sets of holes with the same members are equal, as there is one way to list them in ascending
order. -/
theorem HoleSet.ext {S T : HoleSet h} (same : ∀ y, y ∈ S ↔ y ∈ T) : S = T := by
  obtain ⟨list, ascending⟩ := S
  obtain ⟨list', ascending'⟩ := T
  congr
  exact ascending.eq_of_mem_iff ascending' fun y => same y

namespace HoleTable

variable {t u : HoleTable h} {S : HoleSet h} {sets : List (HoleSet h)} {numbers : List ℕ} {lists : List (List ℕ)}
  {choice x : ℕ}

/-! ## What is stored -/

/-- The table stores these sets. -/
structure Packs (t : HoleTable h) (sets : List (HoleSet h)) : Prop where
  members : t.members.toList = sets.flatMap (·.toList)
  bounds : t.bounds.toList = boundsFrom 0 sets

theorem exists_packs (t : HoleTable h) : ∃ sets, t.Packs sets := by
  obtain ⟨sets, members, bounds⟩ := t.packed
  exact ⟨sets, members, bounds⟩

theorem Packs.numChoices (packs : t.Packs sets) : t.numChoices = sets.length := by
  rw [HoleTable.numChoices, ← Array.length_toList, packs.bounds, length_boundsFrom, Nat.add_sub_cancel]

theorem Packs.holes (packs : t.Packs sets) (choice : ℕ) : t.holes choice = sets[choice]?.getD (.empty h) := by
  have stored := stretch_eq packs.members packs.bounds choice
  exact HoleSet.ext fun y => by rw [HoleSet.mem_def, HoleSet.mem_def, ← stored, HoleTable.holes]

theorem holes_of_le (le : t.numChoices ≤ choice) : t.holes choice = .empty h := by
  obtain ⟨sets, packs⟩ := t.exists_packs
  rw [packs.holes, List.getElem?_eq_none (packs.numChoices ▸ le), Option.getD_none]

theorem Packs.push (packs : t.Packs sets) (S : HoleSet h) : (t.push S).Packs (sets ++ [S]) := by
  constructor
  case members => simp [HoleTable.push, packs.members]
  case bounds => simp [HoleTable.push, boundsFrom_concat, packs.bounds, ← packs.members]

theorem numChoices_push : (t.push S).numChoices = t.numChoices + 1 := by
  obtain ⟨sets, packs⟩ := t.exists_packs
  rw [(packs.push S).numChoices, packs.numChoices, List.length_append, List.length_singleton]

/-- Tables with as many choices and the same holes are equal. -/
theorem ext_holes (choices : t.numChoices = u.numChoices)
    (same : ∀ q < t.numChoices, t.holes q = u.holes q) : t = u := by
  obtain ⟨sets, packs⟩ := t.exists_packs
  obtain ⟨sets', packs'⟩ := u.exists_packs
  -- Both tables store the same sets, and how they are stored follows from the sets.
  have lengths : sets.length = sets'.length := by rw [← packs.numChoices, ← packs'.numChoices, choices]
  obtain rfl : sets = sets' := by
    refine List.ext_getElem lengths fun q lt lt' => ?_
    have own := same q (packs.numChoices ▸ lt)
    rwa [packs.holes, packs'.holes, List.getElem?_eq_getElem lt, List.getElem?_eq_getElem lt'] at own
  obtain ⟨members, bounds⟩ := packs
  obtain ⟨members', bounds'⟩ := packs'
  cases t
  cases u
  congr
  · exact Array.toList_inj.mp (members.trans members'.symm)
  · exact Array.toList_inj.mp (bounds.trans bounds'.symm)

theorem packs_foldl_push (packs : t.Packs sets) (more : List (HoleSet h)) :
    (more.foldl push t).Packs (sets ++ more) := by
  induction more generalizing t sets with
  | nil => simpa using packs
  | cons S rest ih => simpa using ih (packs.push S)

theorem packs_ofSets (sets : List (HoleSet h)) : (ofSets sets).Packs sets := by
  have none : (empty h).Packs [] := ⟨rfl, rfl⟩
  exact packs_foldl_push none sets

theorem numChoices_ofSets : (ofSets sets).numChoices = sets.length :=
  (packs_ofSets sets).numChoices

theorem holes_ofSets : (ofSets sets).holes choice = sets[choice]?.getD (.empty h) :=
  (packs_ofSets sets).holes choice

/-- A set starts where those before it end. -/
theorem getElem?_boundsFrom {start : ℕ} (le : choice ≤ sets.length) :
    (boundsFrom start sets)[choice]? = some (start + ((sets.take choice).flatMap (·.toList)).length) := by
  induction sets generalizing start choice with
  | nil =>
    obtain rfl := Nat.le_zero.mp le
    rfl
  | cons S rest ih =>
    cases choice with
    | zero => rfl
    | succ choice =>
      rw [boundsFrom, List.getElem?_cons_succ, ih (Nat.le_of_succ_le_succ le), List.take_succ_cons,
        List.flatMap_cons, List.length_append, Nat.add_assoc]

/-- **The holes of a choice stand between its positions**, and these are inside the table. -/
theorem exists_bounds (lt : choice < t.numChoices) : ∃ first last, t.bounds[choice]? = some first ∧
    t.bounds[choice + 1]? = some last ∧ first ≤ last ∧ last ≤ t.members.size ∧
    (t.holes choice).toList = (t.members.extract first last).toList := by
  obtain ⟨sets, packs⟩ := t.exists_packs
  rw [packs.numChoices] at lt
  have first : t.bounds[choice]? = _ :=
    Array.getElem?_toList.symm.trans (packs.bounds ▸ getElem?_boundsFrom (Nat.le_of_lt lt))
  have last : t.bounds[choice + 1]? = _ :=
    Array.getElem?_toList.symm.trans (packs.bounds ▸ getElem?_boundsFrom (show choice + 1 ≤ sets.length from lt))
  refine ⟨_, _, first, last, ?_, ?_, ?_⟩
  -- What stands before a choice is a part of what stands before the next one, and this of all there is.
  · rw [List.take_succ_eq_append_getElem lt, List.flatMap_append, List.length_append]
    omega
  · have all := congrArg List.length packs.members
    rw [← List.take_append_drop (choice + 1) sets, List.flatMap_append, List.length_append, Array.length_toList] at all
    omega
  · change t.stretch choice = _
    simp only [stretch, first, last]

/-! ## Lists of holes -/

/-- The number that is reported is the smallest one that is no hole, as the numbers ascend. -/
theorem isLeast_of_exist? (ascending : numbers.Pairwise (· < ·)) (missing : exist? h numbers = .error x) :
    IsLeast {y | y ∈ numbers ∧ h ≤ y} x := by
  induction numbers with
  | nil => cases missing
  | cons z rest ih =>
    obtain ⟨smaller, ascending⟩ := List.pairwise_cons.mp ascending
    unfold exist? at missing
    split at missing
    · next lt =>
      obtain ⟨⟨mem, ge⟩, least⟩ := ih ascending (map_eq_error_iff.mp missing)
      refine ⟨⟨List.mem_cons_of_mem z mem, ge⟩, ?_⟩
      rintro y ⟨mem', ge'⟩
      rcases List.mem_cons.mp mem' with rfl | mem'
      · omega
      · exact least ⟨mem', ge'⟩
    · next ge =>
      cases missing
      refine ⟨⟨List.mem_cons_self, Nat.le_of_not_lt ge⟩, ?_⟩
      rintro y ⟨mem', -⟩
      rcases List.mem_cons.mp mem' with rfl | mem'
      · exact le_rfl
      · exact (smaller y mem').le

theorem isLeast_of_exist?_ofList (missing : exist? h (Ascending.ofList numbers) = .error x) :
    IsLeast {y | y ∈ numbers ∧ h ≤ y} x := by
  have ascending := Ascending.pairwise_ofList Nat.lt_trans (by omega) numbers
  simpa only [Ascending.mem_ofList] using isLeast_of_exist? ascending missing

/-- Where all numbers are holes, none is missing. -/
theorem not_forall_lt_of_isLeast (least : IsLeast {y | y ∈ numbers ∧ h ≤ y} x) : ¬ ∀ y ∈ numbers, y < h :=
  fun exist => Nat.not_lt_of_le least.1.2 (exist x least.1.1)

/-- A list of holes that exist is a set, whose members are the holes of the list. -/
theorem setOf?_eq_ok : setOf? h numbers = .ok S ↔
    (∀ x ∈ numbers, x < h) ∧ ∀ y : Fin h, y ∈ S ↔ y.val ∈ numbers := by
  unfold setOf?
  split
  · next holes found =>
    have same (x : ℕ) : x ∈ numbers ↔ x ∈ holes.map (·.val) := by
      rw [map_of_exist? found, Ascending.mem_ofList]
    have exist : ∀ x ∈ numbers, x < h := by
      intro x mem
      obtain ⟨y, -, rfl⟩ := List.mem_map.mp ((same x).mp mem)
      exact y.isLt
    have members (y : Fin h) : y ∈ holes ↔ y.val ∈ numbers := by
      rw [same, List.mem_map_of_injective Fin.val_injective]
    rw [Except.ok.injEq]
    constructor
    · rintro rfl
      exact ⟨exist, members⟩
    · rintro ⟨-, members'⟩
      exact HoleSet.ext fun y => (members y).trans (members' y).symm
  · next x missing =>
    have none := not_forall_lt_of_isLeast (isLeast_of_exist?_ofList missing)
    exact iff_of_false (fun made => by cases made) fun holes => none holes.1

/-- Otherwise the smallest number that is no hole is reported. -/
theorem setOf?_eq_error : setOf? h numbers = .error x ↔ IsLeast {y | y ∈ numbers ∧ h ≤ y} x := by
  cases made : setOf? h numbers with
  | ok S =>
    exact iff_of_false (fun missing => by cases missing) fun least =>
      not_forall_lt_of_isLeast least (setOf?_eq_ok.mp made).1
  | error z =>
    unfold setOf? at made
    split at made
    · cases made
    · next y missing =>
      cases made
      have least := isLeast_of_exist?_ofList missing
      rw [Except.error.injEq]
      exact ⟨fun same => same ▸ least, fun least' => least.unique least'⟩

/-- Lists are added to a table iff all holes exist. -/
theorem pushAll?_eq_ok : pushAll? t lists = .ok u ↔
    ∃ sets, List.Forall₂ (fun numbers S => setOf? h numbers = .ok S) lists sets ∧ u = sets.foldl push t := by
  induction lists generalizing t with
  | nil => simp [pushAll?, eq_comm]
  | cons numbers rest ih =>
    rw [pushAll?]
    cases made : setOf? h numbers with
    | error x => simp [List.forall₂_cons_left_iff, made]
    | ok S => simp [List.forall₂_cons_left_iff, made, ih]

/-- The list of this choice is the first with numbers that are no holes, and this is the smallest of these. -/
structure FirstMissing (h : ℕ) (lists : List (List ℕ)) (choice x : ℕ) : Prop where
  before : ∀ numbers ∈ lists.take choice, ∀ y ∈ numbers, y < h
  smallest : ∃ numbers, lists[choice]? = some numbers ∧ IsLeast {y | y ∈ numbers ∧ h ≤ y} x

theorem firstMissing_zero : FirstMissing h (numbers :: lists) 0 x ↔ IsLeast {y | y ∈ numbers ∧ h ≤ y} x :=
  ⟨fun missing => by simpa using missing.smallest, fun least => ⟨by simp, numbers, rfl, least⟩⟩

theorem firstMissing_succ : FirstMissing h (numbers :: lists) (choice + 1) x ↔
    (∀ y ∈ numbers, y < h) ∧ FirstMissing h lists choice x := by
  constructor
  · intro missing
    have before := missing.before
    rw [List.take_succ_cons, List.forall_mem_cons] at before
    exact ⟨before.1, before.2, missing.smallest⟩
  · rintro ⟨exist, before, smallest⟩
    refine ⟨?_, smallest⟩
    rw [List.take_succ_cons, List.forall_mem_cons]
    exact ⟨exist, before⟩

/-- The choices that the table had before count, too. -/
theorem pushAll?_eq_error {error : HoleTableError} : pushAll? t lists = .error error ↔
    ∃ choice x, error = .holeOutOfBounds (t.numChoices + choice) x h ∧ FirstMissing h lists choice x := by
  -- The table grows along the lists, so that the choices in it and those behind it add up to the same.
  induction lists generalizing t with
  | nil =>
    refine iff_of_false (fun missing => by cases missing) ?_
    rintro ⟨choice, x, -, -, numbers, none, -⟩
    cases none
  | cons numbers rest ih =>
    rw [pushAll?]
    cases made : setOf? h numbers with
    | error z =>
      have least := setOf?_eq_error.mp made
      constructor
      · rintro ⟨⟩
        exact ⟨0, z, rfl, firstMissing_zero.mpr least⟩
      · rintro ⟨choice, x, rfl, missing⟩
        cases choice with
        | zero => rw [least.unique (firstMissing_zero.mp missing), Nat.add_zero]
        | succ choice => exact absurd (firstMissing_succ.mp missing).1 (not_forall_lt_of_isLeast least)
    | ok S =>
      have exist := (setOf?_eq_ok.mp made).1
      dsimp only
      rw [ih, numChoices_push]
      constructor
      · rintro ⟨choice, x, rfl, missing⟩
        exact ⟨choice + 1, x, by rw [Nat.add_right_comm, Nat.add_assoc], firstMissing_succ.mpr ⟨exist, missing⟩⟩
      · rintro ⟨choice, x, rfl, missing⟩
        cases choice with
        | zero => exact absurd exist (not_forall_lt_of_isLeast (firstMissing_zero.mp missing))
        | succ choice =>
          exact ⟨choice, x, by rw [Nat.add_right_comm, Nat.add_assoc], (firstMissing_succ.mp missing).2⟩

/-! ## Tables of lists -/

/-- The table has a choice for every list, with the holes of this list. -/
structure Stores (t : HoleTable h) (lists : List (List ℕ)) : Prop where
  choices : t.numChoices = lists.length
  /-- The holes of a choice stand between its positions, which are inside the table. -/
  found : ∀ choice < lists.length, ∃ first last, t.bounds[choice]? = some first ∧ t.bounds[choice + 1]? = some last ∧
    first ≤ last ∧ last ≤ t.members.size ∧ (t.holes choice).toList = (t.members.extract first last).toList
  /-- They ascend strictly, so that none occurs twice. -/
  ascending : ∀ choice, (t.holes choice).toList.Pairwise (· < ·)
  mem_iff : ∀ choice numbers, lists[choice]? = some numbers →
    ∀ x, x ∈ (t.holes choice).toList.map (·.val) ↔ x ∈ numbers
  isIndependent_iff : ∀ choice numbers, lists[choice]? = some numbers → (t.isIndependent choice = true ↔ numbers = [])

theorem numChoices_of_ofLists? (made : ofLists? h lists = .ok t) : t.numChoices = lists.length := by
  obtain ⟨sets, same, rfl⟩ := pushAll?_eq_ok.mp made
  exact numChoices_ofSets.trans same.length_eq.symm

/-- The holes of a choice are those of its list, whatever lists stand before it. -/
theorem setOf?_of_ofLists? (made : ofLists? h lists = .ok t) (list : lists[choice]? = some numbers) :
    setOf? h numbers = .ok (t.holes choice) := by
  obtain ⟨sets, same, rfl⟩ := pushAll?_eq_ok.mp made
  obtain ⟨lt, rfl⟩ := List.getElem?_eq_some_iff.mp list
  have lt' : choice < sets.length := same.length_eq ▸ lt
  have own : (sets.foldl push (empty h)).holes choice = sets[choice] := by
    rw [← ofSets, holes_ofSets, List.getElem?_eq_getElem lt', Option.getD_some]
  rw [own]
  exact same.get lt lt'

theorem stores_of_ofLists? (made : ofLists? h lists = .ok t) : t.Stores lists := by
  have choices := numChoices_of_ofLists? made
  have mem_iff (choice : ℕ) (numbers : List ℕ) (list : lists[choice]? = some numbers) (x : ℕ) :
      x ∈ (t.holes choice).toList.map (·.val) ↔ x ∈ numbers := by
    obtain ⟨exist, members⟩ := setOf?_eq_ok.mp (setOf?_of_ofLists? made list)
    rw [List.mem_map]
    constructor
    · rintro ⟨y, mem, rfl⟩
      exact (members y).mp mem
    · intro mem
      exact ⟨⟨x, exist x mem⟩, (members _).mpr mem, rfl⟩
  constructor
  case choices => exact choices
  case found => exact fun choice lt => exists_bounds (choices ▸ lt)
  case ascending => exact fun choice => HoleSet.ascending _
  case mem_iff => exact mem_iff
  case isIndependent_iff =>
    intro choice numbers list
    have none := mem_iff choice numbers list
    rw [isIndependent, HoleSet.isEmpty, List.isEmpty_iff, ← List.map_eq_nil_iff (f := (·.val)),
      List.eq_nil_iff_forall_not_mem, List.eq_nil_iff_forall_not_mem]
    exact forall_congr' fun x => not_congr (none x)

/-- A table is made iff all holes exist. -/
theorem exists_ofLists?_iff : (∃ t, ofLists? h lists = .ok t) ↔ ∀ numbers ∈ lists, ∀ x ∈ numbers, x < h := by
  constructor
  · rintro ⟨t, made⟩ numbers mem
    obtain ⟨choice, list⟩ := List.mem_iff_getElem?.mp mem
    exact (setOf?_eq_ok.mp (setOf?_of_ofLists? made list)).1
  · intro exist
    cases made : ofLists? h lists with
    | ok t => exact ⟨t, rfl⟩
    | error error =>
      obtain ⟨choice, x, -, -, numbers, list, least⟩ := pushAll?_eq_error.mp made
      exact absurd (exist numbers (List.mem_of_getElem? list)) (not_forall_lt_of_isLeast least)

/-- What comes of lists of holes, for a sketch with `h` holes. -/
structure Tabulates (h : ℕ) (lists : List (List ℕ)) : Prop where
  exists_iff : (∃ t, ofLists? h lists = .ok t) ↔ ∀ numbers ∈ lists, ∀ x ∈ numbers, x < h
  stores : ∀ t, ofLists? h lists = .ok t → t.Stores lists
  error_iff : ∀ error, ofLists? h lists = .error error ↔
    ∃ choice x, error = .holeOutOfBounds choice x h ∧ FirstMissing h lists choice x

/-- **A hole table stores the lists it is made of**, if all holes exist, and otherwise the first list with a hole that
does not exist is reported, with the smallest such hole. -/
theorem tabulates (h : ℕ) (lists : List (List ℕ)) : Tabulates h lists := by
  constructor
  case exists_iff => exact exists_ofLists?_iff
  case stores => exact fun t made => stores_of_ofLists? made
  case error_iff =>
    intro error
    rw [ofLists?, pushAll?_eq_error]
    simp only [show (HoleTable.empty h).numChoices = 0 from rfl, Nat.zero_add]

example : (ofLists? 4 [[3, 1, 3], [], [2, 0, 2, 0]]).toOption.map (·.sets.map (·.toList)) =
    some [[1, 3], [], [0, 2]] := rfl

end HoleTable

end HoleBlame
