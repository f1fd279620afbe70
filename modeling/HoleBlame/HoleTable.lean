import HoleBlame.HoleSet

/-!
# The holes behind every choice

A sketch leaves some of its parameters open, its holes.  Its quotient model gathers all chains that
come about when the holes are filled: in every state one of several choices is taken, and which one it
is depends on some of the holes.  A hole table says for every choice which holes these are.

The sets of all choices are stored one behind the other, with the positions at which they start and end.
-/

namespace HoleBlame

/-- The positions at which sets start that are stored one behind the other, and at last where they end. -/
def boundsFrom {h : Nat} (start : Nat) : List (HoleSet h) → List Nat
  | [] => [start]
  | S :: rest => start :: boundsFrom (start + S.toList.length) rest

/-- The sets of holes that the choices of a quotient model depend on, for a sketch with `h` holes. -/
structure HoleTable (h : Nat) where
  /-- The holes of the choices, one choice behind the other. -/
  members : Array (Fin h)
  /-- The positions at which the holes of the choices start, and at last where they end. -/
  bounds : Array Nat
  /-- These are the holes of some sets and their positions. -/
  packed : ∃ sets : List (HoleSet h), members.toList = sets.flatMap (·.toList) ∧ bounds.toList = boundsFrom 0 sets
deriving DecidableEq

/-- Why lists of holes are no table. -/
inductive HoleTableError where
  | holeOutOfBounds (choice hole size : Nat)
deriving DecidableEq

/-- The wording of an error. -/
def HoleTableError.message : HoleTableError → String
  | .holeOutOfBounds choice hole size =>
    "Choice " ++ toString choice ++ " depends on hole " ++ toString hole ++ ", but there are only "
      ++ toString size ++ " holes"

section Bounds

variable {h : Nat}

theorem length_boundsFrom (start : Nat) (sets : List (HoleSet h)) :
    (boundsFrom start sets).length = sets.length + 1 := by
  induction sets generalizing start with
  | nil => rfl
  | cons S rest ih => simp [boundsFrom, ih]

theorem boundsFrom_concat (start : Nat) (sets : List (HoleSet h)) (S : HoleSet h) :
    boundsFrom start (sets ++ [S]) = boundsFrom start sets ++
      [start + (sets.flatMap (·.toList)).length + S.toList.length] := by
  induction sets generalizing start with
  | nil => simp [boundsFrom]
  | cons T rest ih => simp [boundsFrom, ih, Nat.add_assoc]

/-- Cuts out what is stored between two positions that follow one another. -/
def cutAt (members : List (Fin h)) (bounds : List Nat) (choice : Nat) : List (Fin h) :=
  match bounds[choice]?, bounds[choice + 1]? with
  | some first, some last => members.extract first last
  | _, _ => []

/-- Sets that are stored are found at their positions. -/
theorem cutAt_boundsFrom (front : List (Fin h)) (sets : List (HoleSet h)) (choice : Nat) :
    cutAt (front ++ sets.flatMap (·.toList)) (boundsFrom front.length sets) choice =
      (sets[choice]?.getD (.empty h)).toList := by
  induction sets generalizing front choice with
  | nil => cases choice <;> rfl
  | cons S rest ih =>
    cases choice with
    | zero =>
      have next : (boundsFrom (front.length + S.toList.length) rest)[0]? = some (front.length + S.toList.length) := by
        cases rest <;> rfl
      simp [cutAt, boundsFrom, next]
    | succ choice =>
      have behind := ih (front ++ S.toList) choice
      rw [List.length_append, List.append_assoc] at behind
      exact behind

end Bounds

namespace HoleTable

variable {h : Nat}

/-- The table of no choices. -/
def empty (h : Nat) : HoleTable h :=
  ⟨#[], #[0], [], rfl, rfl⟩

/-- Adds a choice with the given holes. -/
def push (t : HoleTable h) (S : HoleSet h) : HoleTable h where
  members := t.members ++ S.toList.toArray
  bounds := t.bounds.push (t.members.size + S.toList.length)
  packed := by
    obtain ⟨sets, members, bounds⟩ := t.packed
    refine ⟨sets ++ [S], by simp [members], ?_⟩
    simp [boundsFrom_concat, bounds, ← members]

/-- The number of choices. -/
def numChoices (t : HoleTable h) : Nat :=
  t.bounds.size - 1

/-- What is stored for a choice. -/
def stretch (t : HoleTable h) (choice : Nat) : List (Fin h) :=
  match t.bounds[choice]?, t.bounds[choice + 1]? with
  | some first, some last => (t.members.extract first last).toList
  | _, _ => []

/-- The sets that are stored are found at their positions. -/
theorem stretch_eq {t : HoleTable h} {sets : List (HoleSet h)}
    (members : t.members.toList = sets.flatMap (·.toList)) (bounds : t.bounds.toList = boundsFrom 0 sets)
    (choice : Nat) : t.stretch choice = (sets[choice]?.getD (.empty h)).toList := by
  have cut := cutAt_boundsFrom [] sets choice
  rw [List.nil_append, List.length_nil, ← members, ← bounds] at cut
  rw [← cut]
  simp [stretch, cutAt]

theorem pairwise_stretch (t : HoleTable h) (choice : Nat) : (t.stretch choice).Pairwise (· < ·) := by
  obtain ⟨sets, members, bounds⟩ := t.packed
  rw [stretch_eq members bounds]
  exact HoleSet.ascending _

/-- The holes of a choice; a choice beyond the table depends on none. -/
def holes (t : HoleTable h) (choice : Nat) : HoleSet h :=
  ⟨t.stretch choice, t.pairwise_stretch choice⟩

/-- The choice does not depend on any hole. -/
def isIndependent (t : HoleTable h) (choice : Nat) : Bool :=
  (t.holes choice).isEmpty

/-- The sets of all choices. -/
def sets (t : HoleTable h) : List (HoleSet h) :=
  (List.range t.numChoices).map t.holes

/-- The table of the given sets. -/
def ofSets (sets : List (HoleSet h)) : HoleTable h :=
  sets.foldl push (empty h)

/-! ## Lists of holes -/

/-- The holes of a list that exist in a sketch with `h` holes. -/
def within (h : Nat) (holes : List Nat) : List (Fin h) :=
  holes.filterMap fun x => if hx : x < h then some ⟨x, hx⟩ else none

/-- The holes with the given numbers, or the first number that is no hole. -/
def exist? (h : Nat) : List Nat → Except Nat (List (Fin h))
  | [] => .ok []
  | x :: rest => if hx : x < h then (exist? h rest).map (⟨x, hx⟩ :: ·) else .error x

theorem map_of_exist? {numbers : List Nat} {holes : List (Fin h)} (found : exist? h numbers = .ok holes) :
    holes.map (·.val) = numbers := by
  induction numbers generalizing holes with
  | nil =>
    cases found
    rfl
  | cons x rest ih =>
    unfold exist? at found
    split at found
    · cases others : exist? h rest with
      | error y =>
        rw [others] at found
        cases found
      | ok behind =>
        rw [others] at found
        cases found
        exact congrArg (x :: ·) (ih others)
    · cases found

/-- The holes that exist have the order of their numbers. -/
theorem pairwise_of_exist? {numbers : List Nat} {holes : List (Fin h)} (ascending : numbers.Pairwise (· < ·))
    (found : exist? h numbers = .ok holes) : holes.Pairwise (· < ·) := by
  rw [← map_of_exist? found, List.pairwise_map] at ascending
  exact ascending

/-- The set of the holes in a list, which may stand there in any order and with any repetitions.  If some
do not exist, the smallest of these is reported. -/
def setOf? (h : Nat) (numbers : List Nat) : Except Nat (HoleSet h) :=
  match found : exist? h (Ascending.ofList numbers) with
  | .ok holes => .ok ⟨holes, pairwise_of_exist? (Ascending.pairwise_ofList Nat.lt_trans (by omega) numbers) found⟩
  | .error x => .error x

/-- Adds a choice for every list of holes, up to the first list with a hole that does not exist. -/
def pushAll? (t : HoleTable h) : List (List Nat) → Except HoleTableError (HoleTable h)
  | [] => .ok t
  | numbers :: rest =>
    match setOf? h numbers with
    | .ok S => pushAll? (t.push S) rest
    | .error x => .error (.holeOutOfBounds t.numChoices x h)

/-- The table of the given lists, one per choice, each in any order and with any repetitions.  Of
several holes that do not exist, the smallest one of the first choice that has any is reported. -/
def ofLists? (h : Nat) (lists : List (List Nat)) : Except HoleTableError (HoleTable h) :=
  pushAll? (empty h) lists

/-- The table of choices that depend on no hole. -/
def independent (h choices : Nat) : HoleTable h :=
  ofSets (List.replicate choices (HoleSet.empty h))

/-- The choices that do not depend on any hole, ascending. -/
def independentChoices (t : HoleTable h) : List Nat :=
  (List.range t.numChoices).filter t.isIndependent

/-- The table, one line per choice. -/
def text (t : HoleTable h) : String :=
  String.join (t.sets.zipIdx.map fun (holes, choice) =>
    toString choice ++ ": " ++ holes.text ++ "\n")

end HoleTable

end HoleBlame
