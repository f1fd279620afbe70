import HoleBlame.StateSet

/-!
# Labellings

A labelling assigns sets of states to names.  It remembers the order in which the names were
introduced, which is the order in which files and reports list them; naming a label again changes
nothing about that order.

The names and their sets are kept in two lists, and an index finds the place of a name in both.  All three
change together: a name that is new goes to the end of both lists and into the index.
-/

namespace HoleBlame

/-- Named sets of states, in the order in which the names were introduced. -/
structure Labelling (n : Nat) where
  /-- The names. -/
  names : List String
  /-- Their sets. -/
  sets : List (StateSet n)
  /-- The places of the names, the latest one first. -/
  index : List (String × Nat)
  /-- No name is introduced twice. -/
  distinct : names.Nodup
  /-- Every name has a set. -/
  aligned : sets.length = names.length
  /-- The index has every name with its place. -/
  indexed : index = names.zipIdx.reverse
deriving DecidableEq

namespace Labelling

variable {n : Nat}

/-- No labels. -/
def empty (n : Nat) : Labelling n :=
  ⟨[], [], [], .nil, rfl, rfl⟩

/-! ## Finding and introducing names -/

/-- The place of a name, if it has been introduced. -/
def place? (L : Labelling n) (name : String) : Option Nat :=
  L.index.lookup name

theorem place?_eq_none {L : Labelling n} {name : String} : L.place? name = none ↔ name ∉ L.names := by
  rw [place?, L.indexed, List.lookup_eq_none_iff, List.mem_iff_getElem?]
  simp only [List.mem_reverse, bne_iff_ne]
  constructor
  · rintro other ⟨place, found⟩
    exact other (name, place) (List.mk_mem_zipIdx_iff_getElem?.mpr found) rfl
  · rintro new ⟨_, place⟩ mem rfl
    exact new ⟨place, List.mk_mem_zipIdx_iff_getElem?.mp mem⟩

/-- Introduces a new name with no states. -/
def push (L : Labelling n) (name : String) (new : name ∉ L.names) : Labelling n where
  names := L.names ++ [name]
  sets := L.sets ++ [.empty n]
  index := (name, L.names.length) :: L.index
  distinct := by
    refine List.nodup_append.mpr ⟨L.distinct, List.pairwise_singleton _ _, ?_⟩
    rintro old mem _ (_ | ⟨_, ⟨⟩⟩) rfl
    exact new mem
  aligned := by rw [List.length_append, List.length_append, L.aligned]; rfl
  indexed := by rw [L.indexed, List.zipIdx_append, List.reverse_append, Nat.zero_add]; rfl

/-- The place of a name, which is introduced with no states if it is new. -/
def locate (L : Labelling n) (name : String) : Labelling n × Nat :=
  match found : L.place? name with
  | some place => (L, place)
  | none => (L.push name (place?_eq_none.mp found), L.names.length)

/-! ## Changing sets -/

/-- Changes the set at a place. -/
def modify (L : Labelling n) (place : Nat) (change : StateSet n → StateSet n) : Labelling n :=
  { L with
    sets := L.sets.modify place change
    aligned := by rw [List.length_modify, L.aligned] }

/-- Changes the set of a name, which is introduced with no states if it is new. -/
def update (L : Labelling n) (name : String) (change : StateSet n → StateSet n) : Labelling n :=
  (L.locate name).1.modify (L.locate name).2 change

/-- Introduces a name. -/
def introduce (L : Labelling n) (name : String) : Labelling n :=
  L.update name id

/-- Adds a state to the set of a name. -/
def add (L : Labelling n) (s : Fin n) (name : String) : Labelling n :=
  L.update name (·.insert s)

/-- Replaces the set of a name. -/
def set (L : Labelling n) (name : String) (states : StateSet n) : Labelling n :=
  L.update name fun _ => states

/-- Replaces all sets by sets of states of another chain. -/
def map {m : Nat} (f : StateSet n → StateSet m) (L : Labelling n) : Labelling m where
  names := L.names
  sets := L.sets.map f
  index := L.index
  distinct := L.distinct
  aligned := by rw [List.length_map, L.aligned]
  indexed := L.indexed

/-- The same labels in a larger chain, whose further states carry none. -/
def widen (L : Labelling n) (m : Nat) : Labelling m :=
  L.map (·.widen m)

/-! ## Questions -/

/-- The set of a name, if it has been introduced. -/
def get? (L : Labelling n) (name : String) : Option (StateSet n) :=
  (L.place? name).bind (L.sets[·]?)

/-- The state carries the label; nothing carries a name that has not been introduced. -/
def has (L : Labelling n) (s : Fin n) (name : String) : Bool :=
  (L.get? name).any fun states => s ∈ states

/-- The names with their sets. -/
def entries (L : Labelling n) : List (String × StateSet n) :=
  L.names.zip L.sets

/-- The labels of a state, in the order in which they were introduced. -/
def labelsOf (L : Labelling n) (s : Fin n) : List String :=
  (L.entries.filter fun entry => s ∈ entry.2).map (·.1)

end Labelling

end HoleBlame
