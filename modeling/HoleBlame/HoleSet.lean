import HoleBlame.Ascending

/-!
# Sets of holes

A sketch has finitely many holes, numbered from zero.  A set of holes is the ascending list of its
members, which is also how reports list it; no hole occurs twice.
-/

namespace HoleBlame

/-- A set of holes of a sketch with `h` holes. -/
structure HoleSet (h : Nat) where
  /-- The members. -/
  toList : List (Fin h)
  /-- They ascend strictly. -/
  ascending : toList.Pairwise (· < ·)
deriving DecidableEq

namespace HoleSet

variable {h : Nat}

instance : Membership (Fin h) (HoleSet h) where
  mem S x := x ∈ S.toList

instance (x : Fin h) (S : HoleSet h) : Decidable (x ∈ S) :=
  inferInstanceAs (Decidable (x ∈ S.toList))

theorem mem_def {x : Fin h} {S : HoleSet h} : x ∈ S ↔ x ∈ S.toList := Iff.rfl

/-- No holes. -/
def empty (h : Nat) : HoleSet h :=
  ⟨[], .nil⟩

@[simp] theorem not_mem_empty {x : Fin h} : x ∉ empty h := by
  simp [mem_def, empty]

/-- The holes that pass a test. -/
def ofFn (p : Fin h → Bool) : HoleSet h :=
  ⟨(List.finRange h).filter p, (List.pairwise_lt_finRange h).filter p⟩

@[simp] theorem mem_ofFn {p : Fin h → Bool} {x : Fin h} : x ∈ ofFn p ↔ p x = true := by
  simp [mem_def, ofFn]

/-! ## Collecting holes -/

/-- Adds a hole. -/
def insert (S : HoleSet h) (x : Fin h) : HoleSet h :=
  ⟨Ascending.place x S.toList, Ascending.pairwise_place Fin.lt_trans (by omega) S.ascending⟩

@[simp] theorem mem_insert {S : HoleSet h} {x y : Fin h} : y ∈ S.insert x ↔ y = x ∨ y ∈ S :=
  Ascending.mem_place

/-- The holes of a list, in any order and with any repetitions. -/
def ofList (holes : List (Fin h)) : HoleSet h :=
  holes.foldl insert (empty h)

theorem mem_foldl_insert {S : HoleSet h} {holes : List (Fin h)} {x : Fin h} :
    x ∈ holes.foldl insert S ↔ x ∈ holes ∨ x ∈ S := by
  induction holes generalizing S with
  | nil => simp
  | cons y rest ih => simp [ih, or_left_comm, or_assoc]

@[simp] theorem mem_ofList {holes : List (Fin h)} {x : Fin h} : x ∈ ofList holes ↔ x ∈ holes := by
  simp [ofList, mem_foldl_insert]

/-- No hole is a member. -/
def isEmpty (S : HoleSet h) : Bool :=
  S.toList.isEmpty

end HoleSet

/-! ## Reports -/

/-- Numbers in braces, separated by commas. -/
def braced {k : Nat} (numbers : List (Fin k)) : String :=
  "\x7b" ++ String.intercalate ", " (numbers.map fun x => toString x.val) ++ "\x7d"

/-- A set of holes in braces. -/
def HoleSet.text {h : Nat} (S : HoleSet h) : String :=
  braced S.toList

end HoleBlame
