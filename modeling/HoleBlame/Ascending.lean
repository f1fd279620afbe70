/-!
# Ascending lists

Numbers that are put in their places one by one, and left out where they are there already, make up the
strictly ascending list of these numbers.
-/

namespace HoleBlame.Ascending

variable {α : Type} [LT α] [DecidableLT α] [DecidableEq α]

/-- Puts a number in its place in an ascending list, unless it is there already. -/
def place (x : α) : List α → List α
  | [] => [x]
  | y :: rest => if x < y then x :: y :: rest else if x = y then y :: rest else y :: place x rest

theorem mem_place {x y : α} {list : List α} : y ∈ place x list ↔ y = x ∨ y ∈ list := by
  induction list with
  | nil => simp [place]
  | cons z rest ih =>
    unfold place
    split
    · simp
    · split
      · next e => simp [e]
      · simp [ih, or_left_comm]

theorem pairwise_place {x : α} {list : List α} (trans : ∀ {x y z : α}, x < y → y < z → x < z)
    (total : ∀ {x y : α}, ¬ x < y → x ≠ y → y < x) (ascending : list.Pairwise (· < ·)) :
    (place x list).Pairwise (· < ·) := by
  induction list with
  | nil => simp [place]
  | cons z rest ih =>
    have hz := List.pairwise_cons.mp ascending
    unfold place
    split
    · next lt =>
      refine List.pairwise_cons.mpr ⟨fun y hy => ?_, ascending⟩
      rcases List.mem_cons.mp hy with rfl | hy
      · exact lt
      · exact trans lt (hz.1 y hy)
    · split
      · exact ascending
      · next ge ne =>
        refine List.pairwise_cons.mpr ⟨fun y hy => ?_, ih hz.2⟩
        rcases mem_place.mp hy with rfl | hy
        · exact total ge ne
        · exact hz.1 y hy

/-- The numbers of a list, ascending and each once. -/
def ofList (numbers : List α) : List α :=
  numbers.foldl (fun list x => place x list) []

theorem mem_foldl_place {x : α} {list numbers : List α} :
    x ∈ numbers.foldl (fun list x => place x list) list ↔ x ∈ numbers ∨ x ∈ list := by
  induction numbers generalizing list with
  | nil => simp
  | cons y rest ih => simp [ih, mem_place, or_left_comm, or_assoc]

theorem mem_ofList {x : α} {numbers : List α} : x ∈ ofList numbers ↔ x ∈ numbers := by
  simp [ofList, mem_foldl_place]

theorem pairwise_ofList (trans : ∀ {x y z : α}, x < y → y < z → x < z)
    (total : ∀ {x y : α}, ¬ x < y → x ≠ y → y < x) (numbers : List α) :
    (ofList numbers).Pairwise (· < ·) := by
  have general (list : List α) (ascending : list.Pairwise (· < ·)) :
      (numbers.foldl (fun list x => place x list) list).Pairwise (· < ·) := by
    induction numbers generalizing list with
    | nil => exact ascending
    | cons x rest ih => exact ih (place x list) (pairwise_place trans total ascending)
  exact general [] .nil

end HoleBlame.Ascending
