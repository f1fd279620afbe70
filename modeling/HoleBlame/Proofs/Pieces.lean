import HoleBlame.Text.Lines
import Mathlib.Data.List.Basic

/-!
# Lines and pieces

A file can be cut after every line feed before any of it is read (`Text.pieces`).  The lines that a cursor finds in
it are the texts of the pieces, up to the first piece that is no text (`Text.lines_eq`).
-/

namespace HoleBlame.Text

/-- Cuts bytes after every line feed, given the pieces found so far and the bytes of the current
piece, both backwards. -/
def piecesFrom (done : List (List UInt8)) (current : List UInt8) : List UInt8 → List (List UInt8)
  | [] => (if current = [] then done else current.reverse :: done).reverse
  | b :: rest =>
    if b = 10 then piecesFrom ((b :: current).reverse :: done) [] rest
    else piecesFrom done (b :: current) rest

/-- Cuts bytes after every line feed. -/
def pieces (bytes : List UInt8) : List (List UInt8) :=
  piecesFrom [] [] bytes

/-- The texts up to the first piece that has none. -/
def readable : List (List UInt8) → List (List Char)
  | [] => []
  | piece :: rest =>
    match lineText? piece with
    | some text => text :: readable rest
    | none => []

/-- Numbers texts consecutively. -/
def numberFrom (first : Nat) : List (List Char) → List Line
  | [] => []
  | text :: rest => ⟨first, text⟩ :: numberFrom (first + 1) rest

theorem piecesFrom_eq (done : List (List UInt8)) (current bytes : List UInt8) :
    piecesFrom done current bytes = done.reverse ++ piecesFrom [] current bytes := by
  induction bytes generalizing done current with
  | nil => by_cases h : current = [] <;> simp [piecesFrom, h]
  | cons b rest ih =>
    simp only [piecesFrom]
    split
    · rw [ih (_ :: done), ih [_]]
      simp
    · exact ih done _

/-- The first piece is what a cursor takes, and the others are cut from what it leaves. -/
theorem piecesFrom_eq_cons {current bytes : List UInt8} (taken : (cutFrom current bytes).1 ≠ []) :
    piecesFrom [] current bytes = (cutFrom current bytes).1 :: pieces (cutFrom current bytes).2 := by
  induction bytes generalizing current with
  | nil =>
    have some_bytes : current ≠ [] := fun none => taken (by simp [cutFrom, none])
    simp [piecesFrom, cutFrom, some_bytes, pieces]
  | cons b rest ih =>
    rw [piecesFrom]
    unfold cutFrom at taken ⊢
    split
    · exact piecesFrom_eq [_] [] rest
    · next other =>
      rw [if_neg other] at taken
      exact ih taken

/-- A cursor takes nothing only at the end of the bytes. -/
theorem cutFrom_eq_nil_iff {bytes : List UInt8} : (cutFrom [] bytes).1 = [] ↔ bytes = [] := by
  have taken (front rest : List UInt8) (h : front ≠ []) : (cutFrom front rest).1 ≠ [] := by
    induction rest generalizing front with
    | nil => simpa [cutFrom] using h
    | cons b rest ih =>
      unfold cutFrom
      split
      · simp
      · exact ih _ (List.cons_ne_nil b front)
  constructor
  · intro nothing
    cases bytes with
    | nil => rfl
    | cons b rest =>
      unfold cutFrom at nothing
      split at nothing
      · simp at nothing
      · exact absurd nothing (taken [b] rest (List.cons_ne_nil b []))
  · rintro rfl
    rfl

namespace LineCursor

variable {x : LineCursor}

/-- Where the pieces end, so do the lines. -/
theorem advance_of_pieces_nil (none_left : pieces x.rest = []) : x.advance.ended = true := by
  have nothing : (cutFrom [] x.rest).1 = [] := by
    by_contra taken
    rw [pieces, piecesFrom_eq_cons taken] at none_left
    cases none_left
  simp [advance, nothing]

/-- **What a step does**: a cursor takes the next piece, and its line is the text of this piece, if it has one. -/
theorem advance_of_pieces_cons {piece : List UInt8} {others : List (List UInt8)}
    (left : pieces x.rest = piece :: others) : pieces x.advance.rest = others ∧
      match lineText? piece with
      | some text => x.advance.text = text ∧ x.advance.number = x.number + 1 ∧ x.advance.ended = x.ended
      | none => x.advance.ended = true := by
  have taken : (cutFrom [] x.rest).1 ≠ [] := by
    rw [ne_eq, cutFrom_eq_nil_iff]
    rintro nothing
    rw [nothing] at left
    cases left
  rw [pieces, piecesFrom_eq_cons taken] at left
  obtain ⟨rfl, rfl⟩ := List.cons.inj left
  unfold advance
  simp only [if_neg taken]
  cases lineText? (cutFrom [] x.rest).1 with
  | none => exact ⟨rfl, rfl⟩
  | some text => exact ⟨rfl, rfl, rfl, rfl⟩

/-- The lines behind a cursor are the texts of the pieces behind it. -/
theorem remaining_eq (inside : x.ended = false) :
    x.remaining = numberFrom (x.number + 1) (readable (pieces x.rest)) := by
  induction x using remaining.induct with
  | case1 x none_found =>
    rw [remaining, none_found]
    cases left : pieces x.rest with
    | nil => rfl
    | cons piece others =>
      have step := (advance_of_pieces_cons left).2
      rw [readable]
      cases found : lineText? piece with
      | none => rfl
      | some text =>
        rw [found] at step
        simp [line?, step.2.2, inside] at none_found
  | case2 x line found ih =>
    rw [remaining, found]
    cases left : pieces x.rest with
    | nil => simp [line?, advance_of_pieces_nil left] at found
    | cons piece others =>
      obtain ⟨behind, step⟩ := advance_of_pieces_cons left
      rw [readable]
      cases read : lineText? piece with
      | none =>
        rw [read] at step
        simp [line?, step] at found
      | some text =>
        rw [read] at step
        obtain ⟨own, next, same⟩ := step
        rw [line?, same, inside] at found
        cases found
        rw [ih (same.trans inside), behind, own, next]
        rfl

end LineCursor

/-- **The lines of a file are the texts of its pieces**, up to the first piece that is no text. -/
theorem lines_eq (bytes : List UInt8) : lines bytes = numberFrom 1 (readable (pieces bytes)) :=
  LineCursor.remaining_eq rfl

end HoleBlame.Text
