/-!
# The lines of a file

A file is a list of bytes, and a cursor goes through its lines.  When it is advanced, it takes the bytes up
to the next line feed, or all bytes if there is none, and reads them as UTF-8 text.  Its line is this text
without the line feed and without one carriage return directly before that line feed; a carriage return
anywhere else stays.

Where no bytes are left, or where they are no UTF-8 text, the lines end.  A cursor that has come to the end
may be advanced again, and then it goes on taking bytes, but it has no line any more.

Lines are numbered from one.
-/

namespace HoleBlame.Text

/-- A line of text with its number. -/
structure Line where
  /-- The number of the line, counted from one. -/
  number : Nat
  /-- The text of the line, without its end. -/
  text : List Char
deriving DecidableEq

/-- Takes the line end off a piece of text. -/
def dropLineEnd (text : List Char) : List Char :=
  match text.reverse with
  | '\n' :: '\r' :: rest => rest.reverse
  | '\n' :: rest => rest.reverse
  | _ => text

/-- The text of a piece, unless it is no UTF-8. -/
def lineText? (piece : List UInt8) : Option (List Char) :=
  (String.fromUTF8? ⟨piece.toArray⟩).map fun text => dropLineEnd text.toList

/-- The bytes up to the first line feed and those behind it, given the bytes in front backwards. -/
def cutFrom (front : List UInt8) : List UInt8 → List UInt8 × List UInt8
  | [] => (front.reverse, [])
  | b :: rest => if b = 10 then ((b :: front).reverse, rest) else cutFrom (b :: front) rest

/-- What is behind a line feed is shorter. -/
theorem length_cutFrom (front bytes : List UInt8) :
    (cutFrom front bytes).1.length + (cutFrom front bytes).2.length = front.length + bytes.length := by
  induction bytes generalizing front with
  | nil => simp [cutFrom]
  | cons b rest ih =>
    unfold cutFrom
    split
    · simp only [List.length_reverse, List.length_cons]
      omega
    · rw [ih]
      simp only [List.length_cons]
      omega

/-- A cursor in the lines of a file. -/
structure LineCursor where
  /-- The bytes that have not been taken. -/
  rest : List UInt8
  /-- The text that has been read last. -/
  text : List Char
  /-- The number of lines that have been read. -/
  number : Nat
  /-- The lines have ended. -/
  ended : Bool
deriving DecidableEq

namespace LineCursor

/-- The cursor in front of the first line. -/
def start (bytes : List UInt8) : LineCursor :=
  ⟨bytes, [], 0, false⟩

/-- Goes to the next line. -/
def advance (x : LineCursor) : LineCursor :=
  let (piece, rest) := cutFrom [] x.rest
  if piece = [] then { x with rest, text := [], ended := true }
  else
    match lineText? piece with
    | some text => { x with rest, text, number := x.number + 1 }
    | none => { x with rest, text := [], ended := true }

/-- The line at the cursor. -/
def line? (x : LineCursor) : Option Line :=
  if x.ended then none else some ⟨x.number, x.text⟩

/-- A line takes up bytes. -/
theorem length_rest_advance {x : LineCursor} {line : Line} (found : x.advance.line? = some line) :
    x.advance.rest.length < x.rest.length := by
  have lengths := length_cutFrom [] x.rest
  have rest : x.advance.rest = (cutFrom [] x.rest).2 := by
    unfold advance
    split
    next cut =>
      rw [cut]
      split
      · rfl
      · split <;> rfl
  have taken : (cutFrom [] x.rest).1 ≠ [] := by
    intro nothing
    simp [advance, line?, nothing] at found
  have := List.length_pos_iff.mpr taken
  rw [rest]
  simp only [List.length_nil] at lengths
  omega

/-- The lines behind the cursor. -/
def remaining (x : LineCursor) : List Line :=
  match _h : x.advance.line? with
  | none => []
  | some line => line :: remaining x.advance
termination_by x.rest.length
decreasing_by exact length_rest_advance _h

end LineCursor

/-- The lines of a file. -/
def lines (bytes : List UInt8) : List Line :=
  (LineCursor.start bytes).remaining

end HoleBlame.Text
