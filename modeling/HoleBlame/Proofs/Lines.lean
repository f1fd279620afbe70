import HoleBlame.Proofs.Scanning
import Mathlib.Logic.Function.Iterate

/-!
# Going through the lines of a file

The bytes of a file are cut after every line feed, and each piece is a line as long as the pieces are UTF-8 texts.
A cursor that is advanced again and again finds these lines one after the other, with their numbers, and then none
any more, however often it is advanced (`Text.goesThrough_start`).

A cursor past the end still takes bytes and reads texts.  What keeps it from finding lines is that it has been told
that they have ended, so this is the invariant of the run (`Text.LineCursor.ended_advance`).
-/

namespace HoleBlame.Text

variable {bytes : List UInt8}

/-! ## Pieces -/

/-- Bytes are cut into pieces after every line feed.  The last piece need not end in one, but no piece is empty. -/
structure Cut (bytes : List UInt8) (pieces : List (List UInt8)) : Prop where
  flatten : pieces.flatten = bytes
  nonempty : ∀ piece ∈ pieces, piece ≠ []
  inside : ∀ piece ∈ pieces, 10 ∉ piece.dropLast
  ended : ∀ piece ∈ pieces.dropLast, piece.getLast? = some 10

theorem Cut.nil : Cut [] [] :=
  ⟨rfl, by simp, by simp, by simp⟩

theorem Cut.single {piece : List UInt8} (some_bytes : piece ≠ []) (unbroken : 10 ∉ piece) : Cut piece [piece] :=
  ⟨by simp, by simpa, by simpa using fun mem => unbroken (List.dropLast_subset _ mem), by simp⟩

theorem Cut.cons {front rest : List UInt8} {others : List (List UInt8)} (unbroken : 10 ∉ front)
    (cut : Cut rest others) : Cut (front ++ 10 :: rest) ((front ++ [10]) :: others) := by
  constructor
  case flatten => simp [cut.flatten]
  case nonempty => exact List.forall_mem_cons.mpr ⟨by simp, cut.nonempty⟩
  case inside => exact List.forall_mem_cons.mpr ⟨by simpa using unbroken, cut.inside⟩
  case ended =>
    cases others with
    | nil => simp
    | cons second others => exact List.forall_mem_cons.mpr ⟨by simp, cut.ended⟩

/-- The pieces are those into which the bytes are cut. -/
theorem cut_pieces (bytes : List UInt8) : Cut bytes (pieces bytes) := by
  have general (current : List UInt8) (unbroken : 10 ∉ current) :
      Cut (current.reverse ++ bytes) (piecesFrom [] current bytes) := by
    induction bytes generalizing current with
    | nil =>
      by_cases none : current = []
      · subst none
        exact Cut.nil
      · rw [piecesFrom, if_neg none, List.append_nil]
        exact Cut.single (by simpa using none) (by simpa using unbroken)
    | cons b rest ih =>
      rw [piecesFrom]
      split
      · next feed =>
        subst feed
        rw [piecesFrom_eq, List.reverse_singleton, List.singleton_append, List.reverse_cons]
        exact Cut.cons (by simpa using unbroken) (ih [] (by simp))
      · next other =>
        have longer := ih (b :: current) (by simpa [eq_comm, other] using unbroken)
        rwa [List.reverse_cons, List.append_assoc] at longer
  exact general [] (by simp)

/-! ## Texts -/

/-- The bytes are the UTF-8 encoding of a text. -/
def Encoded (bytes : List UInt8) : Prop :=
  ∃ text, bytesOf text = bytes

/-- A text and its line: a line feed at its end is taken off, and one carriage return directly before it. -/
inductive Ends : List Char → List Char → Prop
  | feed {line} (plain : line.getLast? ≠ some '\r') : Ends (line ++ ['\n']) line
  | returnFeed {line} : Ends (line ++ ['\r', '\n']) line
  | unended {line} (plain : line.getLast? ≠ some '\n') : Ends line line

theorem ends_dropLineEnd (text : List Char) : Ends text (dropLineEnd text) := by
  unfold dropLineEnd
  split
  · next line backwards =>
    have whole := congrArg List.reverse backwards
    rw [List.reverse_reverse, List.reverse_cons, List.reverse_cons, List.append_assoc] at whole
    rw [whole]
    exact .returnFeed
  · next line other backwards =>
    have whole := congrArg List.reverse backwards
    rw [List.reverse_reverse, List.reverse_cons] at whole
    rw [whole]
    refine .feed fun return_before => ?_
    rw [List.getLast?_reverse] at return_before
    obtain ⟨before, rfl⟩ := List.head?_eq_some_iff.mp return_before
    exact other before rfl
  · next no_feed =>
    refine .unended fun feed => ?_
    rw [← List.head?_reverse] at feed
    obtain ⟨before, backwards⟩ := List.head?_eq_some_iff.mp feed
    exact no_feed before backwards

/-- What is read of a piece is the line of the text that it encodes. -/
theorem exists_of_lineText? {piece : List UInt8} {line : List Char} (read : lineText? piece = some line) :
    ∃ text, bytesOf text = piece ∧ dropLineEnd text = line := by
  obtain ⟨s, decoded, rfl⟩ := Option.map_eq_some_iff.mp read
  refine ⟨s.toList, ?_, rfl⟩
  unfold String.fromUTF8? at decoded
  split at decoded
  · cases decoded
    have stored := toByteArray_ofList (String.ofByteArray ⟨piece.toArray⟩ ‹_›).toList
    rw [String.ofList_toList] at stored
    exact (Array.toList_inj.mpr (congrArg ByteArray.data stored)).symm
  · cases decoded

theorem encoded_iff {piece : List UInt8} : Encoded piece ↔ (lineText? piece).isSome := by
  constructor
  · rintro ⟨text, rfl⟩
    rw [lineText?_bytesOf]
    rfl
  · intro read
    obtain ⟨line, read⟩ := Option.isSome_iff_exists.mp read
    obtain ⟨text, encoded, -⟩ := exists_of_lineText? read
    exact ⟨text, encoded⟩

/-! ## Advancing again and again -/

namespace LineCursor

/-- **Once the lines have ended, no step brings one back.** -/
theorem ended_advance {x : LineCursor} (ended : x.ended = true) : x.advance.ended = true := by
  unfold advance
  split
  split
  · rfl
  · split
    · exact ended
    · rfl

theorem ended_iterate {x : LineCursor} (ended : x.ended = true) (k : ℕ) : (advance^[k] x).ended = true := by
  induction k generalizing x with
  | zero => exact ended
  | succ k ih => exact ih (ended_advance ended)

theorem line?_eq_none_iff {x : LineCursor} : x.line? = none ↔ x.ended = true := by
  unfold line?
  split <;> simp_all

/-- The lines behind a cursor are those that it finds. -/
theorem line?_iterate (x : LineCursor) (k : ℕ) : (advance^[k + 1] x).line? = x.remaining[k]? := by
  induction k generalizing x with
  | zero =>
    rw [remaining]
    cases found : x.advance.line? <;> exact found
  | succ k ih =>
    rw [remaining]
    cases found : x.advance.line? with
    | none =>
      have ended : (advance^[k + 1] x.advance).ended = true := ended_iterate (line?_eq_none_iff.mp found) (k + 1)
      exact line?_eq_none_iff.mpr ended
    | some line => exact ih x.advance

end LineCursor

theorem getElem?_numberFrom (first k : ℕ) (texts : List (List Char)) :
    (numberFrom first texts)[k]? = texts[k]?.map (Line.mk (first + k)) := by
  induction texts generalizing first k with
  | nil => rfl
  | cons text rest ih =>
    cases k with
    | zero => rfl
    | succ k => exact (ih (first + 1) k).trans (by rw [Nat.add_right_comm, List.getElem?_cons_succ]; rfl)

/-- A piece is read if all pieces up to it are texts. -/
theorem getElem?_readable {pieces : List (List UInt8)} {k : ℕ} (texts : ∀ piece ∈ pieces.take (k + 1), Encoded piece) :
    (readable pieces)[k]? = pieces[k]?.bind lineText? := by
  induction pieces generalizing k with
  | nil => rfl
  | cons piece rest ih =>
    rw [List.take_succ_cons, List.forall_mem_cons] at texts
    obtain ⟨line, read⟩ := Option.isSome_iff_exists.mp (encoded_iff.mp texts.1)
    rw [readable, read]
    cases k with
    | zero => exact read.symm
    | succ k => exact ih texts.2

/-- Nothing is read from the first piece on that is no text. -/
theorem getElem?_readable_eq_none {pieces : List (List UInt8)} {k : ℕ}
    (torn : ∃ piece ∈ pieces.take (k + 1), ¬ Encoded piece) : (readable pieces)[k]? = none := by
  induction pieces generalizing k with
  | nil => rfl
  | cons piece rest ih =>
    rw [readable]
    cases read : lineText? piece with
    | none => rfl
    | some line =>
      have encoded : Encoded piece := encoded_iff.mpr (by rw [read]; rfl)
      rw [List.take_succ_cons, List.exists_mem_cons_iff] at torn
      have later := torn.resolve_left fun not_encoded => not_encoded encoded
      cases k with
      | zero => simp at later
      | succ k => exact ih later

/-- What a cursor finds in a file that is cut into pieces. -/
structure GoesThrough (bytes : List UInt8) (pieces : List (List UInt8)) : Prop where
  cut : Cut bytes pieces
  /-- As long as the pieces are texts, each is a line, and its number is that of the steps. -/
  found : ∀ k piece, pieces[k]? = some piece → (∀ piece ∈ pieces.take (k + 1), Encoded piece) →
    ∃ text line, bytesOf text = piece ∧ Ends text line ∧
      (LineCursor.advance^[k + 1] (.start bytes)).line? = some ⟨k + 1, line⟩
  /-- Behind the last piece, and from the first piece on that is no text, there are no lines. -/
  ended : ∀ k, (pieces.length ≤ k ∨ ∃ piece ∈ pieces.take (k + 1), ¬ Encoded piece) →
    (LineCursor.advance^[k + 1] (.start bytes)).line? = none
  /-- What readers take for the lines of the file is what the cursor finds. -/
  lines_eq : ∀ k, (lines bytes)[k]? = (LineCursor.advance^[k + 1] (.start bytes)).line?

/-- **A cursor finds the lines of a file, and then none any more.** -/
theorem goesThrough_start (bytes : List UInt8) : GoesThrough bytes (pieces bytes) := by
  have line (k : ℕ) : (LineCursor.advance^[k + 1] (.start bytes)).line? =
      (readable (pieces bytes))[k]?.map (Line.mk (k + 1)) := by
    rw [LineCursor.line?_iterate]
    show (lines bytes)[k]? = _
    rw [lines_eq, getElem?_numberFrom, Nat.add_comm]
  constructor
  case cut => exact cut_pieces bytes
  case found =>
    intro k piece at_k texts
    have mem : piece ∈ (pieces bytes).take (k + 1) := by
      rw [List.take_add_one, at_k]
      simp
    obtain ⟨text, rfl⟩ := texts piece mem
    refine ⟨text, dropLineEnd text, rfl, ends_dropLineEnd text, ?_⟩
    rw [line, getElem?_readable texts, at_k]
    exact congrArg (Option.map _) (lineText?_bytesOf text)
  case ended =>
    intro k beyond
    rw [line]
    rcases beyond with last | torn
    · by_cases torn : ∃ piece ∈ (pieces bytes).take (k + 1), ¬ Encoded piece
      · rw [getElem?_readable_eq_none torn]
        rfl
      · rw [getElem?_readable (by simpa using torn), List.getElem?_eq_none last]
        rfl
    · rw [getElem?_readable_eq_none torn]
      rfl
  case lines_eq => exact fun k => (LineCursor.line?_iterate _ k).symm

end HoleBlame.Text
