import HoleBlame.Proofs.Insertion
import HoleBlame.Proofs.Noting

/-!
# Notes that are torn

Is every line of holes heeded when notes are accepted?  No: the lines of a file end at the first piece that is no
text, and nobody hears of it.  What stands behind this piece is not looked at, and the states whose lines are lost
seem to depend on fewer holes than they do.

What is heeded is every line in front of it.  A line gives a hole to a state (`Notes.Gives`) exactly when reading
it adds the hole (`Notes.mem_holes_readLine`), so that the holes of a state are those that are given in front.
Nothing is lost if all pieces are texts, and otherwise only if what is behind the tear has been given in front
(`Notes.Gathers`).

The main result is `Notes.gathers_of_read`.
-/

namespace HoleBlame

open Text

/-! ## The pieces in front of a tear -/

namespace Text

/-- The piece is a text. -/
def isText (piece : List UInt8) : Bool :=
  (lineText? piece).isSome

/-- The pieces from the first one on that is no text. -/
def tornOff (bytes : List UInt8) : List (List UInt8) :=
  (pieces bytes).dropWhile isText

variable {bytes : List UInt8} {text : List Char}

/-- The lines of a file are the texts of the pieces in front of the tear. -/
theorem mem_lineTexts : text ∈ lineTexts bytes ↔
    ∃ piece ∈ (pieces bytes).takeWhile isText, lineText? piece = some text := by
  rw [lineTexts]
  induction pieces bytes with
  | nil => simp [readable]
  | cons piece rest ih =>
    rw [readable]
    cases found : lineText? piece with
    | none => simp [isText, found]
    | some own =>
      rw [List.takeWhile_cons_of_pos (by rw [isText, found]; rfl), List.mem_cons,
        List.exists_mem_cons_iff, ih, found, Option.some_inj, eq_comm]

/-- A line stands in front of the tear or behind it. -/
theorem mem_lineTexts_or_tornOff {piece : List UInt8} (mem : piece ∈ pieces bytes)
    (found : lineText? piece = some text) : text ∈ lineTexts bytes ∨ piece ∈ tornOff bytes := by
  rw [← List.takeWhile_append_dropWhile (p := isText) (l := pieces bytes), List.mem_append] at mem
  exact mem.imp_left fun front => mem_lineTexts.mpr ⟨piece, front, found⟩

theorem tornOff_eq_nil_iff : tornOff bytes = [] ↔ Readable bytes :=
  List.dropWhile_eq_nil_iff

end Text

namespace Notes

variable {n h k y : ℕ} {s : Fin n} {x x' : Said n} {text : List Char}

/-! ## Lines that give holes -/

/-- A line gives a hole to a state. -/
def Gives (s : Fin n) (y : ℕ) (text : List Char) : Prop :=
  ∃ holes, (Note.holes s holes).IsLine text ∧ y ∈ holes

/-- A line of holes gives its holes to its state. -/
theorem gives_iff {number : List Char} {list : List (List Char)} {t : Fin n}
    (state : Decimal.readNat number = .ok t.val)
    (found : noteLine? (content text) = some (.holes number list)) :
    Gives s y text ↔ s = t ∧ ∃ holes, readHoles list = .ok holes ∧ y ∈ holes := by
  constructor
  · rintro ⟨holes, line, mem⟩
    obtain ⟨number', list', found', state', numerals⟩ := isLine_holes_iff.mp line
    obtain ⟨rfl, rfl⟩ := NoteLine.holes.inj (Option.some.inj (found.symm.trans found'))
    exact ⟨Fin.ext (Except.ok.inj (state'.symm.trans state)), holes, readHoles_eq_ok.mpr numerals, mem⟩
  · rintro ⟨rfl, holes, numerals, mem⟩
    exact ⟨holes, isLine_holes_iff.mpr ⟨number, list, found, state, readHoles_eq_ok.mp numerals⟩, mem⟩

/-- Lines of no other kind give holes. -/
theorem not_gives (other : ∀ number list, noteLine? (content text) ≠ some (.holes number list)) :
    ¬ Gives s y text := by
  rintro ⟨holes, line, -⟩
  obtain ⟨number, list, found, -⟩ := isLine_holes_iff.mp line
  exact other number list found

/-- What an accepted line can do to the holes. -/
theorem readLine_cases (accepted : readLine x ⟨k, text⟩ = .ok x') :
    (∃ number list t holes, noteLine? (content text) = some (.holes number list) ∧
      readState n k number = .ok t ∧ readHoles list = .ok holes ∧
        x'.holes = assign x.holes t (x.holes.get t ++ holes)) ∨
    (∀ number list, noteLine? (content text) ≠ some (.holes number list)) ∧ x'.holes = x.holes := by
  rw [readLine] at accepted
  by_cases empty : content text = []
  · obtain rfl := Except.ok.inj ((if_pos empty).symm.trans accepted)
    exact .inr ⟨fun number list found => content_ne_nil found empty, rfl⟩
  obtain ⟨numHoles, lists, priors⟩ := x
  simp only [if_neg empty] at accepted
  split at accepted
  · next number found =>
    obtain ⟨size, -, accepted⟩ := exists_of_bind_eq_ok accepted
    obtain rfl := Except.ok.inj accepted
    exact .inr ⟨by simp [found], rfl⟩
  · cases accepted
  · next number list _ found =>
    obtain ⟨t, state, accepted⟩ := exists_of_bind_eq_ok accepted
    obtain ⟨holes, numerals, accepted⟩ := exists_of_bind_eq_ok accepted
    obtain rfl := Except.ok.inj accepted
    exact .inl ⟨number, list, t, holes, found, state, numerals, rfl⟩
  · next number literal _ found =>
    obtain ⟨t, -, accepted⟩ := exists_of_bind_eq_ok accepted
    obtain ⟨value, -, accepted⟩ := exists_of_bind_eq_ok accepted
    obtain rfl := Except.ok.inj accepted
    exact .inr ⟨by simp [found], rfl⟩
  · next number _ found =>
    obtain ⟨t, -, accepted⟩ := exists_of_bind_eq_ok accepted
    obtain rfl := Except.ok.inj accepted
    exact .inr ⟨by simp [found], rfl⟩
  · cases accepted

/-- **Reading a line adds the holes that it gives.** -/
theorem mem_holes_readLine (accepted : readLine x ⟨k, text⟩ = .ok x') :
    y ∈ x'.holes.get s ↔ y ∈ x.holes.get s ∨ Gives s y text := by
  obtain ⟨number, list, t, holes, found, state, numerals, after⟩ | ⟨other, after⟩ := readLine_cases accepted
  · rw [after, get_assign, gives_iff (readState_eq_ok.mp state) found, numerals]
    by_cases same : s = t
    · subst same
      simp
    · simp [same]
  · rw [after, or_iff_left (not_gives other)]

/-- **Reading lines adds the holes that they give.** -/
theorem mem_holes_foldlM {texts : List (List Char)}
    (accepted : (numberFrom k texts).foldlM readLine x = .ok x') :
    y ∈ x'.holes.get s ↔ y ∈ x.holes.get s ∨ ∃ text ∈ texts, Gives s y text := by
  induction texts generalizing k x with
  | nil =>
    obtain rfl := Except.ok.inj accepted
    simp
  | cons text rest ih =>
    rw [numberFrom, List.foldlM_cons] at accepted
    obtain ⟨next, first, others⟩ := exists_of_bind_eq_ok accepted
    rw [ih others, mem_holes_readLine first, List.exists_mem_cons_iff, or_assoc]

/-! ## What is read of torn notes -/

variable {c : Chain Float n} {bytes : List UInt8} {a : Annotated Float n h}

theorem mem_holes_said (said : (lines bytes).foldlM readLine (.nothing n) = .ok x) :
    y ∈ x.holes.get s ↔ ∃ text ∈ lineTexts bytes, Gives s y text := by
  rw [lines_eq] at said
  rw [mem_holes_foldlM said]
  simp [Said.nothing, get_eq_getElem, lineTexts]

/-- The holes of a state are those that are given to it in front of the tear. -/
theorem mem_holes_of_read {y : Fin h} (accepted : read c bytes = .ok ⟨h, a⟩) :
    y ∈ a.table.holes s ↔ ∃ text ∈ lineTexts bytes, Gives s y text := by
  obtain ⟨x, said, -, t, made, rfl⟩ := read_eq_ok_iff.mp accepted
  rw [((table_of_said made).2 s).2 y, mem_holes_said said]

/-- What is given in front of the tear exists. -/
theorem lt_of_gives (accepted : read c bytes = .ok ⟨h, a⟩) (front : text ∈ lineTexts bytes)
    (gives : Gives s y text) : y < h := by
  obtain ⟨x, said, -, t, made, rfl⟩ := read_eq_ok_iff.mp accepted
  exact ((table_of_said made).2 s).1 y ((mem_holes_said said).mpr ⟨text, front, gives⟩)

/-- What is written behind a tear is not looked at. -/
theorem read_append_of_not_readable (start : LineStart bytes) (torn : ¬ Readable bytes) (back : List UInt8) :
    read c (bytes ++ back) = read c bytes := by
  have same : lines (bytes ++ back) = lines bytes := by
    rw [lines_eq, lines_eq]
    exact congrArg (numberFrom 1) (lineTexts_append_of_not_readable start torn back)
  rw [read, read, same]

/-- Every hole that a line of the file gives to a state is in the table. -/
def Complete (n : ℕ) (bytes : List UInt8) (t : HoleTable h) : Prop :=
  ∀ piece ∈ pieces bytes, ∀ text, lineText? piece = some text → ∀ (s : Fin n) (y : ℕ), Gives s y text →
    ∃ hy : y < h, ⟨y, hy⟩ ∈ t.holes s

theorem complete_iff (accepted : read c bytes = .ok ⟨h, a⟩) :
    Complete n bytes a.table ↔ ∀ piece ∈ tornOff bytes, ∀ text, lineText? piece = some text →
      ∀ (s : Fin n) (y : ℕ), Gives s y text → ∃ text' ∈ lineTexts bytes, Gives s y text' := by
  constructor
  · intro complete piece torn text found s y gives
    obtain ⟨_, mem⟩ := complete piece (List.dropWhile_subset _ torn) text found s y gives
    exact (mem_holes_of_read accepted).mp mem
  · intro again piece mem text found s y gives
    have front : ∃ text' ∈ lineTexts bytes, Gives s y text' := by
      rcases mem_lineTexts_or_tornOff mem found with front | torn
      · exact ⟨text, front, gives⟩
      · exact again piece torn text found s y gives
    obtain ⟨text', front, gives'⟩ := front
    exact ⟨lt_of_gives accepted front gives', (mem_holes_of_read accepted).mpr ⟨text', front, gives'⟩⟩

/-- What becomes of the lines of holes of notes that are accepted. -/
structure Gathers (c : Chain Float n) (bytes : List UInt8) (a : Annotated Float n h) : Prop where
  /-- A state has the holes that are given to it in front of the tear, all of which exist. -/
  mem_iff : ∀ (s : Fin n) (y : Fin h), y ∈ a.table.holes s ↔ ∃ text ∈ lineTexts bytes, Gives s y text
  exist : ∀ text ∈ lineTexts bytes, ∀ (s : Fin n) (y : ℕ), Gives s y text → y < h
  /-- Nothing is lost iff nothing is torn off that has not been given in front, too. -/
  complete_iff : Complete n bytes a.table ↔ ∀ piece ∈ tornOff bytes, ∀ text, lineText? piece = some text →
    ∀ (s : Fin n) (y : ℕ), Gives s y text → ∃ text' ∈ lineTexts bytes, Gives s y text'
  complete : Readable bytes → Complete n bytes a.table
  /-- What is written behind a tear is not looked at. -/
  unseen : LineStart bytes → ¬ Readable bytes → ∀ back, read c (bytes ++ back) = .ok ⟨h, a⟩

/-- **The holes of a state are those of all lines in front of the first piece that is no text.** -/
theorem gathers_of_read (accepted : read c bytes = .ok ⟨h, a⟩) : Gathers c bytes a := by
  constructor
  case mem_iff => exact fun s y => mem_holes_of_read accepted
  case exist => exact fun text front s y gives => lt_of_gives accepted front gives
  case complete_iff => exact complete_iff accepted
  case complete =>
    intro legible
    rw [complete_iff accepted, tornOff_eq_nil_iff.mpr legible]
    exact List.forall_mem_nil _
  case unseen =>
    intro start torn back
    rw [read_append_of_not_readable start torn, accepted]

/-- Notes on three states, with a byte in between that is no text. -/
def tornNotes : List UInt8 :=
  bytesOf "holes 2\n0 : 1\n".toList ++ [255, 10] ++ bytesOf "1 : 0\n".toList

theorem lineTexts_tornNotes : lineTexts tornNotes = ["holes 2".toList, "0 : 1".toList] := by
  decide +kernel

theorem written_tornNotes : Written 2 [.holes (0 : Fin 3) [1]] (lineTexts tornNotes) := by
  have header : HeaderLine 2 "holes 2".toList :=
    ⟨_, @HeaderForm.mk 2 [' '] ['2'] (by decide) (by decide) ⟨List.forall_mem_singleton.mpr rfl, rfl⟩,
      entry_self _⟩
  have first : (Note.holes (0 : Fin 3) [1]).IsLine "0 : 1".toList :=
    isLine_holes_iff.mpr ⟨['0'], [['1']], by decide, rfl, .cons rfl .nil⟩
  rw [lineTexts_tornNotes]
  exact ⟨[], _, _, List.forall_mem_nil _, header, .note first .nil, rfl⟩

theorem exists_read_tornNotes : ∃ a, read (still 2) tornNotes = .ok ⟨2, a⟩ ∧
    Means (still 2) [.holes 0 [1]] a :=
  exists_read written_tornNotes (by decide)

/-- What is in front of the byte is heeded. -/
theorem gathers_tornNotes : ∃ a, read (still 2) tornNotes = .ok ⟨2, a⟩ ∧ Gathers (still 2) tornNotes a := by
  obtain ⟨a, accepted, -⟩ := exists_read_tornNotes
  exact ⟨a, accepted, gathers_of_read accepted⟩

/-- What is behind it is lost, although the notes are accepted. -/
theorem not_complete_tornNotes :
    ∃ a, read (still 2) tornNotes = .ok ⟨2, a⟩ ∧ ¬ Complete 3 tornNotes a.table := by
  obtain ⟨a, accepted, means⟩ := exists_read_tornNotes
  refine ⟨a, accepted, fun complete => ?_⟩
  have lost : Gives (1 : Fin 3) 0 "1 : 0".toList :=
    ⟨[0], isLine_holes_iff.mpr ⟨['1'], [['0']], by decide, rfl, .cons rfl .nil⟩, List.mem_singleton_self 0⟩
  obtain ⟨_, mem⟩ := complete (bytesOf "1 : 0\n".toList) (by decide +kernel) _ (by decide +kernel) 1 0 lost
  rw [HoleSet.mem_def, means.holes 1] at mem
  simp [stated, Note.holesOf] at mem

end Notes

end HoleBlame
