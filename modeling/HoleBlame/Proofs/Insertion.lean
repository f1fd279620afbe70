import HoleBlame.Proofs.Sections

/-!
# Lines that are inserted

What becomes of a text when lines are inserted that say nothing about its chain?

Blank lines and comments may be inserted between any two lines, but for one place: the value of a section is the
next line that is not blank, and so a comment that stands between the name of a section and its value is taken
for the value.  There is a continuation of every such place with which this is noticed (`Drn.transparent_iff`).

A section that does not concern a chain may be inserted where another one starts.  But if its value is empty,
it takes the name of that section for its value, and what is read is the text without this name
(`Drn.read_insert_iff`).
-/

namespace HoleBlame

/-! ## Cutting where a line starts -/

namespace Text

variable {front back : List UInt8} {text : List Char}

/-- A line starts behind these bytes. -/
def LineStart (front : List UInt8) : Prop :=
  front = [] ∨ front.getLast? = some 10

instance (front : List UInt8) : Decidable (LineStart front) :=
  inferInstanceAs (Decidable (_ ∨ _))

/-- The bytes are those of texts. -/
def Readable (bytes : List UInt8) : Prop :=
  ∀ piece ∈ pieces bytes, (lineText? piece).isSome

instance (bytes : List UInt8) : Decidable (Readable bytes) :=
  List.decidableBAll (fun piece => (lineText? piece).isSome = true) (pieces bytes)

theorem pieces_append (start : LineStart front) (back : List UInt8) :
    pieces (front ++ back) = pieces front ++ pieces back := by
  have general {front : List UInt8} (ended : front.getLast? = some 10) (current : List UInt8) :
      piecesFrom [] current (front ++ back) = piecesFrom [] current front ++ pieces back := by
    induction front generalizing current with
    | nil => cases ended
    | cons b front ih =>
      cases front with
      | nil =>
        obtain rfl : b = 10 := Option.some.inj ended
        exact piecesFrom_eq [_] [] back
      | cons b' front =>
        have ended : (b' :: front).getLast? = some 10 := (List.getLast?_cons_cons).symm.trans ended
        rw [List.cons_append, piecesFrom, piecesFrom]
        split
        · rw [piecesFrom_eq, piecesFrom_eq [_] [] (b' :: front), ih ended, List.append_assoc]
        · exact ih ended _
  rcases start with rfl | ended
  · rfl
  · exact general ended []

theorem readable_append {first : List (List UInt8)} (legible : ∀ piece ∈ first, (lineText? piece).isSome)
    (second : List (List UInt8)) : readable (first ++ second) = readable first ++ readable second := by
  induction first with
  | nil => rfl
  | cons piece first ih =>
    obtain ⟨head, others⟩ := List.forall_mem_cons.mp legible
    obtain ⟨text, read⟩ := Option.isSome_iff_exists.mp head
    simp only [List.cons_append, readable, read, ih others]

theorem readable_append_of_not_forall {first : List (List UInt8)}
    (legible : ¬ ∀ piece ∈ first, (lineText? piece).isSome) (second : List (List UInt8)) :
    readable (first ++ second) = readable first := by
  induction first with
  | nil => exact absurd (List.forall_mem_nil _) legible
  | cons piece first ih =>
    rw [List.cons_append, readable, readable]
    cases read : lineText? piece with
    | none => rfl
    | some text =>
      have later : ¬ ∀ piece ∈ first, (lineText? piece).isSome := fun others =>
        legible (List.forall_mem_cons.mpr ⟨by rw [read]; rfl, others⟩)
      exact congrArg _ (ih later)

theorem lineTexts_append (start : LineStart front) (legible : Readable front) (back : List UInt8) :
    lineTexts (front ++ back) = lineTexts front ++ lineTexts back := by
  rw [lineTexts, pieces_append start, readable_append legible]
  rfl

/-- A file ends at the first piece that is no text. -/
theorem lineTexts_append_of_not_readable (start : LineStart front) (legible : ¬ Readable front)
    (back : List UInt8) : lineTexts (front ++ back) = lineTexts front := by
  rw [lineTexts, pieces_append start, readable_append_of_not_forall legible]
  rfl

/-- A line as it stands in a file. -/
def lineBytes (text : List Char) : List UInt8 :=
  bytesOf (text ++ ['\n'])

/-- A line as it is read. -/
def asRead (text : List Char) : List Char :=
  dropLineEnd (text ++ ['\n'])

theorem lineTexts_line (oneLine : '\n' ∉ text) (back : List UInt8) :
    lineTexts (lineBytes text ++ back) = asRead text :: lineTexts back := by
  have bytes : lineBytes text = bytesOf text ++ [10] := by
    simp only [lineBytes, bytesOf, List.flatMap_append]
    rfl
  have cut : pieces (lineBytes text ++ back) = lineBytes text :: pieces back := by
    rw [bytes, List.append_assoc, pieces, List.singleton_append,
      piecesFrom_append (ten_not_mem_bytesOf oneLine), piecesFrom_eq]
    simp [pieces]
  rw [lineTexts, cut, readable, lineBytes, lineText?_bytesOf]
  rfl

/-- Nothing is lost of a line but a blank at its end. -/
theorem trim_asRead (text : List Char) : trim (asRead text) = trim text := by
  have ending : ∃ gap, Blanks gap ∧ text = asRead text ++ gap := by
    by_cases cr : text.getLast? = some '\r'
    · obtain ⟨front, rfl⟩ := List.getLast?_eq_some_iff.mp cr
      refine ⟨['\r'], by decide, ?_⟩
      simp [asRead, dropLineEnd]
    · exact ⟨[], by decide, by rw [asRead, dropLineEnd_append cr, List.append_nil]⟩
  obtain ⟨gap, blanks, split⟩ := ending
  conv_rhs => rw [split]
  rw [trim_eq, trim_eq, dropBlankEnd_append blanks]

end Text

open Text

namespace Drn

variable {e : Expecting} {texts later : List (List Char)} {text name value : List Char}

theorem silent_asRead (silent : Silent text) : Silent (asRead text) :=
  isSilent_iff.mp (trim_asRead text ▸ isSilent_of_silent silent)

theorem blanks_asRead : Blanks (asRead text) ↔ Blanks text := by
  rw [blanks_iff, blanks_iff, trim_asRead]

/-! ## Blank lines and comments -/

/-- The same chain, or the same error up to the number of a line. -/
def SameOutcome (x y : Except DrnError ((n : ℕ) × Chain Float n)) : Prop :=
  x.mapError DrnError.unnumbered = y.mapError DrnError.unnumbered

theorem SameOutcome.isSome_toOption {x y : Except DrnError ((n : ℕ) × Chain Float n)}
    (same : SameOutcome x y) : x.toOption.isSome = y.toOption.isSome := by
  cases x <;> cases y <;> first | rfl | cases same

/-- Nothing is ever noticed of a line that is inserted behind these bytes. -/
def Transparent (front : List UInt8) (text : List Char) : Prop :=
  ∀ back, SameOutcome (read (front ++ (lineBytes text ++ back))) (read (front ++ back))

/-- Behind these bytes the value of a section is to come. -/
structure AwaitsValue (front : List UInt8) : Prop where
  legible : Readable front
  open_section : ∃ e, Awaits e (lineTexts front)

theorem Awaits.ne_nil (awaits : Awaits e texts) : texts ≠ [] := by
  cases awaits
  exact List.append_ne_nil_of_right_ne_nil _ (List.cons_ne_nil _ _)

/-- In the body a silent line says nothing. -/
theorem readRest_silent (h : Header) (silent : Silent text) (body rest : List Line) {k : ℕ} :
    readRest (h, some (body ++ ⟨k, text⟩ :: rest)) = readRest (h, some (body ++ rest)) := by
  have line (size : ℕ) (b : Body) : readLine size h.model b ⟨k, text⟩ = .ok b := by
    simp only [readLine, isSilent_of_silent silent, if_true]
  have run (size : ℕ) (b : Body) : (body ++ ⟨k, text⟩ :: rest).foldlM (readLine size h.model) b =
      (body ++ rest).foldlM (readLine size h.model) b := by
    simp only [List.foldlM_append, List.foldlM_cons, line]
    rfl
  cases size : h.size <;> simp only [readRest, size, run]

/-- A silent line may be inserted unless a section waits for its value. -/
theorem readLines_insert (silent : Silent text) (place : Blanks text ∨ ∀ e, ¬ Awaits e texts) :
    readLines (plain (texts ++ text :: later)) = readLines (plain (texts ++ later)) := by
  rw [plain_append, plain_append]
  unfold readLines
  cases standing ⟨false, none, none⟩ texts with
  | complete sections =>
    obtain ⟨h', leads⟩ := sections.leads ⟨false, none, none⟩
    rw [leads, leads]
    exact congrArg (· >>= readRest) (Header.readHeader_of_silent silent)
  | @awaits e awaits =>
    obtain ⟨h', leads⟩ := awaits.leads ⟨false, none, none⟩
    have blank : Blanks text := place.resolve_right fun none => none e awaits
    rw [leads, leads]
    exact congrArg (· >>= readRest) (Header.readHeader_of_blanks blank)
  | refused error stops => rw [stops, stops]
  | ended h' body stops =>
    rw [stops, stops]
    exact readRest_silent h' silent (plain body) (plain later)

/-- A line that is not blank is noticed where a section waits for its value. -/
theorem Awaits.readLines_insert_ne (awaits : Awaits e texts) (ne : ¬ Blanks text) :
    readLines (plain (texts ++ [text, ['1']])) ≠ readLines (plain (texts ++ [['1']])) := by
  obtain ⟨h', leads⟩ := awaits.leads ⟨false, none, none⟩
  rw [plain_append, plain_append]
  unfold readLines
  rw [leads, leads]
  have opens : ∃ name, Opens e name := by
    cases awaits with
    | mk _ opens => exact ⟨_, opens⟩
  obtain ⟨name, opens⟩ := opens
  -- Without the line, the value is there and the header ends behind it.
  have fits : Fits e ['1'] := by
    cases opens with
    | rewardModels => exact .rewardModels rfl
    | size => exact .size rfl
    | ignored => exact .ignored (by decide)
  have without : ∃ missing, (readHeader h' e (plain [['1']]) >>= readRest) =
      .error (.missingSection missing) := by
    obtain ⟨h'', next⟩ := fits.exists_readHeader h'
    rw [show plain [['1']] = [⟨0, ['1']⟩] from rfl, next, readHeader]
    cases type : h''.hasType
    · exact ⟨"@type", by simp [bind, Except.bind, readRest, type]⟩
    · exact ⟨"@model", by simp [bind, Except.bind, readRest, type]⟩
  -- With it, either the line is no value, or the number behind it starts no section.
  have inserted : ∃ error, (∀ missing, error ≠ DrnError.missingSection missing) ∧
      (readHeader h' e (plain [text, ['1']]) >>= readRest) = .error error := by
    by_cases taken : Fits e text
    · obtain ⟨h'', next⟩ := taken.exists_readHeader h'
      refine ⟨.invalidLine 0 (String.ofList ['1']), by rintro _ ⟨⟩, ?_⟩
      rw [show plain [text, ['1']] = [⟨0, text⟩, ⟨0, ['1']⟩] from rfl, next]
      rfl
    · obtain ⟨error, other, stops⟩ := opens.exists_readHeader_of_not_fits taken ne h'
      refine ⟨error, other, ?_⟩
      rw [show plain [text, ['1']] = ⟨0, text⟩ :: [⟨0, ['1']⟩] from rfl, stops]
      rfl
  obtain ⟨missing, without⟩ := without
  obtain ⟨error, other, inserted⟩ := inserted
  rw [without, inserted]
  exact fun same => other missing (Except.error.inj same)

variable {front : List UInt8}

theorem sameOutcome_iff {bytes bytes' : List UInt8} : SameOutcome (read bytes) (read bytes') ↔
    readLines (plain (lineTexts bytes)) = readLines (plain (lineTexts bytes')) := by
  rw [SameOutcome, read_unnumbered, read_unnumbered]

/-- **Blank lines and comments are transparent**, but for a comment between the name of a section and its
value. -/
theorem transparent_iff (start : LineStart front) (oneLine : '\n' ∉ text) (silent : Silent text) :
    Transparent front text ↔ Blanks text ∨ ¬ AwaitsValue front := by
  constructor
  · intro transparent
    by_contra noticed
    obtain ⟨ne, awaits⟩ := not_or.mp noticed
    obtain ⟨legible, e, awaits⟩ := not_not.mp awaits
    have same := sameOutcome_iff.mp (transparent (lineBytes ['1'] ++ []))
    rw [lineTexts_append start legible, lineTexts_append start legible, lineTexts_line oneLine,
      lineTexts_line (by decide)] at same
    exact awaits.readLines_insert_ne (mt blanks_asRead.mp ne) same
  · intro place back
    refine sameOutcome_iff.mpr ?_
    by_cases legible : Readable front
    · rw [lineTexts_append start legible, lineTexts_append start legible, lineTexts_line oneLine]
      exact readLines_insert (silent_asRead silent) (place.imp blanks_asRead.mpr fun awaits e he =>
        awaits ⟨legible, e, he⟩)
    · rw [lineTexts_append_of_not_readable start legible, lineTexts_append_of_not_readable start legible]

/-- The first line of a file, and that on which the number of states is announced. -/
def announced : List UInt8 :=
  lineBytes "@type: DTMC".toList ++ lineBytes "@nr_states".toList

/-- This number, and a chain with a single state. -/
def single : List UInt8 :=
  bytesOf "1\n@model\nstate 0 init\naction 0\n0 : 1\n".toList

theorem sections_type : Sections ["@type: DTMC".toList] :=
  @Sections.type _ " DTMC".toList _ rfl rfl .nil

/-- A comment may stand at the head of a file, and blank lines may stand before a value, but no comment may. -/
theorem transparent_iff_announced : Transparent [] "// one state".toList ∧ Transparent announced "  ".toList ∧
    ¬ Transparent announced "// one state".toList := by
  have comment : Silent "// one state".toList := .inr ⟨[], _, by decide, rfl⟩
  have start : LineStart announced := by decide +kernel
  have texts : lineTexts announced = ["@type: DTMC".toList] ++ ["@nr_states".toList] := by decide +kernel
  have awaits : AwaitsValue announced :=
    ⟨by decide +kernel, .size, texts ▸ .mk sections_type (.size rfl) (List.forall_mem_nil _)⟩
  have head : ¬ AwaitsValue [] := fun ⟨_, _, awaits⟩ => awaits.ne_nil rfl
  refine ⟨(transparent_iff (.inl rfl) (by decide) comment).mpr (.inr head),
    (transparent_iff start (by decide) (.inl (by decide))).mpr (.inl (by decide)), fun transparent => ?_⟩
  rcases (transparent_iff start (by decide) comment).mp transparent with blank | none
  · exact absurd blank (by decide)
  · exact none awaits

/-- **A comment may be taken for a value**: the text is read without it, and refused with it. -/
theorem not_sameOutcome_comment : LineStart announced ∧ '\n' ∉ "// one state".toList ∧
    Silent "// one state".toList ∧
      ¬ SameOutcome (read (announced ++ (lineBytes "// one state".toList ++ single)))
        (read (announced ++ single)) := by
  refine ⟨by decide +kernel, by decide, .inr ⟨[], _, by decide, rfl⟩, fun same => ?_⟩
  have refused :
      (read (announced ++ (lineBytes "// one state".toList ++ single))).toOption.isSome = false := by
    decide +kernel
  have accepted : (read (announced ++ single)).toOption.isSome = true := by decide +kernel
  rw [same.isSome_toOption, accepted] at refused
  cases refused

/-! ## Sections that do not concern a chain -/

/-- Behind these bytes a section of the header starts. -/
structure SectionStart (front : List UInt8) : Prop where
  line : LineStart front
  readable : Readable front
  sections : Sections (lineTexts front)

theorem Unknown.of_trim {text text' : List Char} (unknown : Unknown text) (same : trim text' = trim text) :
    Unknown text' where
  sign := same ▸ unknown.sign
  type := same ▸ unknown.type
  rewardModels := same ▸ unknown.rewardModels
  size := same ▸ unknown.size
  model := same ▸ unknown.model

/-- An empty value lets the next line be taken for the value. -/
theorem readLines_insert_ignored (sections : Sections texts) (unknown : Unknown name) (ne : ¬ Blanks text) :
    readLines (plain (texts ++ name :: value :: text :: later)) =
      if Blanks value then readLines (plain (texts ++ later))
      else readLines (plain (texts ++ text :: later)) := by
  obtain ⟨h', leads⟩ := sections.leads ⟨false, none, none⟩
  have skip {line : List Char} (nonblank : ¬ Blanks line) (rest : List Line) :
      readHeader h' .ignored (⟨0, line⟩ :: rest) = readHeader h' .section rest := by
    rw [readHeader]
    exact if_neg fun empty => nonblank (blanks_iff.mpr empty)
  have read (lines : List (List Char)) : readLines (plain (texts ++ lines)) =
      readHeader h' .section (plain lines) >>= readRest := by
    rw [plain_append]
    exact congrArg (· >>= readRest) (leads _)
  have named : readHeader h' .section (plain (name :: value :: text :: later)) =
      readHeader h' .ignored (⟨0, value⟩ :: ⟨0, text⟩ :: plain later) :=
    (Opens.ignored unknown).readHeader_eq
  rw [read, read, read, named]
  split
  · next blank => rw [Header.readHeader_of_blanks blank, skip ne]
  · next nonblank =>
    rw [skip nonblank]
    rfl

/-- **A section that does not concern a chain has no influence**, unless its value is empty and it takes the
line behind it for its value. -/
theorem read_insert_iff {rest : List UInt8} {next : List Char} {r : (n : ℕ) × Chain Float n}
    (start : SectionStart front) (sign : (trim next).head? = some '@')
    (accepted : read (front ++ (lineBytes next ++ rest)) = .ok r) (unknown : Unknown name)
    (oneLine : '\n' ∉ next) (nameLine : '\n' ∉ name) (valueLine : '\n' ∉ value) :
    read (front ++ (lineBytes name ++ (lineBytes value ++ (lineBytes next ++ rest)))) = .ok r ↔
      ¬ Blanks value ∨ read (front ++ rest) = .ok r := by
  have texts (back : List UInt8) := lineTexts_append start.line start.readable back
  have ne : ¬ Blanks (asRead next) := by
    intro blank
    rw [blanks_asRead, blanks_iff] at blank
    rw [blank] at sign
    cases sign
  rw [read_eq_ok_iff, texts, lineTexts_line oneLine] at accepted
  rw [read_eq_ok_iff, read_eq_ok_iff, texts, texts, lineTexts_line nameLine, lineTexts_line valueLine,
    lineTexts_line oneLine, readLines_insert_ignored start.sections (unknown.of_trim (trim_asRead name)) ne]
  by_cases blank : Blanks value
  · simp [blanks_asRead.mpr blank, blank]
  · simp [mt blanks_asRead.mp blank, blank, accepted]

theorem sectionStart_type : SectionStart (lineBytes "@type: DTMC".toList) :=
  ⟨by decide +kernel, by decide +kernel,
    (by decide +kernel : lineTexts (lineBytes "@type: DTMC".toList) = ["@type: DTMC".toList]) ▸ sections_type⟩

theorem exists_read_single : ∃ r, read (lineBytes "@type: DTMC".toList ++
    (lineBytes "@nr_states".toList ++ single)) = .ok r := by
  have accepted : (read (lineBytes "@type: DTMC".toList ++
      (lineBytes "@nr_states".toList ++ single))).toOption.isSome = true := by
    decide +kernel
  obtain ⟨r, hr⟩ := Option.isSome_iff_exists.mp accepted
  exact ⟨r, eq_ok_of_toOption hr⟩

theorem unknown_parameters : Unknown "@parameters".toList :=
  ⟨by decide, by decide, by decide, by decide, by decide⟩

/-- Parameters that a section lists have no influence. -/
theorem read_insert_iff_parameters : ∃ r,
    read (lineBytes "@type: DTMC".toList ++ (lineBytes "@nr_states".toList ++ single)) = .ok r ∧
      read (lineBytes "@type: DTMC".toList ++ (lineBytes "@parameters".toList ++ (lineBytes "p q".toList ++
        (lineBytes "@nr_states".toList ++ single)))) = .ok r := by
  obtain ⟨r, accepted⟩ := exists_read_single
  exact ⟨r, accepted, (read_insert_iff sectionStart_type (by decide) accepted unknown_parameters (by decide)
    (by decide) (by decide)).mpr (.inl (by decide))⟩

/-- **A section that lists no parameters has an influence**: the number of states is taken for its value. -/
theorem not_read_insert_parameters : SectionStart (lineBytes "@type: DTMC".toList) ∧
    Unknown "@parameters".toList ∧ ∃ r,
      read (lineBytes "@type: DTMC".toList ++ (lineBytes "@nr_states".toList ++ single)) = .ok r ∧
        ¬ read (lineBytes "@type: DTMC".toList ++ (lineBytes "@parameters".toList ++ (lineBytes [] ++
          (lineBytes "@nr_states".toList ++ single)))) = .ok r := by
  obtain ⟨r, accepted⟩ := exists_read_single
  refine ⟨sectionStart_type, unknown_parameters, r, accepted, fun inserted => ?_⟩
  have refused : (read (lineBytes "@type: DTMC".toList ++ (lineBytes "@parameters".toList ++ (lineBytes [] ++
      (lineBytes "@nr_states".toList ++ single))))).toOption.isSome = false := by
    decide +kernel
  rw [inserted] at refused
  cases refused

end Drn

end HoleBlame
