import HoleBlame.Notes.Line
import HoleBlame.Proofs.Documents

/-!
# The grammar of notes

Notes are entries on lines of their own, with blanks around them and perhaps a comment behind them
(`Notes.Entry`).  Behind the number of holes, there are entries of three kinds (`Notes.Note`), each with its own
form (`Notes.Note.Form`).

The reader takes a line of each kind for what it is: `Notes.noteLine?_header`, `Notes.noteLine?_eq_holes`,
`Notes.noteLine?_bound` and `Notes.noteLine?_target`.  A line that it takes for a line of holes has their form
(`Notes.isLine_holes_iff`).
-/

namespace HoleBlame

namespace Text

/-! ## Words with blanks between them -/

/-- Words with blanks between them, and perhaps around them. -/
inductive Spread : List (List Char) → List Char → Prop
  | nil {gap} (blanks : Blanks gap) : Spread [] gap
  | cons {gap word words rest} (blanks : Blanks gap) (ne : word ≠ []) (solid : Solid word)
      (apart : Apart rest) (others : Spread words rest) : Spread (word :: words) (gap ++ (word ++ rest))

variable {text gap : List Char} {list : List (List Char)}

theorem Spread.words_eq (spread : Spread list text) : words text = list := by
  unfold words
  induction spread with
  | nil blanks =>
    have none : wordsFrom [] (_ ++ []) = wordsFrom [] [] := Drn.wordsFrom_append_blanks blanks
    rwa [List.append_nil] at none
  | cons blanks ne solid apart others ih =>
    rw [Drn.wordsFrom_append_blanks blanks, wordsFrom_append solid, List.append_nil,
      Drn.wordsFrom_of_apart apart (by simpa using ne), List.reverse_reverse, ih]

theorem Spread.blanks (spread : Spread list text) (blanks : Blanks gap) : Spread list (gap ++ text) := by
  cases spread with
  | nil blanks' => exact .nil (List.forall_mem_append.mpr ⟨blanks, blanks'⟩)
  | cons blanks' ne solid apart others =>
    rw [← List.append_assoc]
    exact .cons (List.forall_mem_append.mpr ⟨blanks, blanks'⟩) ne solid apart others

theorem spread_words (text : List Char) : Spread (words text) text := by
  have general (current : List Char) (solid : Solid current) :
      Spread (wordsFrom current text) (current.reverse ++ text) := by
    have turned {current : List Char} (solid : Solid current) : Solid current.reverse :=
      fun c hc => solid c (List.mem_reverse.mp hc)
    induction text generalizing current with
    | nil =>
      rw [wordsFrom_nil]
      split
      · next empty =>
        subst empty
        exact .nil blanks_nil
      · next ne =>
        exact .cons blanks_nil (by simpa using ne) (turned solid) (by rintro _ ⟨⟩) (.nil blanks_nil)
    | cons c rest ih =>
      cases hc : isBlank c with
      | true =>
        have later : Spread (wordsFrom [] rest) (c :: rest) :=
          (ih [] (List.forall_mem_nil _)).blanks (List.forall_mem_singleton.mpr hc)
        rw [wordsFrom_blank hc]
        split
        · next empty =>
          subst empty
          exact later
        · next ne =>
          have apart : Apart (c :: rest) := by
            rintro _ ⟨⟩
            exact hc
          exact .cons blanks_nil (by simpa using ne) (turned solid) apart later
      | false =>
        have single : Solid [c] := List.forall_mem_singleton.mpr hc
        have step : wordsFrom current (c :: rest) = wordsFrom (c :: current) rest :=
          wordsFrom_append single current
        have longer := ih (c :: current) (List.forall_mem_cons.mpr ⟨hc, solid⟩)
        rwa [List.reverse_cons, List.append_assoc, List.singleton_append, ← step] at longer
  exact general [] (List.forall_mem_nil _)

/-- **The words of a text are those that it consists of.** -/
theorem words_eq_iff : words text = list ↔ Spread list text := by
  constructor
  · rintro rfl
    exact spread_words text
  · exact Spread.words_eq

end Text

namespace Notes

open Text
open Drn (Framed Numeral)

variable {n : ℕ}

/-! ## The grammar -/

/-- A comment, or nothing. -/
inductive Comment : List Char → Prop
  | nothing : Comment []
  | sharp (rest : List Char) : Comment ('#' :: rest)

/-- A text on a line of its own, with blanks around it and perhaps a comment behind it. -/
def Entry (core text : List Char) : Prop :=
  ∃ front comment, Framed core front ∧ Comment comment ∧ text = front ++ comment

/-- A blank line, or a comment. -/
def Silent (text : List Char) : Prop :=
  Entry [] text

/-- What a line says of a state. -/
inductive Note (n : ℕ) where
  /-- It depends on these holes. -/
  | holes (state : Fin n) (holes : List ℕ)
  /-- Its value has this bound. -/
  | bound (state : Fin n) (value : Float)
  /-- It is a target. -/
  | target (state : Fin n)

/-- The number of holes: `holes <number>` -/
inductive HeaderForm (h : ℕ) : List Char → Prop
  | mk {gap number} (blanks : Blanks gap) (ne : gap ≠ []) (numeral : Numeral h number) :
      HeaderForm h ("holes".toList ++ (gap ++ number))

/-- The form of an entry: `<state> : <hole> <hole> ...`, or `bound <state> <value>`, or `target <state>` -/
inductive Note.Form : Note n → List Char → Prop
  | holes {s holes number gap words rest} (numeral : Numeral s.val number) (blanks : Blanks gap)
      (spread : Spread words rest) (numerals : List.Forall₂ Numeral holes words) :
      Form (.holes s holes) (number ++ (gap ++ ':' :: rest))
  | bound {s value gap number gap' literal} (blanks : Blanks gap) (ne : gap ≠ [])
      (numeral : Numeral s.val number) (blanks' : Blanks gap') (ne' : gap' ≠ [])
      (reads : Decimal.readFloat literal = .ok value) (defined : value.isNaN = false) :
      Form (.bound s value) ("bound".toList ++ (gap ++ (number ++ (gap' ++ literal))))
  | target {s gap number} (blanks : Blanks gap) (ne : gap ≠ []) (numeral : Numeral s.val number) :
      Form (.target s) ("target".toList ++ (gap ++ number))

/-- The line has the number of holes on it. -/
def HeaderLine (h : ℕ) (text : List Char) : Prop :=
  ∃ core, HeaderForm h core ∧ Entry core text

/-- The line has the entry on it. -/
def Note.IsLine (note : Note n) (text : List Char) : Prop :=
  ∃ core, note.Form core ∧ Entry core text

/-- Notes on lines of their own, among which blank lines and comments may stand. -/
inductive Noted : List (Note n) → List (List Char) → Prop
  | nil : Noted [] []
  | note {note text notes texts} (line : note.IsLine text) (rest : Noted notes texts) :
      Noted (note :: notes) (text :: texts)
  | silent {text notes texts} (silent : Silent text) (rest : Noted notes texts) : Noted notes (text :: texts)

/-- The number of holes stands in front of the notes. -/
structure Written (h : ℕ) (notes : List (Note n)) (texts : List (List Char)) : Prop where
  lines : ∃ front header body, (∀ text ∈ front, Silent text) ∧ HeaderLine h header ∧ Noted notes body ∧
    texts = front ++ header :: body

/-! ## How entries are recognised -/

variable {s : Fin n} {core text number gap : List Char}

/-- A text may stand on a line without blanks and comments. -/
theorem entry_self (core : List Char) : Entry core core :=
  ⟨core, [], ⟨[], [], blanks_nil, blanks_nil, (List.append_nil _).symm⟩, .nothing, (List.append_nil _).symm⟩

theorem sharp_not_mem_of_blanks (blanks : Blanks gap) : '#' ∉ gap := by
  intro mem
  have blank := blanks '#' mem
  exact absurd blank (by decide)

/-- The content of a line is the entry on it. -/
theorem content_entry (entry : Entry core text) (clean : '#' ∉ core) : content text = trim core := by
  obtain ⟨_, comment, ⟨indent, tail, hi, ht, rfl⟩, ended, rfl⟩ := entry
  have front : ∀ c ∈ indent ++ core ++ tail, (c != '#') = true := by
    intro c hc
    refine bne_iff_ne.mpr ?_
    rintro rfl
    rcases List.mem_append.mp hc with hc | hc
    · exact (List.mem_append.mp hc).elim (sharp_not_mem_of_blanks hi) clean
    · exact sharp_not_mem_of_blanks ht hc
  have stop : comment.head?.all fun c => !(c != '#') := by
    cases ended <;> rfl
  rw [content, (takeWhile_append_of_head front stop).1, trim_eq, trim_eq, dropBlankEnd_append ht,
    skipBlanks_dropBlankEnd, skipBlanks_append hi, skipBlanks_dropBlankEnd]

theorem content_silent (silent : Silent text) : content text = [] :=
  content_entry silent List.not_mem_nil

/-- Every line is an entry, of its content. -/
theorem entry_content (text : List Char) : Entry (content text) text ∧ '#' ∉ content text := by
  obtain ⟨-, -, front, back, hf, hb, split⟩ := trim_eq_iff.mp (Eq.refl (content text))
  have clean : '#' ∉ text.takeWhile (· != '#') := fun mem => by simpa using List.mem_takeWhile_imp mem
  refine ⟨⟨_, text.dropWhile (· != '#'), ⟨front, back, hf, hb, split.trans ?_⟩, ?_, ?_⟩, fun mem => clean ?_⟩
  · rw [List.append_assoc]
  · have stop := List.head?_dropWhile_not (· != '#') text
    cases ended : text.dropWhile (· != '#') with
    | nil => exact .nothing
    | cons c rest =>
      rw [ended] at stop
      obtain rfl : c = '#' := by simpa using stop
      exact .sharp rest
  · exact List.takeWhile_append_dropWhile.symm
  · rw [split]
    exact List.mem_append_right _ (List.mem_append_left _ mem)

/-! ### Numbers -/

theorem readDigits_isDigit {m k : ℕ} (reads : Decimal.readDigits m number = .ok k) :
    ∀ c ∈ number, c.isDigit = true := by
  induction number generalizing m with
  | nil => exact List.forall_mem_nil _
  | cons c rest ih =>
    rw [Decimal.readDigits, Decimal.digit?] at reads
    by_cases digit : c.isDigit = true
    · rw [if_pos digit] at reads
      dsimp only at reads
      split at reads
      · exact List.forall_mem_cons.mpr ⟨digit, ih reads⟩
      · cases reads
    · rw [if_neg digit] at reads
      cases reads

/-- Of digits of all scripts, those of ASCII alone make a number. -/
theorem numeral_of_readNat {k : ℕ} (digits : ∀ c ∈ number, isDecimalDigit c = true)
    (reads : Decimal.readNat number = .ok k) : Numeral k number := by
  refine ⟨?_, reads⟩
  unfold Decimal.readNat at reads
  split at reads
  · cases reads
  · exact absurd (digits '+' List.mem_cons_self) (by decide)
  · exact readDigits_isDigit reads

theorem lastNumber?_eq {k : ℕ} (numeral : Numeral k number) : lastNumber? number = some number := by
  have found : number? (number ++ []) = some (number, []) := numeral.number?_append rfl
  rw [List.append_nil] at found
  rw [lastNumber?, found]
  rfl

/-! ### Keywords -/

theorem keyword?_append {word : List Char} (blanks : Blanks gap) (ne : gap ≠ [])
    (head : text.head?.all fun c => !isBlank c) : keyword? word (word ++ (gap ++ text)) = some text := by
  rw [keyword?, after?_append, Option.bind_some, afterBlanks?_append blanks ne, skipBlanks_eq head]

theorem keyword?_cons_of_ne {c d : Char} {word : List Char} (ne : c ≠ d) :
    keyword? (c :: word) (d :: text) = none := by
  rw [keyword?, after?_cons_of_ne ne]
  rfl

theorem head_numeral {k : ℕ} (numeral : Numeral k number) (rest : List Char) :
    (number ++ rest).head?.all fun c => !isBlank c := by
  obtain ⟨c, digits, rfl, digit⟩ := numeral.exists_cons
  exact all_head?_cons (Drn.isBlank_of_isDigit digit) _

theorem sharp_not_mem_of_numeral {k : ℕ} (numeral : Numeral k number) : '#' ∉ number :=
  fun mem => absurd (numeral.digits '#' mem) (by decide)

/-- An entry that ends in a word and starts with one is not changed. -/
theorem trim_eq_self {word : List Char} (head : core.head?.all fun c => !isBlank c)
    (split : core = text ++ word) (solid : Solid word) (ne : word ≠ []) : trim core = core :=
  trim_eq_iff.mpr ⟨head, split ▸ (firm_of_solid solid).behind ne, [], [], blanks_nil, blanks_nil, by simp⟩

/-! ### The header -/

/-- **The number of holes is recognised.** -/
theorem noteLine?_header {h : ℕ} (line : HeaderLine h text) :
    ∃ number, noteLine? (content text) = some (.header number) ∧ Decimal.readNat number = .ok h := by
  obtain ⟨_, ⟨@⟨gap, number, blanks, ne, numeral⟩, entry⟩⟩ := line
  have clean : '#' ∉ "holes".toList ++ (gap ++ number) := by
    simp [sharp_not_mem_of_blanks blanks, sharp_not_mem_of_numeral numeral]
  have trimmed : trim ("holes".toList ++ (gap ++ number)) = "holes".toList ++ (gap ++ number) :=
    trim_eq_self (all_head?_cons (by decide) _) (List.append_assoc _ _ _).symm numeral.solid numeral.ne_nil
  have head := head_numeral numeral []
  rw [List.append_nil] at head
  have key : keyword? "holes".toList ("holes".toList ++ (gap ++ number)) = some number :=
    keyword?_append blanks ne head
  have header : header? ("holes".toList ++ (gap ++ number)) = some (.header number) := by
    rw [header?, key, Option.bind_eq_bind, Option.bind_some, lastNumber?_eq numeral]
    rfl
  rw [content_entry entry clean, trimmed]
  refine ⟨number, ?_, numeral.reads⟩
  rw [noteLine?, header]
  rfl

/-! ### Holes -/

/-- Text that is spread out consists of blanks and of the words. -/
theorem mem_of_spread {list : List (List Char)} {c : Char} (spread : Spread list text) (hc : c ∈ text) :
    isBlank c = true ∨ ∃ word ∈ list, c ∈ word := by
  induction spread with
  | nil blanks => exact .inl (blanks c hc)
  | @cons gap word list rest blanks ne solid apart others ih =>
    rcases List.mem_append.mp hc with hc | hc
    · exact .inl (blanks c hc)
    · rcases List.mem_append.mp hc with hc | hc
      · exact .inr ⟨word, List.mem_cons_self, hc⟩
      · exact (ih hc).imp_right fun ⟨later, hl, mem⟩ => ⟨later, List.mem_cons_of_mem _ hl, mem⟩

theorem mem_of_mem_spread {list : List (List Char)} {word : List Char} {c : Char} (spread : Spread list text)
    (hw : word ∈ list) (hc : c ∈ word) : c ∈ text := by
  induction spread with
  | nil => cases hw
  | cons blanks ne solid apart others ih =>
    rcases List.mem_cons.mp hw with rfl | later
    · exact List.mem_append_right _ (List.mem_append_left _ hc)
    · exact List.mem_append_right _ (List.mem_append_right _ (ih later))

/-- A line is recognised as one of holes iff it consists of a number, a colon, and words of digits. -/
theorem holesLine?_eq_some {number : List Char} {list : List (List Char)} :
    holesLine? core = some (.holes number list) ↔ number ≠ [] ∧ (∀ c ∈ number, isDecimalDigit c = true) ∧
      (∀ word ∈ list, ∀ c ∈ word, isDecimalDigit c = true) ∧
        ∃ gap rest, Blanks gap ∧ Spread list rest ∧ core = number ++ (gap ++ ':' :: rest) := by
  constructor
  · intro found
    rw [holesLine?, number?] at found
    dsimp only at found
    split at found
    · cases found
    · next ne =>
      simp only [Option.bind_eq_bind, Option.bind_some] at found
      split at found
      · next rest colon =>
        split at found
        · next all =>
          obtain ⟨rfl, rfl⟩ := NoteLine.holes.inj (Option.some.inj found)
          obtain ⟨-, gap, blanks, split⟩ := skipBlanks_eq_iff.mp colon
          refine ⟨ne, fun c hc => List.mem_takeWhile_imp hc, fun word hw c hc => ?_,
            gap, rest, blanks, spread_words rest, ?_⟩
          · have kind := List.all_eq_true.mp all c (mem_of_mem_spread (spread_words rest) hw hc)
            simpa [(mem_words hw).2 c hc] using kind
          · rw [← split]
            exact List.takeWhile_append_dropWhile.symm
        · cases found
      · cases found
  · rintro ⟨ne, digits, words, gap, rest, blanks, spread, rfl⟩
    have stop : (gap ++ ':' :: rest).head?.all fun c => !isDecimalDigit c := by
      cases gap with
      | nil => rfl
      | cons d gap => simpa using isDecimalDigit_of_isBlank (blanks d List.mem_cons_self)
    obtain ⟨front, back⟩ := takeWhile_append_of_head digits stop
    have colon : skipBlanks (gap ++ ':' :: rest) = ':' :: rest := by
      rw [skipBlanks_append blanks, skipBlanks_cons (by decide)]
    have all : (rest.all fun c => isDecimalDigit c || isBlank c) = true := by
      refine List.all_eq_true.mpr fun c hc => ?_
      rcases mem_of_spread spread hc with blank | ⟨word, hw, mem⟩
      · simp [blank]
      · simp [words word hw c mem]
    rw [holesLine?, number?, front, back, if_neg ne]
    simp only [Option.bind_eq_bind, Option.bind_some, colon, all, if_true, spread.words_eq]

theorem header?_eq_some {line : NoteLine} (found : header? core = some line) :
    ∃ number, line = .header number := by
  simp only [header?, Option.bind_eq_bind, Option.bind_eq_some_iff, Option.some.injEq] at found
  obtain ⟨-, -, number, -, rfl⟩ := found
  exact ⟨number, rfl⟩

theorem boundLine?_eq_some {line : NoteLine} (found : boundLine? core = some line) :
    ∃ number literal, line = .bound number literal := by
  simp only [boundLine?, Option.bind_eq_bind, Option.bind_eq_some_iff] at found
  obtain ⟨_, -, ⟨number, _⟩, -, _, -, ⟨literal, rest⟩, -, same⟩ := found
  dsimp only at same
  split at same
  · exact ⟨number, literal, (Option.some.inj same).symm⟩
  · cases same

theorem targetLine?_eq_some {line : NoteLine} (found : targetLine? core = some line) :
    ∃ number, line = .target number := by
  simp only [targetLine?, Option.bind_eq_bind, Option.bind_eq_some_iff, Option.some.injEq] at found
  obtain ⟨-, -, number, -, rfl⟩ := found
  exact ⟨number, rfl⟩

theorem noteLine?_eq_holes {list : List (List Char)} : noteLine? core = some (.holes number list) ↔
    holesLine? core = some (.holes number list) := by
  constructor
  · intro found
    rw [noteLine?] at found
    cases header : header? core with
    | some line =>
      obtain ⟨_, rfl⟩ := header?_eq_some header
      rw [header] at found
      cases found
    | none =>
      cases holes : holesLine? core with
      | some line =>
        rw [header, holes] at found
        exact found
      | none =>
        rw [header, holes] at found
        cases bound : boundLine? core with
        | some line =>
          obtain ⟨_, _, rfl⟩ := boundLine?_eq_some bound
          rw [bound] at found
          cases found
        | none =>
          rw [bound] at found
          obtain ⟨_, same⟩ := targetLine?_eq_some (show targetLine? core = _ from found)
          cases same
  · intro found
    have none : header? core = none := by
      obtain ⟨ne, digits, -, gap, rest, -, -, rfl⟩ := holesLine?_eq_some.mp found
      obtain ⟨c, more, rfl⟩ := List.exists_cons_of_ne_nil ne
      have other : 'h' ≠ c := by
        rintro rfl
        exact absurd (digits 'h' List.mem_cons_self) (by decide)
      have key : keyword? "holes".toList (c :: more ++ (gap ++ ':' :: rest)) = Option.none :=
        keyword?_cons_of_ne other
      rw [header?, key]
      rfl
    rw [noteLine?, none, found]
    rfl

theorem forall_numeral {holes : List ℕ} {list : List (List Char)}
    (digits : ∀ word ∈ list, ∀ c ∈ word, isDecimalDigit c = true)
    (reads : List.Forall₂ (fun x word => Decimal.readNat word = .ok x) holes list) :
    List.Forall₂ Numeral holes list := by
  induction reads with
  | nil => exact .nil
  | cons first _ ih =>
    obtain ⟨own, others⟩ := List.forall_mem_cons.mp digits
    exact .cons (numeral_of_readNat own first) (ih others)

theorem isDigit_of_forall_numeral {holes : List ℕ} {list : List (List Char)}
    (numerals : List.Forall₂ Numeral holes list) : ∀ word ∈ list, ∀ c ∈ word, c.isDigit = true := by
  induction numerals with
  | nil => exact List.forall_mem_nil _
  | cons first _ ih => exact List.forall_mem_cons.mpr ⟨first.digits, ih⟩

/-- **A line is taken for one of holes iff it has their form.** -/
theorem isLine_holes_iff {s : Fin n} {holes : List ℕ} : (Note.holes s holes).IsLine text ↔
    ∃ number list, noteLine? (content text) = some (.holes number list) ∧
      Decimal.readNat number = .ok s.val ∧
        List.Forall₂ (fun x word => Decimal.readNat word = .ok x) holes list := by
  constructor
  · rintro ⟨_, @⟨_, _, number, gap, list, rest, numeral, blanks, spread, numerals⟩, entry⟩
    have digits := isDigit_of_forall_numeral numerals
    have clean : '#' ∉ number ++ (gap ++ ':' :: rest) := by
      have behind : '#' ∉ rest := by
        intro mem
        rcases mem_of_spread spread mem with blank | ⟨word, hw, hc⟩
        · exact absurd blank (by decide)
        · exact absurd (digits word hw '#' hc) (by decide)
      simp [sharp_not_mem_of_blanks blanks, sharp_not_mem_of_numeral numeral, behind]
    have trimmed : trim (number ++ (gap ++ ':' :: rest)) = number ++ (gap ++ ':' :: dropBlankEnd rest) := by
      rw [trim_eq, ← List.append_assoc, dropBlankEnd_append_cons (by decide), List.append_assoc,
        numeral.skipBlanks_append]
    have short : Spread list (dropBlankEnd rest) := by
      rw [← words_eq_iff, words_dropBlankEnd]
      exact spread.words_eq
    refine ⟨number, list, ?_, numeral.reads, numerals.imp fun _ _ h => h.reads⟩
    rw [content_entry entry clean, trimmed, noteLine?_eq_holes, holesLine?_eq_some]
    exact ⟨numeral.ne_nil, fun c hc => Drn.isDecimalDigit_of_isDigit (numeral.digits c hc),
      fun word hw c hc => Drn.isDecimalDigit_of_isDigit (digits word hw c hc), gap, _, blanks, short, rfl⟩
  · rintro ⟨number, list, found, state, numerals⟩
    obtain ⟨-, digits, words, gap, rest, blanks, spread, split⟩ :=
      holesLine?_eq_some.mp (noteLine?_eq_holes.mp found)
    obtain ⟨entry, -⟩ := entry_content text
    refine ⟨content text, ?_, entry⟩
    rw [split]
    exact .holes (numeral_of_readNat digits state) blanks spread (forall_numeral words numerals)

/-! ### Bounds and targets -/

theorem holesLine?_of_head {c : Char} (other : isDecimalDigit c = false) :
    holesLine? (c :: text) = none := by
  rw [holesLine?, number?, List.takeWhile_cons_of_neg (by simp [other])]
  rfl

/-- **The line of a bound is recognised.** -/
theorem noteLine?_bound {s : Fin n} {value : Float} (line : (Note.bound s value).IsLine text) :
    ∃ number literal, noteLine? (content text) = some (.bound number literal) ∧
      Decimal.readNat number = .ok s.val ∧ Decimal.readFloat literal = .ok value ∧
        value.isNaN = false := by
  obtain ⟨_, form, entry⟩ := line
  obtain _ | @⟨_, _, gap, number, gap', literal, blanks, ne, numeral, blanks', ne', reads, defined⟩ := form
  have solid := Decimal.solid_of_readFloat reads
  have clean : '#' ∉ "bound".toList ++ (gap ++ (number ++ (gap' ++ literal))) := by
    simp [sharp_not_mem_of_blanks blanks, sharp_not_mem_of_blanks blanks',
      sharp_not_mem_of_numeral numeral, Decimal.not_mem_of_readFloat (c := '#') reads (by decide)]
  have ended : "bound".toList ++ (gap ++ (number ++ (gap' ++ literal))) =
      ("bound".toList ++ (gap ++ (number ++ gap'))) ++ literal := by simp
  have trimmed : trim ("bound".toList ++ (gap ++ (number ++ (gap' ++ literal)))) =
      "bound".toList ++ (gap ++ (number ++ (gap' ++ literal))) :=
    trim_eq_self (all_head?_cons (by decide) _) ended solid (Decimal.ne_nil_of_readFloat reads)
  have key : keyword? "bound".toList ("bound".toList ++ (gap ++ (number ++ (gap' ++ literal)))) =
      some (number ++ (gap' ++ literal)) := keyword?_append blanks ne (head_numeral numeral _)
  have found : number? (number ++ (gap' ++ literal)) = some (number, gap' ++ literal) := by
    refine numeral.number?_append ?_
    obtain ⟨d, others, rfl⟩ := List.exists_cons_of_ne_nil ne'
    simpa using isDecimalDigit_of_isBlank (blanks' d List.mem_cons_self)
  have bound : boundLine? ("bound".toList ++ (gap ++ (number ++ (gap' ++ literal)))) =
      some (.bound number literal) := by
    rw [boundLine?, key]
    simp only [Option.bind_eq_bind, Option.bind_some, found]
    rw [afterBlanks?_append blanks' ne', skipBlanks_of_solid solid]
    simp only [Option.bind_some, Drn.word?_of_solid solid (Decimal.ne_nil_of_readFloat reads), if_true]
  have header : header? ("bound".toList ++ (gap ++ (number ++ (gap' ++ literal)))) = none := rfl
  have holes : holesLine? ("bound".toList ++ (gap ++ (number ++ (gap' ++ literal)))) = none :=
    holesLine?_of_head (by decide)
  refine ⟨number, literal, ?_, numeral.reads, reads, defined⟩
  rw [content_entry entry clean, trimmed, noteLine?, header, holes, bound]
  rfl

/-- **The line of a target is recognised.** -/
theorem noteLine?_target {s : Fin n} (line : (Note.target s).IsLine text) :
    ∃ number, noteLine? (content text) = some (.target number) ∧ Decimal.readNat number = .ok s.val := by
  obtain ⟨_, form, entry⟩ := line
  obtain _ | _ | @⟨_, gap, number, blanks, ne, numeral⟩ := form
  have clean : '#' ∉ "target".toList ++ (gap ++ number) := by
    simp [sharp_not_mem_of_blanks blanks, sharp_not_mem_of_numeral numeral]
  have trimmed : trim ("target".toList ++ (gap ++ number)) = "target".toList ++ (gap ++ number) :=
    trim_eq_self (all_head?_cons (by decide) _) (List.append_assoc _ _ _).symm numeral.solid numeral.ne_nil
  have head := head_numeral numeral []
  rw [List.append_nil] at head
  have key : keyword? "target".toList ("target".toList ++ (gap ++ number)) = some number :=
    keyword?_append blanks ne head
  have target : targetLine? ("target".toList ++ (gap ++ number)) = some (.target number) := by
    rw [targetLine?, key, Option.bind_eq_bind, Option.bind_some, lastNumber?_eq numeral]
    rfl
  have header : header? ("target".toList ++ (gap ++ number)) = none := rfl
  have holes : holesLine? ("target".toList ++ (gap ++ number)) = none := holesLine?_of_head (by decide)
  have bound : boundLine? ("target".toList ++ (gap ++ number)) = none := rfl
  refine ⟨number, ?_, numeral.reads⟩
  rw [content_entry entry clean, trimmed, noteLine?, header, holes, bound, target]
  rfl

end Notes

end HoleBlame
