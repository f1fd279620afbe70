import HoleBlame.Proofs.Accepted
import HoleBlame.Proofs.Building

/-!
# The sections of a header

Only errors tell the number of a line.  So a text is read as its lines are without their numbers, up to these
(`Drn.read_unnumbered`), and where lines are inserted or taken away, nothing has to be said about the numbers of
those behind them.

The lines in front of some place in a header are complete sections (`Drn.Sections`), or a section whose value
has not come yet stands last among them (`Drn.Awaits`), or the header is over there, be it refused or ended.
There is no other case (`Drn.standing`), since every line leads from one of them to one of them.  In the first
two cases the reader goes on behind these lines as if they were not there, but for what they have said
(`Drn.Sections.leads`, `Drn.Awaits.leads`).
-/

namespace HoleBlame

open Text

/-- The texts of the lines of a file. -/
def Text.lineTexts (bytes : List UInt8) : List (List Char) :=
  readable (pieces bytes)

/-! ## Numbers of lines -/

/-- The error without the number of its line. -/
def DrnError.unnumbered : DrnError → DrnError
  | .invalidLine _ line => .invalidLine 0 line
  | .stateOutOfBounds _ state size => .stateOutOfBounds 0 state size
  | error => error

namespace Drn

/-- Lines of which the numbers are not known. -/
def plain (texts : List (List Char)) : List Line :=
  texts.map (Line.mk 0)

theorem plain_cons (text : List Char) (texts : List (List Char)) :
    plain (text :: texts) = ⟨0, text⟩ :: plain texts := rfl

theorem plain_append (texts texts' : List (List Char)) :
    plain (texts ++ texts') = plain texts ++ plain texts' :=
  List.map_append

/-- Reads a chain when its header has been read. -/
def readRest (found : Header × Option (List Line)) : Except DrnError ((n : ℕ) × Chain Float n) :=
  let (header, body?) := found
  if !header.hasType then .error (.missingSection "@type")
  else
    match body?, header.size with
    | none, _ => .error (.missingSection "@model")
    | some _, none => .error (.missingSection "@nr_states")
    | some body, some size => do
      let b ← body.foldlM (readLine size header.model) ⟨Draft.ofSize size, none, none, false, 0⟩
      match b.initial with
      | none => .error .missingInitialState
      | some initial =>
        match b.draft.finish initial with
        | .ok chain => .ok chain
        | .error error => .error (.chain error)

/-- Reads a chain from lines. -/
def readLines (lines : List Line) : Except DrnError ((n : ℕ) × Chain Float n) :=
  readHeader ⟨false, none, none⟩ .section lines >>= readRest

theorem read_eq_readLines (bytes : List UInt8) : read bytes = readLines (lines bytes) := rfl

/-- A line without its number. -/
def unnumberedLine (line : Line) : Line :=
  { line with number := 0 }

theorem map_unnumberedLine (k : ℕ) (texts : List (List Char)) :
    (numberFrom k texts).map unnumberedLine = plain texts := by
  induction texts generalizing k with
  | nil => rfl
  | cons text rest ih => exact congrArg _ (ih (k + 1))

/-- What the header says does not depend on the numbers of its lines. -/
theorem readHeader_unnumbered (h : Header) (e : Expecting) (lines : List Line) :
    readHeader h e (lines.map unnumberedLine) =
      ((readHeader h e lines).map fun (h, rest?) => (h, rest?.map (List.map unnumberedLine))).mapError
        DrnError.unnumbered := by
  fun_induction readHeader h e lines
  case case1 | case2 | case3 | case4 => rfl
  all_goals
    rw [List.map_cons, readHeader]
    simp_all +zetaDelta [unnumberedLine, Except.mapError, Except.map, DrnError.unnumbered]

theorem readState_unnumbered (size k : ℕ) (text : List Char) :
    readState size 0 text = (readState size k text).mapError DrnError.unnumbered := by
  unfold readState
  cases Decimal.readNat text with
  | error error => rfl
  | ok state => by_cases lt : state < size <;> simp [lt, Except.mapError, DrnError.unnumbered]

theorem readNumber_unnumbered (text : List Char) :
    readNumber text = (readNumber text).mapError DrnError.unnumbered := by
  unfold readNumber
  cases Decimal.readFloat text <;> rfl

theorem readReward_unnumbered (reward : Option (List Char)) :
    readReward reward = (readReward reward).mapError DrnError.unnumbered := by
  cases reward with
  | none => rfl
  | some text =>
    unfold readReward
    dsimp only
    split
    · rfl
    · exact readNumber_unnumbered _

/-- Nor does what a line says. -/
theorem readLine_unnumbered (size : ℕ) (model : Option String) (b : Body) (line : Line) :
    readLine size model b (unnumberedLine line) =
      (readLine size model b line).mapError DrnError.unnumbered := by
  unfold readLine unnumberedLine
  dsimp only
  split
  · rfl
  · split
    · rfl
    · exact bind_eq_mapError (readState_unnumbered size _ _) fun state =>
        bind_eq_mapError (readReward_unnumbered _) fun value => rfl
    · split
      · rfl
      · split
        · rfl
        · exact bind_eq_mapError (readReward_unnumbered _) fun value => rfl
    · split
      · exact bind_eq_mapError (readState_unnumbered size _ _) fun next =>
          bind_eq_mapError (readNumber_unnumbered _) fun prob => rfl
      · rfl

theorem foldlM_unnumbered (size : ℕ) (model : Option String) (b : Body) (lines : List Line) :
    (lines.map unnumberedLine).foldlM (readLine size model) b =
      (lines.foldlM (readLine size model) b).mapError DrnError.unnumbered := by
  induction lines generalizing b with
  | nil => rfl
  | cons line rest ih =>
    rw [List.map_cons, List.foldlM_cons, List.foldlM_cons]
    exact bind_eq_mapError (readLine_unnumbered size model b line) ih

theorem readRest_unnumbered (h : Header) (rest? : Option (List Line)) :
    readRest (h, rest?.map (List.map unnumberedLine)) =
      (readRest (h, rest?)).mapError DrnError.unnumbered := by
  unfold readRest
  dsimp only
  cases h.hasType with
  | false => rfl
  | true =>
    cases rest? with
    | none => rfl
    | some rest =>
      cases h.size with
      | none => rfl
      | some size =>
        refine bind_eq_mapError (foldlM_unnumbered size h.model _ rest) fun b => ?_
        cases b.initial with
        | none => rfl
        | some initial => cases h : b.draft.finish initial <;> simp only [h] <;> rfl

/-- **Only errors tell the number of a line.** -/
theorem read_unnumbered (bytes : List UInt8) : (read bytes).mapError DrnError.unnumbered =
    readLines (plain (lineTexts bytes)) := by
  rw [read_eq_readLines, lines_eq, lineTexts, ← map_unnumberedLine 1]
  unfold readLines
  rw [readHeader_unnumbered]
  cases readHeader ⟨false, none, none⟩ .section (numberFrom 1 (readable (pieces bytes))) with
  | error error => rfl
  | ok found => exact (readRest_unnumbered found.1 found.2).symm

theorem read_eq_ok_iff {bytes : List UInt8} {r : (n : ℕ) × Chain Float n} :
    read bytes = .ok r ↔ readLines (plain (lineTexts bytes)) = .ok r := by
  rw [← read_unnumbered]
  cases read bytes <;> simp [Except.mapError]

/-! ## Sections -/

/-- A section that does not concern a chain: it starts as all do, but has none of the names that do. -/
structure Unknown (text : List Char) : Prop where
  sign : (trim text).head? = some '@'
  type : after? "@type:".toList (trim text) = none
  rewardModels : trim text ≠ "@reward_models".toList
  size : trim text ≠ "@nr_states".toList
  model : trim text ≠ "@model".toList

/-- The line starts a section whose value is still to come. -/
inductive Opens : Expecting → List Char → Prop
  | rewardModels {text} (named : trim text = "@reward_models".toList) : Opens .rewardModels text
  | size {text} (named : trim text = "@nr_states".toList) : Opens .size text
  | ignored {text} (unknown : Unknown text) : Opens .ignored text

/-- The line is a value of the section. -/
inductive Fits : Expecting → List Char → Prop
  | rewardModels {text name} (one : words text = [name]) : Fits .rewardModels text
  | size {text count} (reads : Decimal.readNat (trim text) = .ok count) : Fits .size text
  | ignored {text} (ne : ¬ Blanks text) : Fits .ignored text

/-- Lines of a header that are complete sections, with blank lines and comments between them, and with blank
lines between the name of a section and its value. -/
inductive Sections : List (List Char) → Prop
  | nil : Sections []
  | silent {text lines} (silent : Silent text) (rest : Sections lines) : Sections (text :: lines)
  | type {text name lines} (named : trim text = "@type:".toList ++ name)
      (chain : trim name = "DTMC".toList) (rest : Sections lines) : Sections (text :: lines)
  | valued {e name gaps value lines} (opens : Opens e name) (blanks : ∀ gap ∈ gaps, Blanks gap)
      (fits : Fits e value) (rest : Sections lines) : Sections (name :: (gaps ++ value :: lines))

/-- The last section has no value yet. -/
inductive Awaits (e : Expecting) : List (List Char) → Prop
  | mk {front name gaps} (sections : Sections front) (opens : Opens e name)
      (blanks : ∀ gap ∈ gaps, Blanks gap) : Awaits e (front ++ name :: gaps)

variable {h : Header} {e : Expecting} {k : ℕ} {text name value : List Char} {rest : List Line}
  {texts texts' gaps : List (List Char)}

theorem Sections.append (sections : Sections texts) (sections' : Sections texts') :
    Sections (texts ++ texts') := by
  induction sections with
  | nil => exact sections'
  | silent silent _ ih => exact .silent silent ih
  | type named chain _ ih => exact .type named chain ih
  | valued opens blanks fits _ ih =>
    rw [List.cons_append, List.append_assoc, List.cons_append]
    exact .valued opens blanks fits ih

/-- The value completes its section. -/
theorem Awaits.fits (awaits : Awaits e texts) (fits : Fits e value) : Sections (texts ++ [value]) := by
  cases awaits with
  | mk sections opens blanks =>
    rw [List.append_assoc, List.cons_append]
    exact sections.append (.valued opens blanks fits .nil)

theorem Awaits.blank (awaits : Awaits e texts) (blank : Blanks text) : Awaits e (texts ++ [text]) := by
  cases awaits with
  | mk sections opens blanks =>
    rw [List.append_assoc, List.cons_append]
    exact .mk sections opens (List.forall_mem_append.mpr ⟨blanks, List.forall_mem_singleton.mpr blank⟩)

/-! ### Lines -/

theorem isSilent_iff : isSilent (trim text) = true ↔ Silent text := by
  refine ⟨fun silent => ?_, isSilent_of_silent⟩
  obtain ⟨-, -, front, back, hf, hb, laid⟩ := trim_eq_iff.mp (Eq.refl (trim text))
  rcases (Bool.or_eq_true _ _).mp silent with empty | comment
  · rw [of_decide_eq_true empty, List.nil_append] at laid
    exact .inl (laid ▸ List.forall_mem_append.mpr ⟨hf, hb⟩)
  · obtain ⟨rest, after⟩ := Option.isSome_iff_exists.mp comment
    refine .inr ⟨front, rest ++ back, hf, ?_⟩
    rw [after?_eq_some.mp after] at laid
    exact laid

theorem blanks_iff : Blanks text ↔ trim text = [] := by
  refine ⟨trim_blanks, fun empty => ?_⟩
  obtain ⟨-, -, front, back, hf, hb, laid⟩ := trim_eq_iff.mp empty
  exact laid ▸ List.forall_mem_append.mpr ⟨hf, hb⟩

/-- A line without words is blank. -/
theorem blanks_of_words_eq_nil (none : words text = []) : Blanks text := by
  have general {current text : List Char} (none : wordsFrom current text = []) :
      current = [] ∧ Blanks text := by
    induction text generalizing current with
    | nil =>
      rw [wordsFrom_nil] at none
      exact ⟨by simpa using none, List.forall_mem_nil _⟩
    | cons c rest ih =>
      cases hc : isBlank c with
      | true =>
        rw [wordsFrom_blank hc] at none
        obtain ⟨first, later⟩ := List.append_eq_nil_iff.mp none
        exact ⟨by simpa using first, List.forall_mem_cons.mpr ⟨hc, (ih later).2⟩⟩
      | false =>
        have single : Solid [c] := by simpa [Solid] using hc
        have longer : wordsFrom (c :: current) rest = [] := (wordsFrom_append single current).symm.trans none
        exact absurd (ih longer).1 (List.cons_ne_nil c current)
  exact (general none).2

theorem Opens.silent (opens : Opens e text) : isSilent (trim text) = false := by
  cases opens with
  | rewardModels named => exact named ▸ (by decide)
  | size named => exact named ▸ (by decide)
  | ignored unknown =>
    obtain ⟨rest, split⟩ := List.head?_eq_some_iff.mp unknown.sign
    rw [split]
    exact isSilent_cons (by decide)

/-- The name of a section makes the reader expect its value. -/
theorem Opens.readHeader_eq (opens : Opens e text) :
    readHeader h .section (⟨k, text⟩ :: rest) = readHeader h e rest := by
  have silent := opens.silent
  rw [readHeader]
  cases opens with
  | rewardModels named =>
    simp only [named]
    rfl
  | size named =>
    simp only [named]
    rfl
  | ignored unknown =>
    simp only [silent, unknown.type, unknown.rewardModels, unknown.size, unknown.model, unknown.sign]
    rfl

theorem readHeader_of_model (named : trim text = "@model".toList) :
    readHeader h .section (⟨k, text⟩ :: rest) = .ok (h, some rest) := by
  rw [readHeader]
  simp only [named]
  rfl

/-- Behind a value that fits, the next section starts. -/
theorem Fits.exists_readHeader (fits : Fits e value) (h : Header) : ∃ h', ∀ k rest,
    readHeader h e (⟨k, value⟩ :: rest) = readHeader h' .section rest := by
  cases fits with
  | @rewardModels _ name one =>
    refine ⟨{ h with model := some (String.ofList name) }, fun k rest => ?_⟩
    rw [readHeader]
    simp only [one]
  | @size _ count reads =>
    have ne : trim value ≠ [] := by
      intro empty
      rw [empty] at reads
      cases reads
    refine ⟨{ h with size := some count }, fun k rest => ?_⟩
    rw [readHeader]
    simp only [if_neg ne, reads]
  | ignored ne =>
    refine ⟨h, fun k rest => ?_⟩
    rw [readHeader]
    exact if_neg fun empty => ne (blanks_iff.mpr empty)

/-- The reader stops at a value that does not fit, and says that it is there. -/
theorem Opens.exists_readHeader_of_not_fits (opens : Opens e name) (fits : ¬ Fits e value)
    (blank : ¬ Blanks value) (h : Header) : ∃ error, (∀ missing, error ≠ .missingSection missing) ∧
      ∀ k rest, readHeader h e (⟨k, value⟩ :: rest) = .error error := by
  cases opens with
  | rewardModels =>
    refine ⟨.multipleRewardModels (String.intercalate " " ((words value).map String.ofList)),
      by rintro _ ⟨⟩, fun k rest => ?_⟩
    rw [readHeader]
    dsimp only
    split
    · next none => exact absurd (blanks_of_words_eq_nil none) blank
    · next name one => exact absurd (.rewardModels one) fits
    · rfl
  | size =>
    have ne : trim value ≠ [] := fun empty => blank (blanks_iff.mpr empty)
    cases reads : Decimal.readNat (trim value) with
    | ok count => exact absurd (.size reads) fits
    | error error =>
      refine ⟨.natural error, by rintro _ ⟨⟩, fun k rest => ?_⟩
      rw [readHeader]
      simp only [if_neg ne, reads]
  | ignored => exact absurd (.ignored blank) fits

/-! ### Lines in a row -/

/-- Behind these lines the reader goes on with what it expects now, as if they were not there but for what
they have said. -/
def Leads (h : Header) (texts : List (List Char)) (h' : Header) (e : Expecting) : Prop :=
  ∀ rest, readHeader h .section (plain texts ++ rest) = readHeader h' e rest

theorem Leads.append {h' h'' : Header} (leads : Leads h texts h' .section) (leads' : Leads h' texts' h'' e) :
    Leads h (texts ++ texts') h'' e := by
  intro rest
  rw [plain_append, List.append_assoc]
  exact (leads _).trans (leads' rest)

theorem readHeader_gaps (blanks : ∀ gap ∈ gaps, Blanks gap) (rest : List Line) :
    readHeader h e (plain gaps ++ rest) = readHeader h e rest := by
  induction gaps with
  | nil => rfl
  | cons gap gaps ih =>
    obtain ⟨first, others⟩ := List.forall_mem_cons.mp blanks
    exact (Header.readHeader_of_blanks first).trans (ih others)

theorem Sections.leads (sections : Sections texts) (h : Header) : ∃ h', Leads h texts h' .section := by
  induction sections generalizing h with
  | nil => exact ⟨h, fun rest => rfl⟩
  | silent silent _ ih =>
    obtain ⟨h', leads⟩ := ih h
    exact ⟨h', fun rest => (Header.readHeader_of_silent silent).trans (leads rest)⟩
  | type named chain _ ih =>
    obtain ⟨h', leads⟩ := ih { h with hasType := true }
    exact ⟨h', fun rest => (Header.readHeader_of_type named chain).trans (leads rest)⟩
  | @valued e name gaps value lines opens blanks fits _ ih =>
    obtain ⟨between, next⟩ := fits.exists_readHeader h
    obtain ⟨h', leads⟩ := ih between
    refine ⟨h', fun rest => ?_⟩
    calc readHeader h .section (plain (name :: (gaps ++ value :: lines)) ++ rest)
      _ = readHeader h e (plain (gaps ++ value :: lines) ++ rest) := opens.readHeader_eq
      _ = readHeader h e (⟨0, value⟩ :: (plain lines ++ rest)) := by
        rw [plain_append, List.append_assoc]
        exact readHeader_gaps blanks _
      _ = readHeader between .section (plain lines ++ rest) := next 0 _
      _ = readHeader h' .section rest := leads rest

theorem Awaits.leads (awaits : Awaits e texts) (h : Header) : ∃ h', Leads h texts h' e := by
  cases awaits with
  | mk sections opens blanks =>
    obtain ⟨h', leads⟩ := sections.leads h
    exact ⟨h', leads.append fun rest => opens.readHeader_eq.trans (readHeader_gaps blanks rest)⟩

/-! ### What becomes of a header -/

/-- What the reader has made of some lines. -/
inductive Standing (h : Header) (texts : List (List Char)) : Prop
  /-- They are complete sections. -/
  | complete (sections : Sections texts)
  /-- The last section has no value yet. -/
  | awaits {e : Expecting} (awaits : Awaits e texts)
  /-- The header is refused. -/
  | refused (error : DrnError)
      (stops : ∀ rest, readHeader h .section (plain texts ++ rest) = .error error)
  /-- The header has ended. -/
  | ended (h' : Header) (body : List (List Char))
      (stops : ∀ rest, readHeader h .section (plain texts ++ rest) = .ok (h', some (plain body ++ rest)))

/-- A line where a section may start. -/
theorem Sections.standing_snoc (sections : Sections texts) (h : Header) (text : List Char) :
    Standing h (texts ++ [text]) := by
  obtain ⟨h', leads⟩ := sections.leads h
  have line (rest : List Line) : readHeader h .section (plain (texts ++ [text]) ++ rest) =
      readHeader h' .section (⟨0, text⟩ :: rest) := by
    rw [plain_append, List.append_assoc]
    exact leads _
  have opened {e : Expecting} (opens : Opens e text) : Standing h (texts ++ [text]) :=
    .awaits (.mk sections opens (List.forall_mem_nil _))
  by_cases silent : Silent text
  · exact .complete (sections.append (.silent silent .nil))
  cases typed : after? "@type:".toList (trim text) with
  | some name =>
    by_cases chain : trim name = "DTMC".toList
    · exact .complete (sections.append (.type (after?_eq_some.mp typed) chain .nil))
    · refine .refused (.unsupportedType (String.ofList (trim name))) fun rest => (line rest).trans ?_
      rw [readHeader]
      simp only [mt isSilent_iff.mp silent, typed, if_neg chain]
      rfl
  | none =>
    by_cases rewardModels : trim text = "@reward_models".toList
    · exact opened (.rewardModels rewardModels)
    by_cases size : trim text = "@nr_states".toList
    · exact opened (.size size)
    by_cases model : trim text = "@model".toList
    · exact .ended h' [] fun rest => (line rest).trans (readHeader_of_model model)
    by_cases sign : (trim text).head? = some '@'
    · exact opened (.ignored ⟨sign, typed, rewardModels, size, model⟩)
    refine .refused (.invalidLine 0 (String.ofList (trim text))) fun rest => (line rest).trans ?_
    rw [readHeader]
    simp only [mt isSilent_iff.mp silent, typed, if_neg rewardModels, if_neg size, if_neg model, if_neg sign]
    rfl

/-- A line where a value may stand. -/
theorem Awaits.standing_snoc (awaits : Awaits e texts) (h : Header) (text : List Char) :
    Standing h (texts ++ [text]) := by
  by_cases blank : Blanks text
  · exact .awaits (awaits.blank blank)
  by_cases fits : Fits e text
  · exact .complete (awaits.fits fits)
  obtain ⟨h', leads⟩ := awaits.leads h
  cases awaits with
  | mk _ opens _ =>
    obtain ⟨error, -, stops⟩ := opens.exists_readHeader_of_not_fits fits blank h'
    refine .refused error fun rest => ?_
    rw [plain_append, List.append_assoc]
    exact (leads _).trans (stops 0 rest)

/-- **There are no other lines** than complete sections, those with a section whose value is still to come,
and those behind which there is no header any more. -/
theorem standing (h : Header) (texts : List (List Char)) : Standing h texts := by
  -- From the end, since what a line is depends on the lines in front of it.
  induction texts using List.reverseRecOn with
  | nil => exact .complete .nil
  | append_singleton texts text ih =>
    have split (rest : List Line) : plain (texts ++ [text]) ++ rest = plain texts ++ ⟨0, text⟩ :: rest := by
      rw [plain_append, List.append_assoc]
      rfl
    cases ih with
    | complete sections => exact sections.standing_snoc h text
    | awaits awaits => exact awaits.standing_snoc h text
    | refused error stops => exact .refused error fun rest => split rest ▸ stops _
    | ended h' body stops =>
      refine .ended h' (body ++ [text]) fun rest => ?_
      rw [split, stops, plain_append, List.append_assoc]
      rfl

end Drn

end HoleBlame
