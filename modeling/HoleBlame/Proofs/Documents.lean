import HoleBlame.Proofs.Literals
import HoleBlame.Proofs.RoundTrip

/-!
# Documents

A document says block by block which state has which rewards, labels and transitions (`Drn.Document`), and
many texts in the DRN format say the same.  Lines may be indented, blank lines and comments may stand between
them, rewards may be left out or be followed by others, labels may be quoted, and the sections of the header and
the blocks may come in any order.

This module is the grammar of these texts, from the parts of a line up to the whole (`Drn.Document.Written`),
and it recognises the lines of a body for what they are: `Drn.StateLine.bodyLine?_eq`,
`Drn.ActionLine.bodyLine?_eq` and `Drn.EdgeLine.bodyLine?_eq`.
-/

namespace HoleBlame

/-! ## Blanks at the ends of a text -/

namespace Text

variable {text gap indent tail front back rest core : List Char} {c : Char}

/-- There is nothing but blanks. -/
def Blanks (text : List Char) : Prop :=
  ∀ c ∈ text, isBlank c = true

instance (text : List Char) : Decidable (Blanks text) :=
  List.decidableBAll (isBlank · = true) text

theorem blanks_nil : Blanks [] :=
  List.forall_mem_nil _

/-- There is no blank at the end. -/
def Firm (text : List Char) : Prop :=
  ∀ c, text.getLast? = some c → isBlank c = false

theorem Firm.append (h : Firm front) (h' : Firm back) : Firm (front ++ back) := by
  intro c hc
  rw [List.getLast?_append] at hc
  cases last : back.getLast? with
  | none => rw [last] at hc; exact h c hc
  | some d => rw [last] at hc; cases hc; exact h' c last

theorem Firm.behind (h : Firm text) (ne : text ≠ []) : Firm (front ++ text) := by
  intro c hc
  rw [List.getLast?_append_of_ne_nil _ ne] at hc
  exact h c hc

theorem firm_of_solid (h : Solid text) : Firm text :=
  fun c hc => h c (List.mem_of_getLast? hc)

theorem firm_nil : Firm [] :=
  firm_of_solid fun _ hc => absurd hc List.not_mem_nil

/-- A blank sets the text off from what precedes it, if it is not empty. -/
def Apart (text : List Char) : Prop :=
  ∀ c, text.head? = some c → isBlank c = true

theorem Apart.append (h : Apart front) (h' : Apart back) : Apart (front ++ back) := by
  intro c hc
  cases front with
  | nil => exact h' c hc
  | cons d front => exact h c hc

theorem apart_append (h : Blanks gap) (ne : gap ≠ []) (text : List Char) : Apart (gap ++ text) := by
  intro c hc
  rw [List.head?_append_of_ne_nil _ ne] at hc
  exact h c (List.mem_of_head? hc)

theorem skipBlanks_append (h : Blanks gap) (text : List Char) :
    skipBlanks (gap ++ text) = skipBlanks text :=
  List.dropWhile_append_of_pos h

theorem skipBlanks_of_blanks (h : Blanks gap) : skipBlanks gap = [] :=
  List.dropWhile_eq_nil_iff.mpr h

theorem dropBlankEnd_append (h : Blanks tail) (text : List Char) :
    dropBlankEnd (text ++ tail) = dropBlankEnd text := by
  rw [dropBlankEnd, List.reverse_append, List.dropWhile_append_of_pos fun c hc =>
    h c (List.mem_reverse.mp hc)]
  rfl

theorem dropBlankEnd_of_firm (h : Firm text) : dropBlankEnd text = text := by
  rw [dropBlankEnd_eq, List.rdropWhile_eq_self_iff]
  intro ne
  rw [h _ (List.getLast?_eq_some_getLast ne)]
  exact Bool.false_ne_true

theorem trim_blanks (h : Blanks gap) : trim gap = [] := by
  rw [trim, skipBlanks_of_blanks h]
  rfl

/-- Between blanks, a text is found again that neither starts nor ends with one. -/
theorem trim_append (hi : Blanks indent) (ht : Blanks tail) (hc : isBlank c = false)
    (firm : Firm (c :: rest)) : trim (indent ++ (c :: rest) ++ tail) = c :: rest := by
  rw [trim_eq, dropBlankEnd_append ht, skipBlanks_dropBlankEnd, skipBlanks_append hi,
    skipBlanks_cons hc, dropBlankEnd_of_firm firm]

theorem afterBlanks?_append (h : Blanks gap) (ne : gap ≠ []) (text : List Char) :
    afterBlanks? (gap ++ text) = some (skipBlanks text) := by
  cases gap with
  | nil => exact absurd rfl ne
  | cons c gap =>
    obtain ⟨first, others⟩ := List.forall_mem_cons.mp h
    rw [List.cons_append, afterBlanks?, if_pos first, skipBlanks_append others]

theorem all_head?_cons {c : Char} (h : isBlank c = false) (text : List Char) :
    (c :: text).head?.all fun c => !isBlank c := by
  simp [h]

theorem skipBlanks_eq (h : rest.head?.all fun c => !isBlank c) : skipBlanks rest = rest := by
  cases rest with
  | nil => rfl
  | cons c rest => exact skipBlanks_cons (by simpa using h)

theorem head_skipBlanks (text : List Char) : (skipBlanks text).head?.all fun c => !isBlank c := by
  have stop := List.head?_dropWhile_not isBlank text
  unfold skipBlanks
  split at stop
  · next c head => simp [head, stop]
  · next head => simp [head]

/-- Blanks come before a text that does not start with one iff they are skipped. -/
theorem skipBlanks_eq_iff : skipBlanks text = rest ↔
    (rest.head?.all fun c => !isBlank c) ∧ ∃ gap, Blanks gap ∧ text = gap ++ rest := by
  constructor
  · rintro rfl
    exact ⟨head_skipBlanks text, text.takeWhile isBlank, fun c hc => List.mem_takeWhile_imp hc,
      List.takeWhile_append_dropWhile.symm⟩
  · rintro ⟨head, gap, blanks, rfl⟩
    rw [skipBlanks_append blanks, skipBlanks_eq head]

/-- Blanks come behind a text that does not end in one iff they are dropped. -/
theorem dropBlankEnd_eq_iff : dropBlankEnd text = rest ↔
    Firm rest ∧ ∃ gap, Blanks gap ∧ text = rest ++ gap := by
  constructor
  · rintro rfl
    refine ⟨fun c hc => ?_, text.rtakeWhile isBlank, fun c hc => List.mem_rtakeWhile_imp hc,
      List.rdropWhile_append_rtakeWhile.symm⟩
    obtain ⟨ne, rfl⟩ := List.mem_getLast?_eq_getLast hc
    exact Bool.eq_false_of_not_eq_true (List.rdropWhile_last_not isBlank text ne)
  · rintro ⟨firm, gap, blanks, rfl⟩
    rw [dropBlankEnd_append blanks, dropBlankEnd_of_firm firm]

/-- Blanks stand around a text that neither starts nor ends with one iff they are trimmed. -/
theorem trim_eq_iff : trim text = core ↔ (core.head?.all fun c => !isBlank c) ∧ Firm core ∧
    ∃ front back, Blanks front ∧ Blanks back ∧ text = front ++ (core ++ back) := by
  constructor
  · intro trimmed
    have head : core.head?.all fun c => !isBlank c := by
      rw [← trimmed, trim_eq]
      exact head_skipBlanks _
    obtain ⟨firm, back, hb, skipped⟩ := dropBlankEnd_eq_iff.mp trimmed
    obtain ⟨-, front, hf, split⟩ := skipBlanks_eq_iff.mp skipped
    exact ⟨head, firm, front, back, hf, hb, split⟩
  · rintro ⟨head, firm, front, back, hf, hb, rfl⟩
    rw [trim_eq, ← List.append_assoc, dropBlankEnd_append hb, skipBlanks_dropBlankEnd,
      skipBlanks_append hf, skipBlanks_eq head, dropBlankEnd_of_firm firm]

/-- Blanks come before a text that does not start with one iff they are taken off. -/
theorem afterBlanks?_eq_some (h : rest.head?.all fun c => !isBlank c) :
    afterBlanks? text = some rest ↔ ∃ gap, gap ≠ [] ∧ Blanks gap ∧ text = gap ++ rest := by
  constructor
  · intro after
    cases text with
    | nil => cases after
    | cons c text =>
      rw [afterBlanks?] at after
      split at after
      · next blank =>
        obtain ⟨-, gap, blanks, rfl⟩ := skipBlanks_eq_iff.mp (Option.some.inj after)
        exact ⟨c :: gap, List.cons_ne_nil _ _, List.forall_mem_cons.mpr ⟨blank, blanks⟩, rfl⟩
      · cases after
  · rintro ⟨gap, ne, blanks, rfl⟩
    rw [afterBlanks?_append blanks ne, skipBlanks_eq h]

/-- No character is both a blank and a digit. -/
theorem isDecimalDigit_of_isBlank (h : isBlank c = true) : isDecimalDigit c = false := by
  have apart : ∀ r ∈ blankRanges, ∀ r' ∈ decimalDigitRanges, r.2 < r'.1 ∨ r'.2 < r.1 := by decide
  rw [← Bool.not_eq_true]
  intro digit
  obtain ⟨r, hr, blank⟩ := List.any_eq_true.mp h
  obtain ⟨r', hr', digit⟩ := List.any_eq_true.mp digit
  simp only [Bool.and_eq_true, decide_eq_true_eq] at blank digit
  have := apart r hr r' hr'
  omega

end Text

namespace Drn

open Text

variable {n : ℕ}

/-! ## Parts of a line -/

/-- A text with blanks around it. -/
def Framed (core text : List Char) : Prop :=
  ∃ indent tail, Blanks indent ∧ Blanks tail ∧ text = indent ++ core ++ tail

/-- A blank line or a comment. -/
def Silent (text : List Char) : Prop :=
  Blanks text ∨ ∃ indent rest, Blanks indent ∧ text = indent ++ '/' :: '/' :: rest

/-- A number in decimal digits. -/
structure Numeral (k : ℕ) (text : List Char) : Prop where
  digits : ∀ c ∈ text, c.isDigit = true
  reads : Decimal.readNat text = .ok k

/-- What stands in brackets up to a comma: a literal, or nothing. -/
inductive First : Option Float → List Char → Prop
  | nothing {gap} (blanks : Blanks gap) : First none gap
  | literal {front text back value} (before : Blanks front) (reads : Decimal.readFloat text = .ok value)
      (after : Blanks back) : First (some value) (front ++ text ++ back)

/-- What stands in brackets from a comma on: anything, or nothing. -/
inductive Further : List Char → Prop
  | nothing : Further []
  | comma {rest} (inside : ']' ∉ rest) : Further (',' :: rest)

/-- An optional reward in brackets. -/
inductive InBrackets : Option Float → List Char → Prop
  | missing : InBrackets none []
  | brackets {gap first further value} (blanks : Blanks gap) (ne : gap ≠ []) (reads : First value first)
      (more : Further further) : InBrackets value (gap ++ '[' :: (first ++ further ++ [']']))

/-- A label, with or without quotes around it.  The word does not look like a bracket. -/
structure Quoted (label : String) (text : List Char) : Prop where
  ne : label.toList ≠ []
  solid : Solid label.toList
  bare : Bare label.toList
  quotes : ∃ i j, text = List.replicate i '"' ++ label.toList ++ List.replicate j '"'
  head : text.head? ≠ some '['

/-- Labels, each behind blanks. -/
inductive Labelled : List String → List Char → Prop
  | nil : Labelled [] []
  | cons {gap label text labels later} (blanks : Blanks gap) (ne : gap ≠ [])
      (quoted : Quoted label text) (rest : Labelled labels later) :
      Labelled (label :: labels) (gap ++ (text ++ later))

/-! ## The lines of a block -/

/-- The line of a state: `state <number> [<reward>] <labels>...` -/
structure StateLine (b : Block n) (text : List Char) : Prop where
  parts : ∃ gap number reward labels, Blanks gap ∧ gap ≠ [] ∧ Numeral b.state number ∧
    InBrackets b.reward reward ∧ Labelled b.labels labels ∧
      Framed (['s', 't', 'a', 't', 'e'] ++ (gap ++ (number ++ (reward ++ labels)))) text

/-- The line of an action: `action <name> [<reward>]` -/
structure ActionLine (value : Option Float) (text : List Char) : Prop where
  parts : ∃ gap name reward, Blanks gap ∧ gap ≠ [] ∧ name ≠ [] ∧ Solid name ∧ InBrackets value reward ∧
    Framed (['a', 'c', 't', 'i', 'o', 'n'] ++ (gap ++ (name ++ reward))) text

/-- The line of a transition: `<number> : <probability>` -/
structure EdgeLine (e : Edge Float n) (text : List Char) : Prop where
  parts : ∃ number gap gap' prob, Numeral e.next number ∧ Blanks gap ∧ Blanks gap' ∧
    Decimal.readFloat prob = .ok e.prob ∧ Framed (number ++ (gap ++ ':' :: (gap' ++ prob))) text

/-- The lines of a state with its only action. -/
inductive BlockLines (b : Block n) : List (List Char) → Prop
  | mk {state action edges} (first : StateLine b state) (second : ActionLine b.action action)
      (others : List.Forall₂ EdgeLine b.edges edges) : BlockLines b (state :: action :: edges)

/-- Lines among which blank lines and comments may stand. -/
inductive Padded : List (List Char) → List (List Char) → Prop
  | nil : Padded [] []
  | line {text kept lines} (rest : Padded kept lines) : Padded (text :: kept) (text :: lines)
  | silent {text kept lines} (silent : Silent text) (rest : Padded kept lines) :
      Padded kept (text :: lines)

/-! ## The header -/

/-- A section of the header. -/
inductive Part where
  | type
  | size (count : ℕ)
  | model (name : String)

/-- The lines of a header with the given sections.  Between the sections, blank lines and comments may stand,
and between the name of a section and its value blank lines. -/
inductive HeaderLines : List Part → List (List Char) → Prop
  | nil {text} (framed : Framed "@model".toList text) : HeaderLines [] [text]
  | silent {text parts lines} (silent : Silent text) (rest : HeaderLines parts lines) :
      HeaderLines parts (text :: lines)
  | type {gap text parts lines} (blanks : Blanks gap)
      (framed : Framed ("@type:".toList ++ (gap ++ "DTMC".toList)) text)
      (rest : HeaderLines parts lines) : HeaderLines (.type :: parts) (text :: lines)
  | size {text gaps number value count parts lines} (framed : Framed "@nr_states".toList text)
      (blanks : ∀ gap ∈ gaps, Blanks gap) (numeral : Numeral count number) (framed' : Framed number value)
      (rest : HeaderLines parts lines) :
      HeaderLines (.size count :: parts) (text :: (gaps ++ value :: lines))
  | model {text gaps name value parts lines} (framed : Framed "@reward_models".toList text)
      (blanks : ∀ gap ∈ gaps, Blanks gap) (ne : name.toList ≠ []) (solid : Solid name.toList)
      (framed' : Framed name.toList value) (rest : HeaderLines parts lines) :
      HeaderLines (.model name :: parts) (text :: (gaps ++ value :: lines))

namespace Document

variable (d : Document n)

/-- The sections say that there is a chain, how many states it has, and what its rewards are called. -/
structure Declares (parts : List Part) : Prop where
  type : .type ∈ parts
  size : ∀ count, .size count ∈ parts ↔ count = n
  model : ∀ name, .model name ∈ parts ↔ d.model = some name

/-- The lines of a document: a header, and then the blocks of the states. -/
structure Written (texts : List (List Char)) : Prop where
  lines : ∃ parts header chunks body, d.Declares parts ∧ HeaderLines parts header ∧
    List.Forall₂ BlockLines d.blocks chunks ∧ Padded chunks.flatten body ∧ texts = header ++ body

end Document

/-! ## How the parts are recognised -/

variable {text number rest labels : List Char} {value : Option Float} {k : ℕ}

theorem trim_framed {core : List Char} {c : Char} (framed : Framed (c :: core) text)
    (hc : isBlank c = false) (firm : Firm (c :: core)) : trim text = c :: core := by
  obtain ⟨indent, tail, hi, ht, rfl⟩ := framed
  exact trim_append hi ht hc firm

theorem isSilent_of_silent (silent : Silent text) : isSilent (trim text) = true := by
  rcases silent with blanks | ⟨indent, rest, hi, rfl⟩
  · rw [trim_blanks blanks]
    rfl
  · have slash : isBlank '/' = false := by decide
    rw [trim_eq, show indent ++ '/' :: '/' :: rest = (indent ++ ['/']) ++ '/' :: rest by simp,
      dropBlankEnd_append_cons slash, List.append_assoc, skipBlanks_append hi, List.singleton_append,
      skipBlanks_cons slash]
    rfl

namespace Numeral

variable (numeral : Numeral k number)
include numeral

theorem ne_nil : number ≠ [] := by
  rintro rfl
  cases numeral.reads

theorem solid : Solid number :=
  fun c hc => isBlank_of_isDigit (numeral.digits c hc)

theorem exists_cons : ∃ c digits, number = c :: digits ∧ c.isDigit = true := by
  obtain ⟨c, digits, rfl⟩ := List.exists_cons_of_ne_nil numeral.ne_nil
  exact ⟨c, digits, rfl, numeral.digits c List.mem_cons_self⟩

theorem number?_append (h : rest.head?.all fun c => !isDecimalDigit c) :
    number? (number ++ rest) = some (number, rest) := by
  obtain ⟨run, stop⟩ := takeWhile_append_of_head
    (fun c hc => isDecimalDigit_of_isDigit (numeral.digits c hc)) h
  rw [number?, run, stop]
  exact if_neg numeral.ne_nil

theorem skipBlanks_append : skipBlanks (number ++ rest) = number ++ rest := by
  obtain ⟨c, digits, rfl, digit⟩ := numeral.exists_cons
  exact skipBlanks_cons (isBlank_of_isDigit digit)

end Numeral

/-! ### Rewards -/

theorem First.readReward (first : First value text) {further : List Char} (more : Further further) :
    ']' ∉ text ++ further ∧ readReward (some (text ++ further)) = .ok (value.getD 0) := by
  have blank {gap : List Char} (blanks : Blanks gap) {c : Char} (hc : isBlank c = false) : c ∉ gap :=
    fun mem => by simp [blanks c mem] at hc
  have parts : ']' ∉ text ∧ ',' ∉ text := by
    cases first with
    | nothing blanks => exact ⟨blank blanks (by decide), blank blanks (by decide)⟩
    | literal before reads after =>
      have absent {c : Char} (hc : isBlank c = false) (other : Decimal.isLiteral c = false) :=
        not_or.mpr ⟨not_or.mpr ⟨blank before hc, Decimal.not_mem_of_readFloat reads other⟩, blank after hc⟩
      simp only [List.mem_append]
      exact ⟨absent (by decide) (by decide), absent (by decide) (by decide)⟩
  have inside : ']' ∉ further := by
    cases more with
    | nothing => exact List.not_mem_nil
    | comma inside => simp [inside]
  refine ⟨fun mem => (List.mem_append.mp mem).elim parts.1 inside, ?_⟩
  have front : (text ++ further).takeWhile (· != ',') = text := by
    refine (takeWhile_append_of_head (fun c hc => ?_) ?_).1
    · exact bne_iff_ne.mpr fun e => parts.2 (e ▸ hc)
    · cases more <;> rfl
  rw [Drn.readReward, front]
  cases first with
  | nothing blanks =>
    rw [trim_blanks blanks]
    rfl
  | literal before reads after =>
    have solid := Decimal.solid_of_readFloat reads
    obtain ⟨c, rest, rfl⟩ := List.exists_cons_of_ne_nil (Decimal.ne_nil_of_readFloat reads)
    rw [trim_append before after (solid c List.mem_cons_self) (firm_of_solid solid),
      if_neg (List.cons_ne_nil _ _), readNumber, reads]
    rfl

/-- What an optional reward in brackets looks like to the reader. -/
theorem InBrackets.recognised (h : InBrackets value text) :
    (text = [] ∧ readReward none = .ok (value.getD 0)) ∨
      ∃ gap content, Blanks gap ∧ gap ≠ [] ∧ text = gap ++ '[' :: (content ++ [']']) ∧ ']' ∉ content ∧
        readReward (some content) = .ok (value.getD 0) := by
  cases h with
  | missing => exact .inl ⟨rfl, rfl⟩
  | brackets blanks ne reads more =>
    obtain ⟨inside, reward⟩ := reads.readReward more
    exact .inr ⟨_, _, blanks, ne, rfl, inside, reward⟩

theorem InBrackets.apart (h : InBrackets value text) : Apart text := by
  cases h with
  | missing => exact fun c hc => absurd hc (Option.some_ne_none c).symm
  | brackets blanks ne => exact apart_append blanks ne _

theorem InBrackets.firm (h : InBrackets value text) : Firm text := by
  cases h with
  | missing => exact firm_nil
  | brackets =>
    have bracket : Firm [']'] := firm_of_solid (by decide)
    rw [← List.cons_append, ← List.append_assoc]
    exact bracket.behind (List.cons_ne_nil _ _)

theorem bracketGroup?_append {gap content : List Char} (blanks : Blanks gap) (ne : gap ≠ [])
    (inside : ']' ∉ content) :
    bracketGroup? (gap ++ '[' :: (content ++ ']' :: rest)) = some (content, rest) := by
  have bracket : skipBlanks ('[' :: (content ++ ']' :: rest)) = '[' :: (content ++ ']' :: rest) :=
    skipBlanks_cons (by decide)
  rw [bracketGroup?, afterBlanks?_append blanks ne, bracket]
  exact upTo?_append_cons inside rest

/-! ### Labels -/

namespace Quoted

variable {label : String} (quoted : Quoted label text)
include quoted

theorem solid_text : Solid text := by
  obtain ⟨i, j, rfl⟩ := quoted.quotes
  have quotes (k : ℕ) : Solid (List.replicate k '"') := by
    intro c hc
    rw [List.eq_of_mem_replicate hc]
    decide
  exact List.forall_mem_append.mpr ⟨List.forall_mem_append.mpr ⟨quotes i, quoted.solid⟩, quotes j⟩

theorem exists_cons : ∃ c rest, text = c :: rest ∧ c ≠ '[' := by
  have ne : text ≠ [] := by
    obtain ⟨i, j, rfl⟩ := quoted.quotes
    simp [quoted.ne]
  obtain ⟨c, rest, split⟩ := List.exists_cons_of_ne_nil ne
  exact ⟨c, rest, split, fun e => quoted.head (split ▸ congrArg some e)⟩

theorem unquoted_eq : String.ofList (unquoted text) = label := by
  obtain ⟨i, j, rfl⟩ := quoted.quotes
  obtain ⟨first, last⟩ := quoted.bare
  have quotes (k : ℕ) : ∀ c ∈ List.replicate k '"', (c == '"') = true :=
    fun c hc => beq_iff_eq.mpr (List.eq_of_mem_replicate hc)
  have front : (label.toList ++ List.replicate j '"').dropWhile (· == '"') =
      label.toList ++ List.replicate j '"' := by
    obtain ⟨c, rest, split⟩ := List.exists_cons_of_ne_nil quoted.ne
    rw [split] at first ⊢
    exact List.dropWhile_cons_of_neg fun e => first (congrArg some (beq_iff_eq.mp e))
  have back : label.toList.reverse.dropWhile (· == '"') = label.toList.reverse := by
    rw [← List.head?_reverse] at last
    cases split : label.toList.reverse with
    | nil => rfl
    | cons c rest =>
      rw [split] at last
      exact List.dropWhile_cons_of_neg fun e => last (congrArg some (beq_iff_eq.mp e))
  rw [unquoted, List.append_assoc, List.dropWhile_append_of_pos (quotes i), front, List.reverse_append,
    List.reverse_replicate, List.dropWhile_append_of_pos (quotes j), back, List.reverse_reverse,
    String.ofList_toList]

end Quoted

theorem wordsFrom_append_blanks {gap : List Char} (blanks : Blanks gap) :
    wordsFrom [] (gap ++ text) = wordsFrom [] text := by
  induction gap with
  | nil => rfl
  | cons c gap ih =>
    obtain ⟨first, others⟩ := List.forall_mem_cons.mp blanks
    rw [List.cons_append, wordsFrom_blank first, if_pos rfl, List.nil_append, ih others]

/-- A word ends where a blank follows it. -/
theorem wordsFrom_of_apart (apart : Apart text) {current : List Char} (ne : current ≠ []) :
    wordsFrom current text = current.reverse :: wordsFrom [] text := by
  cases text with
  | nil => rw [wordsFrom_nil, wordsFrom_nil, if_neg ne, if_pos rfl]
  | cons c text =>
    have blank := apart c rfl
    rw [wordsFrom_blank blank, wordsFrom_blank blank, if_neg ne, if_pos rfl]
    rfl

namespace Labelled

variable {names : List String} (labelled : Labelled names text)
include labelled

theorem apart : Apart text := by
  cases labelled with
  | nil => exact fun c hc => absurd hc (Option.some_ne_none c).symm
  | cons blanks ne => exact apart_append blanks ne _

theorem firm : Firm text := by
  induction labelled with
  | nil => exact firm_nil
  | cons blanks ne quoted rest ih =>
    obtain ⟨c, more, rfl, -⟩ := quoted.exists_cons
    exact ((firm_of_solid quoted.solid_text).append ih).behind (List.cons_ne_nil _ _)

theorem bracketGroup?_eq : bracketGroup? text = none := by
  cases labelled with
  | nil => rfl
  | cons blanks ne quoted rest =>
    obtain ⟨c, more, rfl, other⟩ := quoted.exists_cons
    rw [bracketGroup?, afterBlanks?_append blanks ne, List.cons_append,
      skipBlanks_cons (quoted.solid_text c List.mem_cons_self)]
    simp [other]

/-- **The words behind a state are its labels.** -/
theorem words_eq : (words text).map (fun label => String.ofList (unquoted label)) = names := by
  unfold words
  induction labelled with
  | nil => rfl
  | cons blanks ne quoted rest ih =>
    obtain ⟨c, more, rfl, -⟩ := quoted.exists_cons
    rw [wordsFrom_append_blanks blanks, wordsFrom_append quoted.solid_text, List.append_nil,
      wordsFrom_of_apart rest.apart (by simp), List.reverse_reverse, List.map_cons, ih,
      quoted.unquoted_eq]

end Labelled

/-! ### Lines -/

/-- **The line of a state** is recognised as one, with its reward and its labels. -/
theorem StateLine.bodyLine?_eq {b : Block n} (line : StateLine b text) :
    ∃ number reward labels, isSilent (trim text) = false ∧
      bodyLine? (trim text) = some (.state number reward labels) ∧
      Decimal.readNat number = .ok b.state ∧ readReward reward = .ok (b.reward.getD 0) ∧
      labels.map (fun label => String.ofList (unquoted label)) = b.labels := by
  obtain ⟨gap, number, reward, labels, blanks, ne, numeral, bracketed, labelled, framed⟩ := line.parts
  have apart := bracketed.apart.append labelled.apart
  have firm : Firm (number ++ (reward ++ labels)) :=
    (firm_of_solid numeral.solid).append (bracketed.firm.append labelled.firm)
  have number_ne : number ++ (reward ++ labels) ≠ [] :=
    List.append_ne_nil_of_left_ne_nil numeral.ne_nil _
  have whole : Firm (['s', 't', 'a', 't', 'e'] ++ (gap ++ (number ++ (reward ++ labels)))) :=
    (firm.behind number_ne).behind (List.append_ne_nil_of_right_ne_nil _ number_ne)
  have trimmed := trim_framed framed (by decide) whole
  have found : number? (number ++ (reward ++ labels)) = some (number, reward ++ labels) := by
    refine numeral.number?_append ?_
    cases head : (reward ++ labels).head? with
    | none => rfl
    | some c => simpa using isDecimalDigit_of_isBlank (apart c head)
  -- What stands behind the number is a group in brackets and labels, or labels alone.
  have state {group : Option (List Char × List Char)} (h : bracketGroup? (reward ++ labels) = group) :
      bodyLine? (trim text) = some (.state number (group.map Prod.fst)
        (words (group.elim (reward ++ labels) Prod.snd))) := by
    have line : stateLine? (trim text) = some (.state number (group.map Prod.fst)
        (words (group.elim (reward ++ labels) Prod.snd))) := by
      rw [trimmed, stateLine?]
      show (after? ['s', 't', 'a', 't', 'e'] (['s', 't', 'a', 't', 'e'] ++ _)).bind _ = _
      rw [after?_append, Option.bind_some, afterBlanks?_append blanks ne, numeral.skipBlanks_append]
      simp only [Option.bind_eq_bind, Option.bind_some, found, h]
      cases group <;> rfl
    rw [bodyLine?, line]
    rfl
  have silent : isSilent (trim text) = false := by
    rw [trimmed]
    exact isSilent_cons (by decide)
  rcases bracketed.recognised with ⟨rfl, value⟩ | ⟨gap', content, blanks', ne', rfl, inside, value⟩
  · exact ⟨number, none, _, silent, state labelled.bracketGroup?_eq, numeral.reads, value,
      labelled.words_eq⟩
  · have group : bracketGroup? (gap' ++ '[' :: (content ++ [']']) ++ labels) = some (content, labels) := by
      rw [List.append_assoc, List.cons_append, List.append_assoc, List.singleton_append,
        bracketGroup?_append blanks' ne' inside]
    exact ⟨number, some content, _, silent, state group, numeral.reads, value, labelled.words_eq⟩

/-- **The line of an action** is recognised as one, with its reward. -/
theorem ActionLine.bodyLine?_eq (line : ActionLine value text) :
    ∃ reward, isSilent (trim text) = false ∧ bodyLine? (trim text) = some (.action reward) ∧
      readReward reward = .ok (value.getD 0) := by
  obtain ⟨gap, name, reward, blanks, ne, name_ne, solid, bracketed, framed⟩ := line.parts
  have firm : Firm (name ++ reward) := (firm_of_solid solid).append bracketed.firm
  have right_ne : name ++ reward ≠ [] := List.append_ne_nil_of_left_ne_nil name_ne _
  have whole : Firm (['a', 'c', 't', 'i', 'o', 'n'] ++ (gap ++ (name ++ reward))) :=
    (firm.behind right_ne).behind (List.append_ne_nil_of_right_ne_nil _ right_ne)
  have trimmed := trim_framed framed (by decide) whole
  have word : word? (name ++ reward) = some (name, reward) := by
    have stop : reward.head?.all fun c => !!isBlank c := by
      cases head : reward.head? with
      | none => rfl
      | some c => simpa using bracketed.apart c head
    obtain ⟨run, stop⟩ := takeWhile_append_of_head (fun c hc => by simp [solid c hc]) stop
    rw [word?, run, stop]
    exact if_neg name_ne
  have skip : skipBlanks (name ++ reward) = name ++ reward := by
    obtain ⟨c, more, rfl⟩ := List.exists_cons_of_ne_nil name_ne
    exact skipBlanks_cons (solid c List.mem_cons_self)
  have silent : isSilent (trim text) = false := by
    rw [trimmed]
    exact isSilent_cons (by decide)
  have action (content : Option (List Char)) (hc : (if skipBlanks reward = [] then some (.action none)
      else (bracketGroup? reward).bind fun group =>
        if skipBlanks group.2 = [] then some (BodyLine.action (some group.1)) else none) =
          some (.action content)) : bodyLine? (trim text) = some (.action content) := by
    have line : actionLine? (trim text) = some (.action content) := by
      rw [trimmed, actionLine?]
      show (after? ['a', 'c', 't', 'i', 'o', 'n'] (['a', 'c', 't', 'i', 'o', 'n'] ++ _)).bind _ = _
      rw [after?_append, Option.bind_some, afterBlanks?_append blanks ne, skip]
      simp only [Option.bind_eq_bind, Option.bind_some, word]
      exact hc
    have state : stateLine? (trim text) = none := by
      rw [trimmed, stateLine?]
      rfl
    rw [bodyLine?, state, line]
    rfl
  rcases bracketed.recognised with ⟨rfl, reads⟩ | ⟨gap', content, blanks', ne', rfl, inside, reads⟩
  · exact ⟨none, silent, action none rfl, reads⟩
  · refine ⟨some content, silent, action (some content) ?_, reads⟩
    have bracket : skipBlanks (gap' ++ '[' :: (content ++ [']'])) = '[' :: (content ++ [']']) := by
      rw [skipBlanks_append blanks', skipBlanks_cons (by decide)]
    rw [bracket, if_neg (List.cons_ne_nil _ _), bracketGroup?_append blanks' ne' inside]
    rfl

/-- **The line of a transition** is recognised as one. -/
theorem EdgeLine.bodyLine?_eq {e : Edge Float n} (line : EdgeLine e text) :
    ∃ number prob, isSilent (trim text) = false ∧
      bodyLine? (trim text) = some (.transition number prob) ∧
      Decimal.readNat number = .ok e.next ∧ Decimal.readFloat prob = .ok e.prob := by
  obtain ⟨number, gap, gap', prob, numeral, blanks, blanks', reads, framed⟩ := line.parts
  have solid := Decimal.solid_of_readFloat reads
  have ne := Decimal.ne_nil_of_readFloat reads
  obtain ⟨c, digits, split, digit⟩ := numeral.exists_cons
  have firm : Firm (number ++ (gap ++ ':' :: (gap' ++ prob))) := by
    have right : Firm ([':'] ++ gap' ++ prob) := (firm_of_solid solid).behind ne
    rw [List.append_assoc, List.singleton_append] at right
    exact (right.behind (List.cons_ne_nil _ _)).behind
      (List.append_ne_nil_of_right_ne_nil _ (List.cons_ne_nil _ _))
  have trimmed : trim text = number ++ (gap ++ ':' :: (gap' ++ prob)) := by
    rw [split] at framed firm ⊢
    exact trim_framed framed (isBlank_of_isDigit digit) firm
  have found : number? (trim text) = some (number, gap ++ ':' :: (gap' ++ prob)) := by
    rw [trimmed]
    refine numeral.number?_append ?_
    cases gap with
    | nil => rfl
    | cons d gap => simpa using isDecimalDigit_of_isBlank (blanks d List.mem_cons_self)
  have other {d : Char} {word : List Char} (hd : d.isDigit = false) :
      after? (d :: word) (trim text) = none := by
    rw [trimmed, split]
    exact after?_cons_of_ne fun e => by rw [e, digit] at hd; cases hd
  have silent : isSilent (trim text) = false := by
    rw [trimmed, split]
    exact isSilent_cons fun e => by rw [e] at digit; cases digit
  have colon : skipBlanks (gap ++ ':' :: (gap' ++ prob)) = ':' :: (gap' ++ prob) := by
    rw [skipBlanks_append blanks, skipBlanks_cons (by decide)]
  refine ⟨number, prob, silent, ?_, numeral.reads, reads⟩
  have state : stateLine? (trim text) = none := by
    rw [stateLine?, other (by decide)]
    rfl
  have action : actionLine? (trim text) = none := by
    rw [actionLine?, other (by decide)]
    rfl
  rw [bodyLine?, state, action, transitionLine?, found]
  simp only [Option.bind_eq_bind, Option.bind_some, colon]
  rw [skipBlanks_append blanks', skipBlanks_of_solid solid, word?_of_solid solid ne]
  rfl

end Drn

end HoleBlame
