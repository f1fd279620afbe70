import HoleBlame.Property.Reader
import HoleBlame.Proofs.Documents
import HoleBlame.Proofs.Written

/-!
# Properties and their texts

Labels and names are printed as they are, between quotes, and nothing is escaped.  So not every property can
be read from its text.  Those that can are `Property.Writable`: their thresholds are fair, and no label or name is
empty, contains a quote, or, in a path, a line feed.  Other characters do no harm, not even brackets and
comparison signs: the token of the threshold ends before the first bracket, the path before the last one, and
a label before the next quote.

* What is read from a text is found in its parts (`Property.read_eq_ok_iff`), by characterisations of the
  recognisers for names in quotes (`Property.quoted?_eq_some`) and for the two forms of a path
  (`Property.eventually?_eq_some`, `Property.until?_eq_some`).
* The outer shape is that of the parts that stand in the text between blanks (`Property.shape?_eq_some`,
  `Property.shape?_chars`), and so the text of a property has the shape of what was written
  (`Property.shape?_text`).

Both together make a property writable iff it is read from its own text, and iff it is read from any text
(`Property.writable_tfae`).
-/

namespace HoleBlame

open Text

namespace Property

variable {text rest path name : List Char}

/-! ## Names in quotes -/

/-- A name that may stand in quotes. -/
def Name (name : List Char) : Prop :=
  name ≠ [] ∧ '"' ∉ name

/-- A name in quotes. -/
def inQuotes (name : List Char) : List Char :=
  '"' :: name ++ ['"']

theorem toList_quoted (label : String) : (quoted label).toList = inQuotes label.toList := by
  simp [quoted, inQuotes]

theorem head_inQuotes (name : List Char) : (inQuotes name).head?.all fun c => !isBlank c :=
  all_head?_cons (by decide) _

/-- A name in quotes starts the text iff it is read from it. -/
theorem quoted?_eq_some : quoted? text = some (name, rest) ↔ Name name ∧ text = inQuotes name ++ rest := by
  constructor
  · intro h
    unfold quoted? at h
    split at h
    · split at h
      · next c front back cut =>
        cases h
        obtain ⟨absent, rfl⟩ := upTo?_eq_some.mp cut
        exact ⟨⟨List.cons_ne_nil c front, absent⟩, by simp [inQuotes]⟩
      · cases h
    · cases h
  · rintro ⟨⟨ne, absent⟩, rfl⟩
    have text_eq : inQuotes name ++ rest = '"' :: (name ++ '"' :: rest) := by simp [inQuotes]
    rw [text_eq, quoted?, upTo?_append_cons absent]
    cases name with
    | nil => exact absurd rfl ne
    | cons c name => rfl

/-! ## Paths -/

theorem eventually?_eq_some {target : List Char} : eventually? path = some target ↔
    Name target ∧ ∃ gap, gap ≠ [] ∧ Blanks gap ∧ path = 'F' :: gap ++ inQuotes target := by
  constructor
  · intro h
    unfold eventually? at h
    split at h
    · obtain ⟨rest, after, h⟩ := Option.bind_eq_some_iff.mp h
      split at h
      · next found =>
        cases h
        obtain ⟨named, rfl⟩ := quoted?_eq_some.mp found
        rw [List.append_nil] at after
        obtain ⟨gap, ne, blanks, rfl⟩ := (afterBlanks?_eq_some (head_inQuotes target)).mp after
        exact ⟨named, gap, ne, blanks, rfl⟩
      · cases h
    · cases h
  · rintro ⟨named, gap, ne, blanks, rfl⟩
    have after : afterBlanks? (gap ++ inQuotes target) = some (inQuotes target) :=
      (afterBlanks?_eq_some (head_inQuotes target)).mpr ⟨gap, ne, blanks, rfl⟩
    have found : quoted? (inQuotes target) = some (target, []) :=
      quoted?_eq_some.mpr ⟨named, (List.append_nil _).symm⟩
    rw [List.cons_append, eventually?, after]
    simp only [Option.bind_eq_bind, Option.bind_some, found]

theorem until?_eq_some {constraint target : List Char} : until? path = some (constraint, target) ↔
    Name constraint ∧ Name target ∧ ∃ gap gap', gap ≠ [] ∧ Blanks gap ∧ gap' ≠ [] ∧ Blanks gap' ∧
      path = inQuotes constraint ++ (gap ++ 'U' :: (gap' ++ inQuotes target)) := by
  constructor
  · intro h
    obtain ⟨⟨_, first⟩, opened, h⟩ := Option.bind_eq_some_iff.mp h
    obtain ⟨second, after, h⟩ := Option.bind_eq_some_iff.mp h
    split at h
    · obtain ⟨third, after', h⟩ := Option.bind_eq_some_iff.mp h
      split at h
      · next found =>
        cases h
        obtain ⟨first_name, rfl⟩ := quoted?_eq_some.mp opened
        obtain ⟨named, rfl⟩ := quoted?_eq_some.mp found
        rw [List.append_nil] at after'
        obtain ⟨gap', ne', blanks', rfl⟩ := (afterBlanks?_eq_some (head_inQuotes target)).mp after'
        obtain ⟨gap, ne, blanks, rfl⟩ := (afterBlanks?_eq_some (all_head?_cons (by decide) _)).mp after
        exact ⟨first_name, named, gap, gap', ne, blanks, ne', blanks', rfl⟩
      · cases h
    · cases h
  · rintro ⟨first_name, named, gap, gap', ne, blanks, ne', blanks', rfl⟩
    have opened : quoted? (inQuotes constraint ++ (gap ++ 'U' :: (gap' ++ inQuotes target))) =
        some (constraint, gap ++ 'U' :: (gap' ++ inQuotes target)) :=
      quoted?_eq_some.mpr ⟨first_name, rfl⟩
    have after : afterBlanks? (gap ++ 'U' :: (gap' ++ inQuotes target)) =
        some ('U' :: (gap' ++ inQuotes target)) :=
      (afterBlanks?_eq_some (all_head?_cons (by decide) _)).mpr ⟨gap, ne, blanks, rfl⟩
    have after' : afterBlanks? (gap' ++ inQuotes target) = some (inQuotes target) :=
      (afterBlanks?_eq_some (head_inQuotes target)).mpr ⟨gap', ne', blanks', rfl⟩
    have found : quoted? (inQuotes target) = some (target, []) :=
      quoted?_eq_some.mpr ⟨named, (List.append_nil _).symm⟩
    simp only [until?, opened, after, after', found, Option.bind_eq_bind, Option.bind_some]

/-! ## The outer shape -/

/-- The blanks before the parts of a property, and those at its end. -/
structure Spacing where
  /-- Before the kind. -/
  kind : List Char
  /-- Before the sign of the comparison. -/
  sign : List Char
  /-- Before the threshold. -/
  token : List Char
  /-- Before the opening bracket. -/
  opening : List Char
  /-- Before the path. -/
  path : List Char
  /-- Before the closing bracket. -/
  closing : List Char
  /-- At the end. -/
  finish : List Char

/-- There is nothing but blanks between the parts. -/
structure Spacing.Blank (s : Spacing) : Prop where
  kind : Blanks s.kind
  sign : Blanks s.sign
  token : Blanks s.token
  opening : Blanks s.opening
  path : Blanks s.path
  closing : Blanks s.closing
  finish : Blanks s.finish

/-- How the kind of a property is written: a probability, or the rewards of a model. -/
inductive Kind : Option (List Char) → List Char → Prop
  | probability : Kind none ['P']
  | reward {before name after} (opened : Blanks before) (named : Name name) (closed : Blanks after) :
      Kind (some name) ('R' :: '{' :: (before ++ (inQuotes name ++ (after ++ ['}']))))

/-- A path stands between brackets as it is. -/
structure Bracketed (path : List Char) : Prop where
  oneLine : '\n' ∉ path
  front : path.head?.all fun c => !isBlank c
  firm : Firm path

namespace Shape

/-- The threshold is a token, and the path stands between brackets as it is. -/
structure Proper (shape : Shape) : Prop where
  ne : shape.threshold ≠ []
  token : ∀ c ∈ shape.threshold, isThresholdChar c = true
  path : Bracketed shape.path

/-- The path in its brackets, to the end of the text. -/
def bracketed (shape : Shape) (s : Spacing) : List Char :=
  '[' :: (s.path ++ (shape.path ++ (s.closing ++ ']' :: s.finish)))

/-- What follows the sign of the comparison. -/
def behind (shape : Shape) (s : Spacing) : List Char :=
  s.token ++ (shape.threshold ++ (s.opening ++ shape.bracketed s))

theorem Proper.head {shape : Shape} (h : shape.Proper) (rest : List Char) :
    (shape.threshold ++ rest).head?.all fun c => !isBlank c := by
  obtain ⟨c, token, split⟩ := List.exists_cons_of_ne_nil h.ne
  have first := h.token c (split ▸ List.mem_cons_self)
  simp only [isThresholdChar, Bool.and_eq_true, Bool.not_eq_true'] at first
  rw [split]
  exact all_head?_cons first.1 _

/-- A text with the parts of a shape. -/
def chars (shape : Shape) (kind : List Char) (s : Spacing) : List Char :=
  s.kind ++ (kind ++ (s.sign ++ (shape.comparison.sign.toList ++ shape.behind s)))

end Shape

variable {model : Option (List Char)} {shape : Shape} {s : Spacing} {kind sign : List Char} {c : Comparison}

theorem Kind.head (h : Kind model kind) (rest : List Char) :
    (kind ++ rest).head?.all fun c => !isBlank c := by
  cases h <;> exact all_head?_cons (by decide) _

theorem Kind.named (h : Kind model kind) : ∀ name ∈ model, Name name := by
  cases h with
  | probability => rintro _ ⟨⟩
  | reward opened named closed =>
    rintro _ ⟨⟩
    exact named

/-- The kind of a property is found iff it is written in front. -/
theorem kind?_eq_some : kind? text = some (model, rest) ↔ ∃ kind, Kind model kind ∧ text = kind ++ rest := by
  constructor
  · intro h
    unfold kind? at h
    split at h
    · cases h
      exact ⟨_, .probability, rfl⟩
    · obtain ⟨⟨name, behind⟩, found, h⟩ := Option.bind_eq_some_iff.mp h
      simp only at h
      split at h
      · next closing =>
        cases h
        obtain ⟨named, quotes⟩ := quoted?_eq_some.mp found
        obtain ⟨-, before, opened, rfl⟩ := skipBlanks_eq_iff.mp quotes
        obtain ⟨-, after, closed, rfl⟩ := skipBlanks_eq_iff.mp closing
        exact ⟨_, .reward opened named closed, by simp⟩
      · cases h
    · cases h
  · rintro ⟨kind, written, rfl⟩
    cases written with
    | probability => rfl
    | @reward before name after opened named closed =>
      have quotes : skipBlanks (before ++ (inQuotes name ++ (after ++ '}' :: rest))) =
          inQuotes name ++ (after ++ '}' :: rest) :=
        skipBlanks_eq_iff.mpr ⟨all_head?_cons (by decide) _, before, opened, rfl⟩
      have closing : skipBlanks (after ++ '}' :: rest) = '}' :: rest :=
        skipBlanks_eq_iff.mpr ⟨all_head?_cons (by decide) _, after, closed, rfl⟩
      have found : quoted? (inQuotes name ++ (after ++ '}' :: rest)) = some (name, after ++ '}' :: rest) :=
        quoted?_eq_some.mpr ⟨named, rfl⟩
      simp only [List.cons_append, List.append_assoc, List.nil_append]
      rw [kind?, quotes, found]
      simp only [Option.bind_eq_bind, Option.bind_some, closing]

/-- A path is found in brackets iff it stands there between blanks. -/
theorem bracketed?_eq_some : bracketed? text = some path ↔ Bracketed path ∧
    ∃ front back finish, Blanks front ∧ Blanks back ∧ Blanks finish ∧
      text = '[' :: (front ++ (path ++ (back ++ ']' :: finish))) := by
  constructor
  · intro h
    unfold bracketed? at h
    split at h
    · split at h
      · next inner closed =>
        simp only at h
        split at h
        · cases h
        · next oneLine =>
          have trimmed := Option.some.inj h
          rw [trimmed] at oneLine
          obtain ⟨-, finish, hend, body⟩ := dropBlankEnd_eq_iff.mp (List.reverse_eq_cons_iff.mp closed)
          obtain ⟨head, firm, front, back, hf, hb, inside⟩ := trim_eq_iff.mp trimmed
          refine ⟨⟨oneLine, head, firm⟩, front, back, finish, hf, hb, hend, ?_⟩
          rw [body, inside]
          simp
      · cases h
    · cases h
  · rintro ⟨⟨oneLine, head, firm⟩, front, back, finish, hf, hb, hend, rfl⟩
    have closed : dropBlankEnd (front ++ (path ++ (back ++ ']' :: finish))) =
        front ++ (path ++ back) ++ [']'] :=
      dropBlankEnd_eq_iff.mpr ⟨(firm_of_solid (by decide)).behind (List.cons_ne_nil _ _), finish, hend, by simp⟩
    have trimmed : trim (front ++ (path ++ back)) = path :=
      trim_eq_iff.mpr ⟨head, firm, front, back, hf, hb, rfl⟩
    rw [bracketed?, closed, List.reverse_append]
    simp only [List.reverse_singleton, List.singleton_append, List.reverse_reverse, trimmed, if_neg oneLine]

/-- What follows a sign is found iff it is a threshold and a path. -/
theorem bounded?_eq_some : bounded? model sign c text = some shape ↔
    (shape.model = model ∧ shape.comparison = c) ∧ shape.Proper ∧
      ∃ s : Spacing, s.Blank ∧ text = sign ++ shape.behind s := by
  constructor
  · intro h
    unfold bounded? at h
    obtain ⟨rest, after, h⟩ := Option.bind_eq_some_iff.mp h
    simp only at h
    split at h
    · cases h
    · next ne =>
      obtain ⟨path, found, h⟩ := Option.bind_eq_some_iff.mp h
      cases h
      obtain ⟨bracketed, front, back, finish, hf, hb, hend, tail⟩ := bracketed?_eq_some.mp found
      obtain ⟨-, opening, ho, dropped⟩ := skipBlanks_eq_iff.mp tail
      obtain ⟨-, gap, hg, behind⟩ := skipBlanks_eq_iff.mp
        (List.takeWhile_append_dropWhile (p := isThresholdChar) (l := skipBlanks rest)).symm
      refine ⟨⟨rfl, rfl⟩, ⟨ne, fun d hd => List.mem_takeWhile_imp hd, bracketed⟩,
        ⟨[], [], gap, opening, front, back, finish⟩, ⟨blanks_nil, blanks_nil, hg, ho, hf, hb, hend⟩, ?_⟩
      rw [dropped] at behind
      rw [after?_eq_some.mp after]
      exact congrArg (sign ++ ·) behind
  · rintro ⟨⟨rfl, rfl⟩, proper, s, blank, rfl⟩
    have ends : (s.opening ++ shape.bracketed s).head?.all fun d => !isThresholdChar d := by
      cases opening : s.opening with
      | nil => rfl
      | cons d rest =>
        have blank : isBlank d = true := blank.opening d (opening ▸ List.mem_cons_self)
        simp [isThresholdChar, blank]
    obtain ⟨taken, left⟩ := takeWhile_append_of_head proper.token ends
    have start : skipBlanks (shape.behind s) = shape.threshold ++ (s.opening ++ shape.bracketed s) :=
      skipBlanks_eq_iff.mpr ⟨proper.head _, s.token, blank.token, rfl⟩
    have opened : skipBlanks (s.opening ++ shape.bracketed s) = shape.bracketed s :=
      skipBlanks_eq_iff.mpr ⟨all_head?_cons (by decide) _, s.opening, blank.opening, rfl⟩
    have path : bracketed? (shape.bracketed s) = some shape.path := bracketed?_eq_some.mpr
      ⟨proper.path, s.path, s.closing, s.finish, blank.path, blank.closing, blank.finish, rfl⟩
    rw [bounded?, after?_append]
    simp only [Option.bind_eq_bind, Option.bind_some, start, taken, left, if_neg proper.ne, opened, path]

/-- A shape is that of a text in which its parts stand between blanks. -/
theorem shape?_eq_some (h : shape? text = some shape) : shape.Proper ∧
    ∃ kind s, Kind shape.model kind ∧ Spacing.Blank s ∧ text = shape.chars kind s := by
  obtain ⟨⟨model, rest⟩, found, h⟩ := Option.bind_eq_some_iff.mp h
  have tried : ∃ c : Comparison, bounded? model c.sign.toList c (skipBlanks rest) = some shape := by
    simp only [Option.orElse_eq_orElse, Option.orElse_eq_or, Option.or_eq_some_iff] at h
    rcases h with h | ⟨-, h | ⟨-, h | ⟨-, h⟩⟩⟩
    · exact ⟨.lessEqual, h⟩
    · exact ⟨.greaterEqual, h⟩
    · exact ⟨.less, h⟩
    · exact ⟨.greater, h⟩
  obtain ⟨_, bounded⟩ := tried
  obtain ⟨⟨rfl, rfl⟩, proper, s, blank, signed⟩ := bounded?_eq_some.mp bounded
  obtain ⟨-, gap, hg, rfl⟩ := skipBlanks_eq_iff.mp signed
  obtain ⟨kind, written, start⟩ := kind?_eq_some.mp found
  obtain ⟨-, front, hf, rfl⟩ := skipBlanks_eq_iff.mp start
  exact ⟨proper, kind, { s with kind := front, sign := gap }, written,
    { blank with kind := hf, sign := hg }, rfl⟩

theorem bounded?_eq_none (model : Option (List Char)) (c : Comparison) (h : after? sign text = none) :
    bounded? model sign c text = none := by
  rw [bounded?, h]
  rfl

/-- **A text has the shape of the parts that stand in it between blanks**, if the threshold does not start
with an equality sign: then no sign is taken for a longer one. -/
theorem shape?_chars (proper : shape.Proper) (equals : shape.threshold.head? ≠ some '=')
    (written : Kind shape.model kind) (blank : s.Blank) : shape? (shape.chars kind s) = some shape := by
  have found : bounded? shape.model shape.comparison.sign.toList shape.comparison
      (shape.comparison.sign.toList ++ shape.behind s) = some shape :=
    bounded?_eq_some.mpr ⟨⟨rfl, rfl⟩, proper, s, blank, rfl⟩
  have longer (d : Char) : after? [d, '='] (d :: shape.behind s) = none := by
    have other : (shape.behind s).head? ≠ some '=' := by
      cases token : s.token with
      | nil =>
        rw [Shape.behind, token, List.nil_append, List.head?_append_of_ne_nil _ proper.ne]
        exact equals
      | cons e rest =>
        have first : isBlank e = true := blank.token e (token ▸ List.mem_cons_self)
        rw [Shape.behind, token]
        rintro ⟨⟩
        exact absurd first (by decide)
    rw [after?, if_pos rfl]
    cases behind : shape.behind s with
    | nil => rfl
    | cons e rest => exact after?_cons_of_ne fun same => other (by rw [behind, ← same]; rfl)
  have start : skipBlanks (shape.chars kind s) =
      kind ++ (s.sign ++ (shape.comparison.sign.toList ++ shape.behind s)) :=
    skipBlanks_eq_iff.mpr ⟨written.head _, s.kind, blank.kind, rfl⟩
  have signed : skipBlanks (s.sign ++ (shape.comparison.sign.toList ++ shape.behind s)) =
      shape.comparison.sign.toList ++ shape.behind s := by
    refine skipBlanks_eq_iff.mpr ⟨?_, s.sign, blank.sign, rfl⟩
    cases shape.comparison <;> exact all_head?_cons (by decide) _
  rw [shape?, start, kind?_eq_some.mpr ⟨kind, written, rfl⟩]
  simp only [Option.bind_eq_bind, Option.bind_some, signed]
  generalize shape.comparison = c at found ⊢
  cases c with
  | lessEqual =>
    rw [show Comparison.lessEqual.sign.toList = ['<', '='] from rfl] at found ⊢
    rw [found]
    rfl
  | greaterEqual =>
    rw [show Comparison.greaterEqual.sign.toList = ['>', '='] from rfl] at found ⊢
    rw [found, List.cons_append, bounded?_eq_none _ _ (after?_cons_of_ne (by decide : '<' ≠ '>'))]
    rfl
  | less =>
    rw [show Comparison.less.sign.toList = ['<'] from rfl] at found ⊢
    rw [found, List.singleton_append, bounded?_eq_none _ _ (longer '<'),
      bounded?_eq_none _ _ (after?_cons_of_ne (by decide : '>' ≠ '<'))]
    rfl
  | greater =>
    rw [show Comparison.greater.sign.toList = ['>'] from rfl] at found ⊢
    rw [found, List.singleton_append, bounded?_eq_none _ _ (longer '>'),
      bounded?_eq_none _ .lessEqual (after?_cons_of_ne (by decide : '<' ≠ '>')),
      bounded?_eq_none _ .less (after?_cons_of_ne (by decide : '<' ≠ '>'))]
    rfl

/-! ## Reading -/

/-- The parts of a text are those of a formula. -/
def Shape.Spells (shape : Shape) : Formula → Prop
  | .probability none target => shape.model = none ∧ eventually? shape.path = some target.toList
  | .probability (some constraint) target =>
    shape.model = none ∧ until? shape.path = some (constraint.toList, target.toList)
  | .reward model target =>
    shape.model = some model.toList ∧ eventually? shape.path = some target.toList

/-- The threshold is one that the formula can have. -/
structure Fair (p : Property Float) : Prop where
  finite : p.bound.threshold.isFinite = true
  nonneg : 0 ≤ p.bound.threshold
  le_one : p.formula.isReward = false → p.bound.threshold ≤ 1

theorem eventually?_of_until? {names : List Char × List Char} (h : until? path = some names) :
    eventually? path = none := by
  obtain ⟨-, -, _, _, -, -, -, -, rfl⟩ := until?_eq_some.mp h
  rfl

/-- **A property is read iff its parts are found and its threshold is fair.** -/
theorem read_eq_ok_iff {text : String} {p : Property Float} : read text = .ok p ↔
    p.Fair ∧ ∃ shape, shape? text.toList = some shape ∧ shape.comparison = p.bound.comparison ∧
      Decimal.readFloat shape.threshold = .ok p.bound.threshold ∧ shape.Spells p.formula := by
  constructor
  · intro h
    unfold read at h
    split at h
    · cases h
    · next shape hs =>
      simp only at h
      split at h
      · cases h
      · next threshold number =>
        split at h
        · cases h
        · next allowed =>
          obtain ⟨finite, nonneg⟩ : threshold.isFinite = true ∧ ¬ threshold < 0 := by
            simpa using allowed
          have nonneg := Rounding.le_of_not_lt (by decide +kernel) finite nonneg
          split at h
          · next model hm =>
            split at h
            · next target found =>
              cases h
              exact ⟨⟨finite, nonneg, by rintro ⟨⟩⟩, shape, hs, rfl, number, by simpa using hm,
                by simpa using found⟩
            · cases h
          · next hm =>
            split at h
            · cases h
            · next le =>
              have le := Rounding.le_of_not_lt finite (by decide +kernel) le
              split at h
              · next target _ _ found =>
                cases h
                exact ⟨⟨finite, nonneg, fun _ => le⟩, shape, hs, rfl, number, hm, by simpa using found⟩
              · next constraint target _ found =>
                cases h
                exact ⟨⟨finite, nonneg, fun _ => le⟩, shape, hs, rfl, number, hm, by simpa using found⟩
              · cases h
  · rintro ⟨fair, shape, hs, compared, number, spelled⟩
    obtain ⟨formula, c, threshold⟩ := p
    have nonneg := Scalar.Monotone.not_lt_of_le fair.nonneg
    simp only [read, hs, number, compared, fair.finite, nonneg, Bool.not_true, decide_false,
      Bool.or_self, Bool.false_eq_true, if_false]
    rcases formula with ⟨_ | constraint, target⟩ | ⟨model, target⟩
    · have le := Scalar.Monotone.not_lt_of_le (fair.le_one rfl)
      simp [spelled.1, spelled.2, le]
    · have le := Scalar.Monotone.not_lt_of_le (fair.le_one rfl)
      simp [spelled.1, spelled.2, le, eventually?_of_until? spelled.2]
    · simp [spelled.1, spelled.2]

/-! ## Properties that can be written -/

/-- A label that can be written: a name on one line. -/
def Label (label : String) : Prop :=
  Name label.toList ∧ '\n' ∉ label.toList

/-- A formula whose labels and names can be written. -/
def WritableFormula : Formula → Prop
  | .probability constraint target => (∀ label ∈ constraint, Label label) ∧ Label target
  | .reward model target => Name model.toList ∧ Label target

/-- A property that can be written. -/
structure Writable (p : Property Float) : Prop extends Fair p where
  formula : WritableFormula p.formula

/-- What follows the comparison in a written property. -/
def boundChars (token path : List Char) : List Char :=
  token ++ ' ' :: '[' :: (path ++ [']'])

/-- The kind of a formula in print. -/
def kindChars : Formula → List Char
  | .probability .. => ['P']
  | .reward model _ => 'R' :: '{' :: (inQuotes model.toList ++ ['}'])

/-- The path of a formula in print. -/
def pathChars : Formula → List Char
  | .probability none target => 'F' :: [' '] ++ inQuotes target.toList
  | .probability (some constraint) target =>
    inQuotes constraint.toList ++ ([' '] ++ 'U' :: ([' '] ++ inQuotes target.toList))
  | .reward _ target => 'F' :: [' '] ++ inQuotes target.toList

theorem toList_text (p : Property Float) : p.text.toList = kindChars p.formula ++
    (p.bound.comparison.sign.toList ++
      boundChars (numberText p.bound.threshold).toList (pathChars p.formula)) := by
  obtain ⟨formula, bound⟩ := p
  rcases formula with ⟨_ | constraint, target⟩ | ⟨model, target⟩ <;>
    simp [text, kindChars, pathChars, boundChars, toList_quoted]

theorem firm_inQuotes (name : List Char) : Firm (inQuotes name) := by
  refine Firm.behind (firm_of_solid ?_) (List.cons_ne_nil _ _)
  decide

theorem not_mem_inQuotes {name : List Char} (h : '\n' ∉ name) : '\n' ∉ inQuotes name := by
  simpa [inQuotes] using h

theorem bracketed_pathChars {f : Formula} (h : WritableFormula f) : Bracketed (pathChars f) := by
  rcases f with ⟨_ | constraint, target⟩ | ⟨model, target⟩
  · exact ⟨by simpa [pathChars] using not_mem_inQuotes h.2.2, all_head?_cons (by decide) _,
      (firm_inQuotes _).behind (List.cons_ne_nil _ _)⟩
  · obtain ⟨first, last⟩ := h
    have oneLine := not_mem_inQuotes (first constraint rfl).2
    have oneLine' := not_mem_inQuotes last.2
    refine ⟨by simp [pathChars, oneLine, oneLine'], all_head?_cons (by decide) _, ?_⟩
    rw [pathChars, ← List.cons_append, ← List.append_assoc, ← List.append_assoc]
    exact (firm_inQuotes _).behind (List.cons_ne_nil _ _)
  · exact ⟨by simpa [pathChars] using not_mem_inQuotes h.2.2, all_head?_cons (by decide) _,
      (firm_inQuotes _).behind (List.cons_ne_nil _ _)⟩

/-- The reward model of a formula in print. -/
def modelChars : Formula → Option (List Char)
  | .probability .. => none
  | .reward model _ => some model.toList

theorem kind_kindChars {f : Formula} (h : WritableFormula f) : Kind (modelChars f) (kindChars f) := by
  cases f with
  | probability constraint target => exact .probability
  | reward model target => exact .reward blanks_nil h.1 blanks_nil

theorem shape?_text {p : Property Float} (h : WritableFormula p.formula) : shape? p.text.toList =
    some ⟨modelChars p.formula, p.bound.comparison, (numberText p.bound.threshold).toList,
      pathChars p.formula⟩ := by
  have token : ∀ c ∈ (numberText p.bound.threshold).toList, isThresholdChar c = true := by
    intro c hc
    have other : c ≠ '[' := fun same => Drn.not_mem_numberText (by decide) (same ▸ hc)
    simp [isThresholdChar, Drn.solid_numberText _ c hc, other]
  have equals : (numberText p.bound.threshold).toList.head? ≠ some '=' :=
    fun head => Drn.not_mem_numberText (by decide) (List.mem_of_head? head)
  have space : Blanks [' '] := by decide
  have laid : p.text.toList = Shape.chars ⟨modelChars p.formula, p.bound.comparison,
      (numberText p.bound.threshold).toList, pathChars p.formula⟩ (kindChars p.formula)
        ⟨[], [], [], [' '], [], [], []⟩ := by
    rw [toList_text]
    simp [Shape.chars, Shape.behind, Shape.bracketed, boundChars]
  rw [laid]
  exact shape?_chars ⟨Drn.numberText_ne_nil _, token, bracketed_pathChars h⟩ equals (kind_kindChars h)
    ⟨blanks_nil, blanks_nil, blanks_nil, space, blanks_nil, blanks_nil, blanks_nil⟩

/-- A formula is found again in its parts. -/
theorem spells_pathChars {f : Formula} (h : WritableFormula f) {c : Comparison} {token : List Char} :
    Shape.Spells ⟨modelChars f, c, token, pathChars f⟩ f := by
  have space : [' '] ≠ [] ∧ Blanks [' '] := ⟨List.cons_ne_nil _ _, by decide⟩
  rcases f with ⟨_ | constraint, target⟩ | ⟨model, target⟩
  · exact ⟨rfl, eventually?_eq_some.mpr ⟨h.2.1, _, space.1, space.2, rfl⟩⟩
  · exact ⟨rfl, until?_eq_some.mpr
      ⟨(h.1 constraint rfl).1, h.2.1, _, _, space.1, space.2, space.1, space.2, rfl⟩⟩
  · exact ⟨rfl, eventually?_eq_some.mpr ⟨h.2.1, _, space.1, space.2, rfl⟩⟩

/-- A formula whose parts are found can be written. -/
theorem writableFormula_of_spells {f : Formula} {shape : Shape} (named : ∀ name ∈ shape.model, Name name)
    (oneLine : '\n' ∉ shape.path) (h : shape.Spells f) : WritableFormula f := by
  rcases f with ⟨_ | constraint, target⟩ | ⟨model, target⟩
  · obtain ⟨name, gap, -, -, path⟩ := eventually?_eq_some.mp h.2
    rw [path] at oneLine
    exact ⟨by rintro _ ⟨⟩, name, fun mem => oneLine (by simp [inQuotes, mem])⟩
  · obtain ⟨first, last, gap, gap', -, -, -, -, path⟩ := until?_eq_some.mp h.2
    rw [path] at oneLine
    refine ⟨?_, last, fun mem => oneLine (by simp [inQuotes, mem])⟩
    rintro _ ⟨⟩
    exact ⟨first, fun mem => oneLine (by simp [inQuotes, mem])⟩
  · obtain ⟨name, gap, -, -, path⟩ := eventually?_eq_some.mp h.2
    rw [path] at oneLine
    exact ⟨named _ h.1, name, fun mem => oneLine (by simp [inQuotes, mem])⟩

/-- What can be written is read back. -/
theorem Writable.read_text {p : Property Float} (h : p.Writable) : read p.text = .ok p := by
  have number : Decimal.readFloat (numberText p.bound.threshold).toList = .ok p.bound.threshold :=
    Decimal.readFloat_numberText
      (Rounding.isNaN_eq_false_iff.mpr (Rounding.ne_notANumber_of_isFinite h.finite))
  exact read_eq_ok_iff.mpr
    ⟨h.toFair, _, shape?_text h.formula, rfl, number, spells_pathChars h.formula⟩

/-- What is read can be written. -/
theorem writable_of_read {text : String} {p : Property Float} (h : read text = .ok p) : p.Writable := by
  obtain ⟨fair, shape, found, -, -, spelled⟩ := read_eq_ok_iff.mp h
  obtain ⟨proper, kind, -, written, -⟩ := shape?_eq_some found
  exact ⟨fair, writableFormula_of_spells written.named proper.path.oneLine spelled⟩

/-- **A property can be written iff its text is read as that property, and iff any text is.** -/
theorem writable_tfae (p : Property Float) :
    List.TFAE [p.Writable, read p.text = .ok p, ∃ text, read text = .ok p] := by
  tfae_have 1 → 2 := Writable.read_text
  tfae_have 2 → 3 := fun h => ⟨p.text, h⟩
  tfae_have 3 → 1 := fun ⟨_, h⟩ => writable_of_read h
  tfae_finish

/-- Labels may look like other parts of a property. -/
example : (read (Property.text ⟨.probability (some "a] <=1 [F b") "\x7bU\x7d ", ⟨.less, 0.5⟩⟩)).toOption =
    some ⟨.probability (some "a] <=1 [F b") "\x7bU\x7d ", ⟨.less, 0.5⟩⟩ := by
  decide +kernel

end Property

end HoleBlame
