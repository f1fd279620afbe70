import HoleBlame.Proofs.PropertyText

/-!
# The grammar of properties

A text is read as a property iff it has a derivation (`Property.Derivation`): its parts are a kind, the sign of
a comparison, a threshold and a path in brackets, each of them behind blanks if need be, and the threshold is a
literal for a number that the property can have.  Nothing else is accepted.  A sign is never taken for a shorter
one in front of an equality sign, since no literal starts with that, and the path ends at the last bracket of
the text, whatever brackets stand in its labels.

The text has at most one derivation.  The recognisers find its parts, and so the parts of two derivations are
the same; what is left between them are blanks, and those end where a part begins (`Text.blanks_append_inj`).
-/

namespace HoleBlame

namespace Text

/-- Blanks end where a text begins that does not start with one. -/
theorem blanks_append_inj {gap gap' text text' : List Char} (h : Blanks gap) (h' : Blanks gap')
    (head : text.head?.all fun c => !isBlank c) (head' : text'.head?.all fun c => !isBlank c)
    (same : gap ++ text = gap' ++ text') : gap = gap' ∧ text = text' := by
  have text_eq : text = text' := calc
    text = skipBlanks (gap ++ text) := (skipBlanks_eq_iff.mpr ⟨head, gap, h, rfl⟩).symm
    _ = skipBlanks (gap' ++ text') := by rw [same]
    _ = text' := skipBlanks_eq_iff.mpr ⟨head', gap', h', rfl⟩
  subst text_eq
  exact ⟨List.append_cancel_right same, rfl⟩

end Text

open Text

namespace Property

/-! ## Derivations -/

/-- Blanks that set two parts apart. -/
def Gap (text : List Char) : Prop :=
  text ≠ [] ∧ Blanks text

/-- A formula as it is written, with the blanks that stand in it. -/
inductive Phrase where
  /-- Of a probability: `F "target"`. -/
  | eventually (gap target : List Char) (apart : Gap gap) (named : Name target)
  /-- Of a probability: `"constraint" U "target"`. -/
  | through (constraint gap gap' target : List Char) (named : Name constraint) (apart : Gap gap)
      (apart' : Gap gap') (named' : Name target)
  /-- Of the rewards of a model, which is named in braces: `F "target"`. -/
  | collected (before model after gap target : List Char) (opened : Blanks before) (named : Name model)
      (closed : Blanks after) (apart : Gap gap) (named' : Name target)

namespace Phrase

/-- The reward model. -/
def model : Phrase → Option (List Char)
  | eventually .. | through .. => none
  | collected _ model .. => some model

/-- What stands before the comparison. -/
def kind : Phrase → List Char
  | eventually .. | through .. => ['P']
  | collected before model after .. => 'R' :: '{' :: (before ++ (inQuotes model ++ (after ++ ['}'])))

/-- What stands between the brackets. -/
def path : Phrase → List Char
  | eventually gap target .. => 'F' :: gap ++ inQuotes target
  | through constraint gap gap' target .. => inQuotes constraint ++ (gap ++ 'U' :: (gap' ++ inQuotes target))
  | collected _ _ _ gap target .. => 'F' :: gap ++ inQuotes target

/-- What is measured. -/
def formula : Phrase → Formula
  | eventually _ target .. => .probability none (String.ofList target)
  | through constraint _ _ target .. => .probability (some (String.ofList constraint)) (String.ofList target)
  | collected _ model _ _ target .. => .reward (String.ofList model) (String.ofList target)

end Phrase

/-- How a text comes about that is a property. -/
structure Derivation where
  /-- The formula. -/
  phrase : Phrase
  /-- The comparison. -/
  comparison : Comparison
  /-- The text of the threshold. -/
  token : List Char
  /-- The number that it stands for. -/
  threshold : Float
  /-- The blanks between the parts. -/
  spacing : Spacing
  blank : spacing.Blank
  whole : ∀ c ∈ token, isBlank c = false ∧ c ≠ '['
  reads : Decimal.readFloat token = .ok threshold
  fair : Fair ⟨phrase.formula, comparison, threshold⟩
  oneLine : '\n' ∉ phrase.path

namespace Derivation

variable (d : Derivation)

/-- The parts that the recognisers tell apart. -/
def shape : Shape :=
  ⟨d.phrase.model, d.comparison, d.token, d.phrase.path⟩

/-- The text. -/
def chars : List Char :=
  d.shape.chars d.phrase.kind d.spacing

/-- The property. -/
def property : Property Float :=
  ⟨d.phrase.formula, d.comparison, d.threshold⟩

end Derivation

/-! ## Phrases -/

section Quotes

variable {name name' rest rest' : List Char}

theorem inQuotes_append_inj (h : Name name) (h' : Name name')
    (same : inQuotes name ++ rest = inQuotes name' ++ rest') : name = name' ∧ rest = rest' := by
  have found : quoted? (inQuotes name ++ rest) = some (name, rest) := quoted?_eq_some.mpr ⟨h, rfl⟩
  have found' : quoted? (inQuotes name ++ rest) = some (name', rest') := quoted?_eq_some.mpr ⟨h', same⟩
  exact Prod.mk.inj (Option.some.inj (found.symm.trans found'))

theorem inQuotes_inj (same : inQuotes name = inQuotes name') : name = name' := by
  simpa [inQuotes] using same

end Quotes

namespace Phrase

variable (f : Phrase)

theorem written : Kind f.model f.kind := by
  cases f with
  | eventually => exact .probability
  | through => exact .probability
  | collected before model after gap target opened named closed => exact .reward opened named closed

/-- The formula is spelt by its parts. -/
theorem spells (c : Comparison) (token : List Char) : Shape.Spells ⟨f.model, c, token, f.path⟩ f.formula := by
  cases f with
  | eventually gap target apart named =>
    refine ⟨rfl, eventually?_eq_some.mpr ?_⟩
    rw [String.toList_ofList]
    exact ⟨named, gap, apart.1, apart.2, rfl⟩
  | through constraint gap gap' target named apart apart' named' =>
    refine ⟨rfl, until?_eq_some.mpr ?_⟩
    rw [String.toList_ofList, String.toList_ofList]
    exact ⟨named, named', gap, gap', apart.1, apart.2, apart'.1, apart'.2, rfl⟩
  | collected before model after gap target opened named closed apart named' =>
    refine ⟨congrArg some String.toList_ofList.symm, eventually?_eq_some.mpr ?_⟩
    rw [String.toList_ofList]
    exact ⟨named', gap, apart.1, apart.2, rfl⟩

theorem head_path (rest : List Char) : (f.path ++ rest).head?.all fun c => !isBlank c := by
  cases f <;> exact all_head?_cons (by decide) _

theorem firm_path : Firm f.path := by
  cases f with
  | eventually gap target => exact (firm_inQuotes target).behind (List.cons_ne_nil _ _)
  | through constraint gap gap' target =>
    have last : Firm ('U' :: (gap' ++ inQuotes target)) := by
      rw [← List.cons_append]
      exact (firm_inQuotes target).behind (List.cons_ne_nil _ _)
    have ne : gap ++ 'U' :: (gap' ++ inQuotes target) ≠ [] :=
      List.append_ne_nil_of_right_ne_nil _ (List.cons_ne_nil _ _)
    exact (last.behind (List.cons_ne_nil _ _)).behind ne
  | collected before model after gap target => exact (firm_inQuotes target).behind (List.cons_ne_nil _ _)

/-- A formula whose parts are found is written as a phrase. -/
theorem exists_of_spells {formula : Formula} {shape : Shape} {kind : List Char}
    (written : Kind shape.model kind) (spelt : shape.Spells formula) : ∃ f : Phrase,
      f.formula = formula ∧ f.model = shape.model ∧ f.kind = kind ∧ f.path = shape.path := by
  obtain ⟨model, c, token, path⟩ := shape
  rcases formula with ⟨_ | constraint, target⟩ | ⟨name, target⟩
  · obtain ⟨rfl, found⟩ := spelt
    obtain ⟨named, gap, ne, blanks, rfl⟩ := eventually?_eq_some.mp found
    cases written
    exact ⟨.eventually gap target.toList ⟨ne, blanks⟩ named, by simp [formula], rfl, rfl, rfl⟩
  · obtain ⟨rfl, found⟩ := spelt
    obtain ⟨named, named', gap, gap', ne, blanks, ne', blanks', rfl⟩ := until?_eq_some.mp found
    cases written
    exact ⟨.through constraint.toList gap gap' target.toList named ⟨ne, blanks⟩ ⟨ne', blanks'⟩ named',
      by simp [formula], rfl, rfl, rfl⟩
  · obtain ⟨rfl, found⟩ := spelt
    obtain ⟨named', gap, ne, blanks, rfl⟩ := eventually?_eq_some.mp found
    cases written with
    | @reward before _ after opened named closed =>
      exact ⟨.collected before name.toList after gap target.toList opened named closed ⟨ne, blanks⟩ named',
        by simp [formula], rfl, rfl, rfl⟩

/-- A phrase is known from its parts. -/
theorem eq_of_parts {f f' : Phrase} (kind : f.kind = f'.kind) (path : f.path = f'.path) : f = f' := by
  have eventually {gap gap' target target' : List Char} (apart : Gap gap) (apart' : Gap gap')
      (path : 'F' :: gap ++ inQuotes target = 'F' :: gap' ++ inQuotes target') :
      gap = gap' ∧ target = target' := by
    obtain ⟨rfl, quotes⟩ := blanks_append_inj apart.2 apart'.2 (head_inQuotes target)
      (head_inQuotes target') (List.cons.inj path).2
    exact ⟨rfl, inQuotes_inj quotes⟩
  cases f with
  | eventually gap target apart named =>
    cases f' with
    | eventually gap' target' apart' named' =>
      obtain ⟨rfl, rfl⟩ := eventually apart apart' path
      rfl
    | through => cases path
    | collected => cases kind
  | through constraint gap gap₁ target named apart apart₁ named₁ =>
    cases f' with
    | eventually => cases path
    | through constraint' gap' gap₁' target' named' apart' apart₁' named₁' =>
      obtain ⟨rfl, behind⟩ := inQuotes_append_inj named named' path
      obtain ⟨rfl, letter⟩ := blanks_append_inj apart.2 apart'.2 (all_head?_cons (by decide) _)
        (all_head?_cons (by decide) _) behind
      obtain ⟨rfl, quotes⟩ := blanks_append_inj apart₁.2 apart₁'.2 (head_inQuotes target)
        (head_inQuotes target') (List.cons.inj letter).2
      obtain rfl := inQuotes_inj quotes
      rfl
    | collected => cases kind
  | collected before model after gap target opened named closed apart named₁ =>
    cases f' with
    | eventually => cases kind
    | through => cases kind
    | collected before' model' after' gap' target' opened' named' closed' apart' named₁' =>
      obtain ⟨rfl, rfl⟩ := eventually apart apart' path
      have braces := (List.cons.inj (List.cons.inj kind).2).2
      obtain ⟨rfl, quotes⟩ := blanks_append_inj opened opened' (all_head?_cons (by decide) _)
        (all_head?_cons (by decide) _) braces
      obtain ⟨rfl, behind⟩ := inQuotes_append_inj named named' quotes
      obtain ⟨rfl, -⟩ := blanks_append_inj closed closed' (all_head?_cons (by decide) [])
        (all_head?_cons (by decide) []) behind
      rfl

end Phrase

/-! ## One layout of the parts -/

theorem head_sign (c : Comparison) (rest : List Char) :
    (c.sign.toList ++ rest).head?.all fun c => !isBlank c := by
  cases c <;> exact all_head?_cons (by decide) _

/-- The parts of a shape stand in a text in one way only, unless its path is empty. -/
theorem Shape.chars_inj {shape : Shape} {kind kind' : List Char} {s s' : Spacing} (proper : shape.Proper)
    (path : ∀ rest, (shape.path ++ rest).head?.all fun c => !isBlank c) (written : Kind shape.model kind)
    (written' : Kind shape.model kind') (blank : s.Blank) (blank' : s'.Blank)
    (same : shape.chars kind s = shape.chars kind' s') : kind = kind' ∧ s = s' := by
  obtain ⟨front, start⟩ := blanks_append_inj blank.kind blank'.kind (written.head _) (written'.head _) same
  have after : s.sign ++ (shape.comparison.sign.toList ++ shape.behind s) =
      s'.sign ++ (shape.comparison.sign.toList ++ shape.behind s') :=
    (Prod.mk.inj (Option.some.inj ((kind?_eq_some.mpr ⟨kind, written, rfl⟩).symm.trans
      (kind?_eq_some.mpr ⟨kind', written', start⟩)))).2
  obtain rfl : kind = kind' := List.append_cancel_right (after ▸ start)
  obtain ⟨sign, signed⟩ := blanks_append_inj blank.sign blank'.sign (head_sign _ _) (head_sign _ _) after
  obtain ⟨token, number⟩ := blanks_append_inj blank.token blank'.token (proper.head _) (proper.head _)
    (List.append_cancel_left signed)
  obtain ⟨opening, opened⟩ := blanks_append_inj blank.opening blank'.opening (all_head?_cons (by decide) _)
    (all_head?_cons (by decide) _) (List.append_cancel_left number)
  obtain ⟨inner, inside⟩ := blanks_append_inj blank.path blank'.path (path _) (path _)
    (List.cons.inj opened).2
  obtain ⟨closing, closed⟩ := blanks_append_inj blank.closing blank'.closing (all_head?_cons (by decide) _)
    (all_head?_cons (by decide) _) (List.append_cancel_left inside)
  have finish := (List.cons.inj closed).2
  cases s
  cases s'
  refine ⟨rfl, ?_⟩
  rw [Spacing.mk.injEq]
  exact ⟨front, sign, token, opening, inner, closing, finish⟩

/-! ## What is derived -/

namespace Derivation

variable (d : Derivation)

theorem proper : d.shape.Proper where
  ne := Decimal.ne_nil_of_readFloat d.reads
  token c hc := by simp [isThresholdChar, d.whole c hc]
  path := by
    have head := d.phrase.head_path []
    rw [List.append_nil] at head
    exact ⟨d.oneLine, head, d.phrase.firm_path⟩

/-- The recognisers find the parts of a derivation. -/
theorem shape?_eq : shape? d.chars = some d.shape := by
  have equals : d.token.head? ≠ some '=' :=
    fun head => Decimal.not_mem_of_readFloat d.reads (by decide) (List.mem_of_head? head)
  exact shape?_chars d.proper equals d.phrase.written d.blank

/-- What is derived is read. -/
theorem read_eq {text : String} (h : d.chars = text.toList) : read text = .ok d.property :=
  read_eq_ok_iff.mpr ⟨d.fair, d.shape, h ▸ d.shape?_eq, rfl, d.reads, d.phrase.spells _ _⟩

/-- What is read has a derivation. -/
theorem exists_of_read {text : String} {p : Property Float} (h : read text = .ok p) :
    ∃ d : Derivation, d.chars = text.toList ∧ d.property = p := by
  obtain ⟨fair, shape, found, compared, reads, spelt⟩ := read_eq_ok_iff.mp h
  obtain ⟨proper, kind, s, written, blank, laid⟩ := shape?_eq_some found
  obtain ⟨f, formula, model, rfl, path⟩ := Phrase.exists_of_spells written spelt
  have whole : ∀ c ∈ shape.threshold, isBlank c = false ∧ c ≠ '[' := by
    intro c hc
    simpa [isThresholdChar] using proper.token c hc
  have property : (⟨f.formula, shape.comparison, p.bound.threshold⟩ : Property Float) = p := by
    rw [formula, compared]
  have oneLine : '\n' ∉ f.path := by
    rw [path]
    exact proper.path.oneLine
  refine ⟨⟨f, shape.comparison, shape.threshold, p.bound.threshold, s, blank, whole, reads,
    property ▸ fair, oneLine⟩, ?_, property⟩
  rw [laid, chars, Derivation.shape]
  simp only [model, path]

/-- **A text has one derivation at most.** -/
theorem eq_of_chars {d d' : Derivation} (same : d.chars = d'.chars) : d = d' := by
  have shape : d.shape = d'.shape := Option.some.inj (d.shape?_eq.symm.trans (same ▸ d'.shape?_eq))
  have written' : Kind d.shape.model d'.phrase.kind := shape ▸ d'.phrase.written
  have chars : d.shape.chars d.phrase.kind d.spacing = d.shape.chars d'.phrase.kind d'.spacing :=
    same.trans (by rw [shape]; rfl)
  -- The kind of a model's rewards may have blanks in its braces, which the shape does not tell.
  obtain ⟨kind, spacing⟩ :=
    Shape.chars_inj d.proper d.phrase.head_path d.phrase.written written' d.blank d'.blank chars
  obtain ⟨f, c, token, x, s, blank, whole, reads, fair, oneLine⟩ := d
  obtain ⟨f', c', token', x', s', blank', whole', reads', fair', oneLine'⟩ := d'
  obtain ⟨-, rfl, rfl, path⟩ := Shape.mk.inj shape
  obtain rfl : x = x' := Except.ok.inj (reads.symm.trans reads')
  obtain rfl := Phrase.eq_of_parts kind path
  obtain rfl := spacing
  rfl

end Derivation

/-- **The parser accepts exactly its grammar.**  A property is read from a text iff the text has a derivation
with the parts of that property, and no text has two derivations. -/
theorem read_iff_derivation (text : String) :
    (∀ p, read text = .ok p ↔ ∃ d : Derivation, d.chars = text.toList ∧ d.property = p) ∧
      ∀ d d' : Derivation, d.chars = text.toList → d'.chars = text.toList → d = d' := by
  refine ⟨fun p => ⟨Derivation.exists_of_read, ?_⟩, fun d d' h h' => ?_⟩
  · rintro ⟨d, h, rfl⟩
    exact d.read_eq h
  · exact Derivation.eq_of_chars (h.trans h'.symm)

/-- Labels may look like the end of a path, and the blanks of a text are part of its derivation. -/
theorem read_iff_derivation_collected : ∃ d : Derivation,
    d.chars = " R\x7b \"a]\"\x7d >=\n1e-1[\tF  \"b [\" ] ".toList ∧
      d.property = ⟨.reward "a]" "b [", ⟨.greaterEqual, 0.1⟩⟩ ∧
        ∀ d' : Derivation, d'.chars = " R\x7b \"a]\"\x7d >=\n1e-1[\tF  \"b [\" ] ".toList → d' = d := by
  have read : read " R\x7b \"a]\"\x7d >=\n1e-1[\tF  \"b [\" ] " =
      .ok ⟨.reward "a]" "b [", ⟨.greaterEqual, 0.1⟩⟩ :=
    eq_ok_of_toOption (by decide +kernel)
  obtain ⟨d, chars, property⟩ := ((read_iff_derivation _).1 _).mp read
  exact ⟨d, chars, property, fun d' chars' => (read_iff_derivation _).2 d' d chars' chars⟩

end Property

end HoleBlame
