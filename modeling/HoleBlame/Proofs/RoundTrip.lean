import HoleBlame.Proofs.Rereading
import HoleBlame.Proofs.Results

/-!
# Chains survive being written

The text of a chain is read back as a chain that runs like it (`Chain.RunsLike`), with the same labels,
if its labels can be told from what stands around them on the line of a state.  They stand there without
any marks, and three things can go wrong.

* Quotes at the ends of a label are dropped when it is read, and nothing is seen of an empty label.
* A chain without rewards has nothing in front of the labels, so a label that starts with a bracket may
  be taken for the reward (`Drn.bracketGroup?_labelChars`).
* The label of the initial state may stand on the line of a later state as well, which then is taken for
  the initial one.

If nothing of this happens (`Drn.Legible`), the labels that are read are those that were written
(`Drn.Legible.rereadLabels_eq`), and so are the rewards, since every number is read back from its text.
All else about the chain is read back in any case.
-/

namespace HoleBlame

variable {n : ℕ}

/-- The one chain runs like the other: from the same state, by the same transitions in the same order,
and with rewards of the same name and the same values.  Zeros of either sign are the same value. -/
structure Chain.RunsLike (c' c : Chain Float n) : Prop where
  initial : c'.initial = c.initial
  rows : c'.rows = c.rows
  reward : Option.Rel (fun m' m => m'.name = m.name ∧
    ∀ s, (m'.rewards.get s == m.rewards.get s) = true) c'.reward c.reward

/-- No reward is undefined. -/
def Chain.RewardsDefined (c : Chain Float n) : Prop :=
  ∀ model, c.reward = some model → ∀ s, (model.rewards.get s).isNaN = false

namespace Drn

open Text

variable {c : Chain Float n} {s : Fin n}

/-! ## Quotes -/

/-- The text neither starts nor ends with a quote. -/
def Bare (text : List Char) : Prop :=
  text.head? ≠ some '"' ∧ text.getLast? ≠ some '"'

instance (text : List Char) : Decidable (Bare text) :=
  inferInstanceAs (Decidable (_ ∧ _))

theorem unquoted_eq (label : List Char) :
    unquoted label = (label.dropWhile (· == '"')).rdropWhile (· == '"') := rfl

theorem unquoted_of_bare {label : List Char} (h : Bare label) : unquoted label = label := by
  have front : label.dropWhile (· == '"') = label := by
    cases label with
    | nil => rfl
    | cons d rest =>
      have first : d ≠ '"' := fun e => h.1 (congrArg some e)
      exact List.dropWhile_cons_of_neg (by simpa using first)
  rw [unquoted_eq, front, List.rdropWhile_eq_self_iff]
  intro ne quote
  apply h.2
  rw [List.getLast?_eq_getLast_of_ne_nil ne, eq_of_beq quote]

theorem length_unquoted_le (label : List Char) : (unquoted label).length ≤ label.length := by
  have back := (List.rdropWhile_prefix (· == '"') (label.dropWhile (· == '"'))).length_le
  exact back.trans (List.dropWhile_suffix (· == '"')).length_le

theorem bare_unquoted (label : List Char) : Bare (unquoted label) := by
  constructor
  · intro quote
    obtain ⟨others, ho⟩ := List.head?_eq_some_iff.mp quote
    obtain ⟨rest, hr⟩ := List.rdropWhile_prefix (· == '"') (label.dropWhile (· == '"'))
    have first := List.head?_dropWhile_not (· == '"') label
    rw [← hr, ← unquoted_eq, ho] at first
    simp at first
  · intro quote
    have ne : unquoted label ≠ [] := by
      intro nil
      rw [nil] at quote
      cases quote
    have last := List.rdropWhile_last_not (· == '"') (label.dropWhile (· == '"')) ne
    rw [List.getLast?_eq_getLast_of_ne_nil ne] at quote
    exact last (beq_iff_eq.mpr (Option.some.inj quote))

theorem solid_unquoted {label : List Char} (h : Solid label) : Solid (unquoted label) := by
  intro d hd
  rw [unquoted_eq] at hd
  have front := (List.rdropWhile_prefix (· == '"') _).subset hd
  exact h d ((List.dropWhile_suffix _).subset front)

theorem unquoted_ne_nil {label : List Char} (ne : label ≠ []) (last : label.getLast? ≠ some '"') :
    unquoted label ≠ [] := by
  intro nil
  rw [unquoted_eq, List.rdropWhile_eq_nil_iff] at nil
  have quotes : ∀ d ∈ label, d = '"' := by
    intro d hd
    have split : label.takeWhile (· == '"') ++ label.dropWhile (· == '"') = label :=
      List.takeWhile_append_dropWhile
    rw [← split] at hd
    rcases List.mem_append.mp hd with front | rest
    · simpa using List.mem_takeWhile_imp (p := (· == '"')) front
    · exact eq_of_beq (nil d rest)
  apply last
  rw [List.getLast?_eq_getLast_of_ne_nil ne, quotes _ (List.getLast_mem ne)]

/-! ## Brackets -/

/-- The first of the labels opens a bracket, and some label closes one. -/
def Bracketed (labels : List String) : Prop :=
  labels.head?.bind (·.toList.head?) = some '[' ∧ ∃ label ∈ labels, ']' ∈ label.toList

instance (labels : List String) : Decidable (Bracketed labels) :=
  inferInstanceAs (Decidable (_ ∧ _))

theorem bracketGroup?_spaced {label : List Char} {labels : List (List Char)} (ne : label ≠ [])
    (solid : Solid label) : bracketGroup? (spaced (label :: labels)) = none ↔
      ¬ (label.head? = some '[' ∧ ∃ other ∈ label :: labels, ']' ∈ other) := by
  obtain ⟨d, rest, rfl⟩ := List.exists_cons_of_ne_nil ne
  have first : isBlank d = false := solid d List.mem_cons_self
  rw [spaced_cons, List.cons_append, bracketGroup?_cons_cons isBlank_space, first,
    if_neg Bool.false_ne_true]
  have closes (hd : d = '[') :
      ']' ∈ rest ++ spaced labels ↔ ∃ other ∈ (d :: rest) :: labels, ']' ∈ other := by
    subst hd
    simp [spaced]
  by_cases bracket : d = '['
  · rw [if_pos bracket, upTo?_eq_none, closes bracket, bracket]
    simp
  · rw [if_neg bracket]
    simp [bracket]

/-- **Labels are taken for a reward** iff they look like one. -/
theorem bracketGroup?_labelChars (h : Writable c) (visible : "" ∉ writtenLabels c s) :
    bracketGroup? (labelChars c s) = none ↔ ¬ Bracketed (writtenLabels c s) := by
  have solid := solid_writtenLabels h s
  unfold labelChars
  cases labels : writtenLabels c s with
  | nil => simp [Bracketed, bracketGroup?, afterBlanks?]
  | cons label rest =>
    rw [labels] at visible solid
    have ne : label.toList ≠ [] := by
      intro nil
      have empty : label = "" := by simpa using nil
      exact visible (empty ▸ List.mem_cons_self)
    rw [List.map_cons, bracketGroup?_spaced ne (solid label.toList List.mem_cons_self)]
    simp [Bracketed]

/-! ## Rewards -/

/-- A reward is read back from its text. -/
theorem readReward_numberText {x : Float} (h : x.isNaN = false) :
    readReward (some (numberText x).toList) = .ok x := by
  have whole : (numberText x).toList.takeWhile (· != ',') = (numberText x).toList := by
    refine List.takeWhile_eq_self_iff.mpr fun d hd => ?_
    have absent : ',' ∉ (numberText x).toList := not_mem_numberText (by decide)
    exact bne_iff_ne.mpr fun e => absent (e ▸ hd)
  rw [readReward]
  simp only [whole, trim_of_solid (solid_numberText x), numberText_ne_nil, if_false, readNumber,
    Decimal.readFloat_numberText h]

theorem rereadReward_of_model (h : c.RewardsDefined) {model : RewardModel Float n}
    (hm : c.reward = some model) (s : Fin n) : rereadReward c s = .ok (model.rewards.get s) := by
  have group : (recognised c s).1 = some (numberText (model.rewards.get s)).toList := by
    rw [recognised, hm]
  rw [rereadReward, group, readReward_numberText (h model hm s)]

/-! ## What is read back -/

theorem words_labelChars (h : Writable c) (s : Fin n) :
    words (labelChars c s) = ((writtenLabels c s).map String.toList).filter (· ≠ []) := by
  have solid : Solid [] := fun _ hd => absurd hd List.not_mem_nil
  exact (words_append_spaced solid (solid_writtenLabels h s)).trans (List.filter_cons_of_neg (by simp))

/-- Without anything in brackets, the words on the line of a state are labels. -/
theorem recognised_labels (apart : c.reward = none → bracketGroup? (labelChars c s) = none) :
    (recognised c s).2 = words (labelChars c s) := by
  unfold recognised
  cases hr : c.reward with
  | some model => rfl
  | none => rw [apart hr]

/-- What is written can be told apart: the labels from quotes, from rewards, and from nothing, the
initial state from others that carry its label, and every reward from others. -/
structure Legible (c : Chain Float n) : Prop extends Writable c where
  names : c.labelling.names.Nodup
  bare : ∀ s, ∀ label ∈ writtenLabels c s, Bare label.toList
  visible : ∀ s, "" ∉ writtenLabels c s
  apart : c.reward = none → ∀ s, ¬ Bracketed (writtenLabels c s)
  marked : ∀ s, initLabel ∈ writtenLabels c s → s ≤ c.initial
  defined : c.RewardsDefined

namespace Legible

theorem bracketGroup?_eq_none (h : Legible c) (hr : c.reward = none) (s : Fin n) :
    bracketGroup? (labelChars c s) = none :=
  (bracketGroup?_labelChars h.toWritable (h.visible s)).mpr (h.apart hr s)

theorem exists_rereadReward (h : Legible c) (s : Fin n) : ∃ value, rereadReward c s = .ok value := by
  cases hr : c.reward with
  | some model => exact ⟨_, rereadReward_of_model h.defined hr s⟩
  | none =>
    refine ⟨0, ?_⟩
    rw [rereadReward, recognised, hr]
    simp only [h.bracketGroup?_eq_none hr s]
    rfl

/-- **The labels that are read back** are those that were written. -/
theorem rereadLabels_eq (h : Legible c) (s : Fin n) : rereadLabels c s = writtenLabels c s := by
  have seen : ∀ label ∈ (writtenLabels c s).map String.toList, decide (label ≠ []) = true := by
    intro label hl
    obtain ⟨name, hn, rfl⟩ := List.mem_map.mp hl
    have ne : name ≠ "" := fun empty => h.visible s (empty ▸ hn)
    simpa using ne
  rw [rereadLabels, recognised_labels fun none => h.bracketGroup?_eq_none none s,
    words_labelChars h.toWritable, List.filter_eq_self.mpr seen, List.map_map]
  refine (List.map_congr_left fun label hl => ?_).trans (List.map_id _)
  rw [Function.comp_apply, unquoted_of_bare (h.bare s label hl), String.ofList_toList, id]

theorem lastMarked_eq (h : Legible c) : lastMarked c (List.finRange n) none = some c.initial.val := by
  refine (lastMarked_eq_some (List.pairwise_lt_finRange n)).mpr
    ⟨c.initial, List.mem_finRange _, rfl, ?_, ?_⟩
  · rw [h.rereadLabels_eq]
    exact mem_writtenLabels.mpr (.inr ⟨rfl, rfl⟩)
  · intro t _ ht
    rw [h.rereadLabels_eq] at ht
    exact h.marked t ht

theorem read_write (h : Legible c) :
    read (write c).toUTF8.toList = .ok ⟨n, reread c c.initial⟩ :=
  (read_write_iff h.toWritable).mpr ⟨h.exists_rereadReward, c.initial, h.lastMarked_eq, rfl⟩

theorem runsLike (h : Legible c) : (reread c c.initial).RunsLike c where
  initial := rfl
  rows := rfl
  reward := by
    rw [reread]
    cases hr : c.reward with
    | none => exact .none
    | some model =>
      refine .some ⟨rfl, fun s => ?_⟩
      have value : rereadValue c s = model.rewards.get s := by
        rw [rereadValue, rereadReward_of_model h.defined hr]
        rfl
      rw [get_ofFn, value]
      exact Rounding.beq_add_zero (h.defined model hr s)

theorem has_reread_iff (h : Legible c) {label : String} :
    (reread c c.initial).labelling.has s label = true ↔
      c.labelling.has s label = true ∨ s = c.initial ∧ label = initLabel := by
  rw [has_reread, h.rereadLabels_eq, mem_writtenLabels, Labelling.mem_labelsOf]

end Legible

/-! ## Chains that can be printed -/

/-- A label that stands out on the line of a state. -/
structure Plain (label : String) : Prop where
  nonempty : label ≠ ""
  solid : Solid label.toList
  bare : Bare label.toList
  bracket : label.toList.head? ≠ some '['

instance (label : String) : Decidable (Plain label) :=
  decidable_of_iff (label ≠ "" ∧ Solid label.toList ∧ Bare label.toList ∧ label.toList.head? ≠ some '[')
    ⟨fun ⟨nonempty, solid, bare, bracket⟩ => ⟨nonempty, solid, bare, bracket⟩,
      fun ⟨nonempty, solid, bare, bracket⟩ => ⟨nonempty, solid, bare, bracket⟩⟩

/-- The names in the chain stand out in its text, only the initial state carries the label that marks it,
and the rewards are defined. -/
structure Printable (c : Chain Float n) : Prop where
  plain : ∀ s label, c.labelling.has s label = true → Plain label
  initial : ∀ s, c.labelling.has s initLabel = true → s = c.initial
  name : ∀ model, c.reward = some model → model.name ≠ "" ∧ Solid model.name.toList
  defined : c.RewardsDefined

/-- Labels that stand out do not look like a reward. -/
theorem not_bracketed {labels : List String} (h : ∀ label ∈ labels, Plain label) : ¬ Bracketed labels := by
  rintro ⟨opens, -⟩
  obtain ⟨label, first, bracket⟩ := Option.bind_eq_some_iff.mp opens
  exact (h label (List.mem_of_head? first)).bracket bracket

theorem legible_of_printable {d : Draft} {initial : ℕ} (built : d.finish initial = .ok ⟨n, c⟩)
    (size : n < 2 ^ 64) (h : Printable c) : Legible c := by
  have described := Draft.finish_eq_ok_iff.mp built
  have written (s : Fin n) : ∀ label ∈ writtenLabels c s, Plain label := by
    intro label hl
    rcases mem_writtenLabels.mp hl with carried | ⟨-, rfl⟩
    · exact h.plain s label (Labelling.mem_labelsOf.mp carried)
    · decide
  exact {
    size := size
    solid := fun s label hl => (written s label (mem_writtenLabels.mpr (.inl hl))).solid
    name := fun model hm => ⟨by simpa using (h.name model hm).1, (h.name model hm).2⟩
    valid := fun s e he => described.valid_row he
    sums := described.sums
    names := c.labelling.distinct
    bare := fun s label hl => (written s label hl).bare
    visible := fun s hl => (written s "" hl).nonempty rfl
    apart := fun _ s => not_bracketed (written s)
    marked := fun s hl => by
      rcases mem_writtenLabels.mp hl with carried | ⟨rfl, -⟩
      · exact le_of_eq (h.initial s (Labelling.mem_labelsOf.mp carried))
      · exact le_refl _
    defined := h.defined }

/-- **A chain survives being written.**  A chain that has been built, with names that stand out in a
text, is read back from its text as one that runs like it, with the same labels.  The label that marks
the initial state is added to it. -/
theorem read_write_of_printable {d : Draft} {initial : ℕ} (built : d.finish initial = .ok ⟨n, c⟩)
    (size : n < 2 ^ 64) (h : Printable c) :
    ∃ c' : Chain Float n, read (write c).toUTF8.toList = .ok ⟨n, c'⟩ ∧ c'.RunsLike c ∧
      (∀ s label, label ≠ initLabel → c'.labelling.has s label = c.labelling.has s label) ∧
        ∀ s, c'.labelling.has s initLabel = true ↔ s = c.initial := by
  have legible := legible_of_printable built size h
  refine ⟨reread c c.initial, legible.read_write, legible.runsLike, fun s label ne => ?_, fun s => ?_⟩
  · rw [Bool.eq_iff_iff, legible.has_reread_iff]
    exact or_iff_left fun marked => ne marked.2
  · rw [legible.has_reread_iff]
    exact ⟨fun has => has.elim (h.initial s) And.left, fun initial => .inr ⟨initial, rfl⟩⟩

/-- A coin is tossed until it shows heads. -/
def coinFacts : List Fact :=
  [.transition 0 0.5 1, .transition 0 0.5 0, .transition 1 1 1, .labelled 1 "heads",
    .reward "tosses" 0 1, .reward "tosses" 1 (-0)]

/-- The coin, fact by fact. -/
def coin : Draft :=
  coinFacts.foldl Draft.state (.ofSize 2)

/-- Heads are seen in one state, and the rewards are numbers. -/
theorem printable_coin {c : Chain Float 2} (built : coin.finish 0 = .ok ⟨2, c⟩) : Printable c := by
  have described := Draft.finish_eq_ok_iff.mp built
  have heads {s : Fin 2} {label : String} (h : c.labelling.has s label = true) : label = "heads" := by
    have records : coin.Records (.states 2 :: coinFacts) := (Draft.records_ofSize 2).foldl_state coinFacts
    rw [described.labelling, records.has_labelling (Nat.le_of_eq described.size)] at h
    simp only [coinFacts, List.mem_cons, Fact.labelled.injEq, reduceCtorEq, List.not_mem_nil, false_or,
      or_false] at h
    exact h.2
  refine ⟨fun s label h => ?_, fun s h => ?_, fun model h => ?_, fun model h => ?_⟩
  · obtain rfl := heads h
    decide
  · exact absurd (heads h) (by decide)
  · rw [described.reward] at h
    obtain rfl := Option.some.inj h
    decide
  · rw [described.reward] at h
    obtain rfl := Option.some.inj h
    decide +kernel

/-- The coin survives being written. -/
theorem read_write_coin : ∃ c : Chain Float 2, coin.finish 0 = .ok ⟨2, c⟩ ∧ 2 < 2 ^ 64 ∧
    Printable c ∧ ∃ c' : Chain Float 2, read (write c).toUTF8.toList = .ok ⟨2, c'⟩ ∧ c'.RunsLike c ∧
      (∀ s label, label ≠ initLabel → c'.labelling.has s label = c.labelling.has s label) ∧
        ∀ s, c'.labelling.has s initLabel = true ↔ s = c.initial := by
  have result : (coin.finish 0).toOption = some ⟨2, 0, #v[[⟨1, 0.5⟩, ⟨0, 0.5⟩], [⟨1, 1⟩]],
      (Labelling.empty 2).set "heads" (.ofList [1]), some ⟨"tosses", #v[1, -0]⟩⟩ := by decide +kernel
  have built := eq_ok_of_toOption result
  have size : 2 < 2 ^ 64 := by decide
  have printable := printable_coin built
  exact ⟨_, built, size, printable, read_write_of_printable built size printable⟩

end Drn

end HoleBlame
