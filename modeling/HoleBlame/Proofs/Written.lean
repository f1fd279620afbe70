import HoleBlame.Drn.Writer
import HoleBlame.Proofs.Numerals
import HoleBlame.Proofs.Scanning

/-!
# The lines of a written chain

`Drn.write` puts strings together, and the reader takes lines apart.  In between are the lines
themselves, as lists of characters (`Drn.writtenLines`, `Drn.toList_write`): a header, and for every
state its own line, the line of its action, and one for every transition.

Each line is recognised for what it is.  For actions and transitions that is all there is to say
(`Drn.bodyLine?_actionChars`, `Drn.bodyLine?_edgeChars`).  The line of a state ends with its labels, and
the reader looks for a reward in brackets before them.  If the chain has rewards, one stands there.  If
it has none, the labels may be taken for one, so what a state is recognised with (`Drn.recognised`) says
what becomes of such labels.
-/

namespace HoleBlame

namespace Drn

open Text

variable {c : Char} {text rest : List Char}

/-! ## Rewards in brackets -/

theorem bracketGroup?_of_not_blank (h : isBlank c = false) : bracketGroup? (c :: text) = none := by
  simp [bracketGroup?, afterBlanks?, h]

theorem bracketGroup?_singleton (c : Char) : bracketGroup? [c] = none := by
  cases h : isBlank c <;> simp [bracketGroup?, afterBlanks?, h, skipBlanks]

theorem bracketGroup?_cons_cons (h : isBlank c = true) (d : Char) (text : List Char) :
    bracketGroup? (c :: d :: text) = if isBlank d = true then bracketGroup? (d :: text)
      else if d = '[' then upTo? ']' text else none := by
  unfold bracketGroup?
  rw [afterBlanks?, if_pos h, afterBlanks?]
  cases hd : isBlank d with
  | true => simp [skipBlanks_cons_of_isBlank hd]
  | false =>
    rw [skipBlanks_cons hd, if_neg Bool.false_ne_true]
    by_cases bracket : d = '['
    · subst bracket
      rw [if_pos rfl]
      rfl
    · simp [bracket]

/-- What follows a text in brackets follows a closing bracket. -/
theorem exists_of_bracketGroup? {reward : List Char} (h : bracketGroup? text = some (reward, rest)) :
    ∃ before, text = before ++ ']' :: rest := by
  cases text with
  | nil => cases h
  | cons c text =>
    induction text generalizing c with
    | nil =>
      rw [bracketGroup?_singleton] at h
      cases h
    | cons d text ih =>
      cases hc : isBlank c with
      | false =>
        rw [bracketGroup?_of_not_blank hc] at h
        cases h
      | true =>
        rw [bracketGroup?_cons_cons hc] at h
        split at h
        · obtain ⟨before, hb⟩ := ih d h
          exact ⟨c :: before, by rw [hb, List.cons_append]⟩
        · split at h
          · obtain ⟨-, rfl⟩ := upTo?_eq_some.mp h
            exact ⟨c :: d :: reward, rfl⟩
          · cases h

theorem bracketGroup?_dropBlankEnd (text : List Char) : bracketGroup? (dropBlankEnd text) =
    (bracketGroup? text).map fun (reward, rest) => (reward, dropBlankEnd rest) := by
  cases text with
  | nil => rfl
  | cons c text =>
    cases hc : isBlank c with
    | false =>
      rw [dropBlankEnd_cons_of_not_blank hc, bracketGroup?_of_not_blank hc,
        bracketGroup?_of_not_blank hc]
      rfl
    | true =>
      induction text generalizing c with
      | nil =>
        rw [dropBlankEnd_cons, if_pos ⟨hc, rfl⟩, bracketGroup?_singleton]
        rfl
      | cons d text ih =>
        rw [bracketGroup?_cons_cons hc, dropBlankEnd_cons]
        cases hd : isBlank d with
        | true =>
          rw [if_pos rfl, ← ih d hd]
          split
          · next blank => rw [blank.2]
          · next blank =>
            have ne : ¬ (isBlank d = true ∧ dropBlankEnd text = []) := by
              intro h
              rw [dropBlankEnd_cons, if_pos h] at blank
              exact blank ⟨hc, rfl⟩
            rw [dropBlankEnd_cons, if_neg ne, bracketGroup?_cons_cons hc, if_pos hd]
        | false =>
          rw [dropBlankEnd_cons_of_not_blank hd, if_neg fun h => List.cons_ne_nil _ _ h.2,
            bracketGroup?_cons_cons hc, hd, if_neg Bool.false_ne_true, if_neg Bool.false_ne_true]
          split
          · exact upTo?_dropBlankEnd (by decide) text
          · rfl


/-! ## Pieces of a line -/

theorem isBlank_of_toNat {c : Char} (h : 33 ≤ c.toNat ∧ c.toNat ≤ 126) : isBlank c = false := by
  simp only [isBlank, inRanges, blankRanges, List.any_cons, List.any_nil, Bool.or_false,
    Bool.or_eq_false_iff, Bool.and_eq_false_iff, decide_eq_false_iff_not]
  omega

theorem isBlank_of_isDigit {c : Char} (h : c.isDigit = true) : isBlank c = false := by
  have range := Char.isDigit_iff_toNat.mp h
  exact isBlank_of_toNat ⟨Nat.le_trans (by decide) range.1, Nat.le_trans range.2 (by decide)⟩

theorem isDecimalDigit_of_isDigit {c : Char} (h : c.isDigit = true) : isDecimalDigit c = true := by
  have range := Char.isDigit_iff_toNat.mp h
  simp only [isDecimalDigit, inRanges, decimalDigitRanges, List.any_cons]
  rw [Bool.or_eq_true]
  left
  simpa using range

theorem solid_natDigits (k : ℕ) : Solid (Decimal.natDigits k) :=
  fun _ hc => isBlank_of_isDigit (Decimal.isDigit_of_mem_natDigits hc)

theorem isBlank_of_isNumeral {c : Char} (h : Decimal.isNumeral c = true) : isBlank c = false := by
  rcases Bool.or_eq_true_iff.mp h with digit | other
  · exact isBlank_of_isDigit digit
  · have all : Solid ['-', '.', 'i', 'n', 'f', 'N', 'a'] := by decide
    exact all c (of_decide_eq_true other)

theorem not_mem_numberText {x : Float} {c : Char} (h : Decimal.isNumeral c = false) :
    c ∉ (numberText x).toList := by
  intro mem
  rw [Decimal.isNumeral_of_mem_numberText mem] at h
  cases h

theorem numberText_ne_nil (x : Float) : (numberText x).toList ≠ [] := by
  cases h : x.isNaN with
  | true =>
    rw [numberText, if_pos h]
    decide
  | false =>
    obtain ⟨-, ⟨c, rest, text, -⟩, -⟩ := Decimal.exists_magnitudeText h
    rw [Decimal.toList_numberText h, text]
    split <;> simp

theorem solid_numberText (x : Float) : Solid (numberText x).toList :=
  fun _ hc => isBlank_of_isNumeral (Decimal.isNumeral_of_mem_numberText hc)

/-- Blanks at the end are dropped behind a word. -/
theorem dropBlankEnd_append_word {word : List Char} (h : Solid word) (ne : word ≠ [])
    (text rest : List Char) :
    dropBlankEnd (text ++ (word ++ rest)) = text ++ (word ++ dropBlankEnd rest) := by
  obtain nil | ⟨front, c, rfl⟩ := List.eq_nil_or_concat word
  · exact absurd nil ne
  · have last : isBlank c = false := h c (by simp)
    have drop := dropBlankEnd_append_cons last (text ++ front) rest
    simpa using drop

/-- A number is found in front of what starts with no digit. -/
theorem number?_natDigits (k : ℕ) (h : rest.head?.all fun c => !isDecimalDigit c) :
    number? (Decimal.natDigits k ++ rest) = some (Decimal.natDigits k, rest) := by
  have digits : ∀ c ∈ Decimal.natDigits k, isDecimalDigit c = true :=
    fun c hc => isDecimalDigit_of_isDigit (Decimal.isDigit_of_mem_natDigits hc)
  obtain ⟨run, stop⟩ := takeWhile_append_of_head digits h
  rw [number?, run, stop]
  exact if_neg (Decimal.natDigits_ne_nil k)

theorem skipBlanks_natDigits (k : ℕ) (rest : List Char) :
    skipBlanks (Decimal.natDigits k ++ rest) = Decimal.natDigits k ++ rest := by
  have solid := solid_natDigits k
  cases h : Decimal.natDigits k with
  | nil => exact absurd h (Decimal.natDigits_ne_nil k)
  | cons c digits =>
    rw [h] at solid
    exact skipBlanks_cons (solid c List.mem_cons_self)

theorem after?_natDigits {c : Char} {word : List Char} (hc : c.isDigit = false) (k : ℕ)
    (rest : List Char) : after? (c :: word) (Decimal.natDigits k ++ rest) = none := by
  cases h : Decimal.natDigits k with
  | nil => exact absurd h (Decimal.natDigits_ne_nil k)
  | cons d digits =>
    refine after?_cons_of_ne ?_
    rintro rfl
    have digit : c ∈ Decimal.natDigits k := h ▸ List.mem_cons_self
    rw [Decimal.isDigit_of_mem_natDigits digit] at hc
    cases hc

theorem word?_of_solid (h : Solid text) (ne : text ≠ []) : word? text = some (text, []) := by
  have all : ∀ c ∈ text, (!isBlank c) = true := fun c hc => by simp [h c hc]
  rw [word?, List.takeWhile_eq_self_iff.mpr all, List.dropWhile_eq_nil_iff.mpr all, if_neg ne]

/-! ## The lines of a chain -/

variable {n : ℕ} (c : Chain Float n) (s : Fin n)

/-- The labels on the line of a state. -/
def writtenLabels : List String :=
  let labels := c.labelling.labelsOf s
  if s = c.initial ∧ initLabel ∉ labels then initLabel :: labels else labels

/-- The reward on the line of a state. -/
def rewardChars : List Char :=
  match c.reward with
  | some model => ' ' :: '[' :: ((numberText (model.rewards.get s)).toList ++ [']'])
  | none => []

/-- The labels as they stand on the line of a state. -/
def labelChars : List Char :=
  spaced ((writtenLabels c s).map String.toList)

/-- The line of a state. -/
def stateChars : List Char :=
  ['s', 't', 'a', 't', 'e'] ++ (' ' :: (Decimal.natDigits s ++ (rewardChars c s ++ labelChars c s)))

/-- The line of the only action of a state. -/
def actionChars : List Char :=
  ['\t', 'a', 'c', 't', 'i', 'o', 'n', ' ', '0']

/-- The line of a transition. -/
def edgeChars (e : Edge Float n) : List Char :=
  '\t' :: '\t' :: (Decimal.natDigits e.next ++ (' ' :: ':' :: ' ' :: (numberText e.prob).toList))

/-- The lines of a state with its only action. -/
def blockChars : List (List Char) :=
  stateChars c s :: actionChars :: (c.row s).map edgeChars

/-- The lines of the header. -/
def headerChars : List (List Char) :=
  "@type: DTMC".toList :: ((match c.reward with
    | some model => ["@reward_models".toList, model.name.toList]
    | none => []) ++ ["@nr_states".toList, Decimal.natDigits n, "@model".toList])

/-- The lines of a chain. -/
def writtenLines : List (List Char) :=
  headerChars c ++ (List.finRange n).flatMap (blockChars c)

theorem toList_toString (k : ℕ) : (toString k).toList = Decimal.natDigits k :=
  Nat.toList_repr

theorem toList_stateText : (stateText c s).toList = stateChars c s ++ ['\n'] := by
  have labels (names : List String) :
      (String.join (names.map (" " ++ ·))).toList = spaced (names.map String.toList) := by
    rw [String.toList_join, List.flatMap_map, spaced, List.flatMap_map]
    congr 1
    funext name
    simp
  unfold stateText stateChars rewardChars labelChars writtenLabels
  simp only [String.toList_append, labels, toList_toString]
  cases c.reward <;> simp

theorem toList_edgeText (e : Edge Float n) : (edgeText e).toList = edgeChars e ++ ['\n'] := by
  simp only [edgeText, String.toList_append, toList_toString]
  simp [edgeChars]

theorem toList_blockText : (blockText c s).toList = (blockChars c s).flatMap (· ++ ['\n']) := by
  have edges : (String.join ((c.row s).map edgeText)).toList =
      ((c.row s).map edgeChars).flatMap (· ++ ['\n']) := by
    rw [String.toList_join, List.flatMap_map, List.flatMap_map]
    simp only [toList_edgeText]
  simp only [blockText, String.toList_append, toList_stateText, edges]
  simp [blockChars, actionChars]

theorem toList_headerText : (headerText c).toList = (headerChars c).flatMap (· ++ ['\n']) := by
  unfold headerText headerChars
  simp only [String.toList_append, toList_toString]
  cases c.reward <;> simp

/-- **The text of a chain has these lines.** -/
theorem toList_write : (write c).toList = (writtenLines c).flatMap (· ++ ['\n']) := by
  rw [write, writtenLines, String.toList_append, String.toList_join, toList_headerText,
    List.flatMap_append, List.flatMap_assoc, List.flatMap_map]
  simp only [toList_blockText]

/-! ## How they are recognised -/

/-- The reward and the labels for which the line of a state is taken.  Without a reward, labels may look
like one. -/
def recognised : Option (List Char) × List (List Char) :=
  match c.reward with
  | some model => (some (numberText (model.rewards.get s)).toList, words (labelChars c s))
  | none =>
    match bracketGroup? (labelChars c s) with
    | some (reward, rest) => (some reward, words rest)
    | none => (none, words (labelChars c s))

theorem trim_stateChars : trim (stateChars c s) = ['s', 't', 'a', 't', 'e'] ++
    (' ' :: (Decimal.natDigits s ++ dropBlankEnd (rewardChars c s ++ labelChars c s))) := by
  have drop := dropBlankEnd_append_word (solid_natDigits s) (Decimal.natDigits_ne_nil s)
    ['s', 't', 'a', 't', 'e', ' '] (rewardChars c s ++ labelChars c s)
  rw [trim_eq]
  exact (congrArg skipBlanks drop).trans (skipBlanks_cons (by decide))

/-- Nothing that follows the number of a state continues it. -/
theorem head_dropBlankEnd_line : (dropBlankEnd (rewardChars c s ++ labelChars c s)).head?.all
    (fun c => !isDecimalDigit c) = true := by
  have space : ∀ text, (dropBlankEnd (' ' :: text)).head?.all (fun c => !isDecimalDigit c) = true := by
    intro text
    rw [dropBlankEnd_cons]
    split <;> rfl
  unfold rewardChars labelChars
  cases c.reward with
  | some model => exact space _
  | none =>
    cases (writtenLabels c s).map String.toList with
    | nil => rfl
    | cons label labels => exact space _

theorem line_recognised : (match bracketGroup? (dropBlankEnd (rewardChars c s ++ labelChars c s)) with
    | some (reward, labels) => some (BodyLine.state (Decimal.natDigits s) (some reward) (words labels))
    | none => some (.state (Decimal.natDigits s) none
        (words (dropBlankEnd (rewardChars c s ++ labelChars c s))))) =
      some (.state (Decimal.natDigits s) (recognised c s).1 (recognised c s).2) := by
  unfold recognised rewardChars
  rw [bracketGroup?_dropBlankEnd]
  cases c.reward with
  | some model =>
    have absent : ']' ∉ (numberText (model.rewards.get s)).toList := not_mem_numberText (by decide)
    have group : bracketGroup? (' ' :: '[' :: ((numberText (model.rewards.get s)).toList ++ [']']) ++
        labelChars c s) = some ((numberText (model.rewards.get s)).toList, labelChars c s) := by
      rw [List.cons_append, List.cons_append, bracketGroup?_cons_cons isBlank_space,
        if_neg (by decide), if_pos rfl, List.append_assoc, List.singleton_append,
        upTo?_append_cons absent]
    simp only [group, Option.map_some, words_dropBlankEnd]
  | none =>
    simp only [List.nil_append]
    cases bracketGroup? (labelChars c s) with
    | some pair => simp only [Option.map_some, words_dropBlankEnd]
    | none => simp only [Option.map_none, words_dropBlankEnd]

/-- **The line of a state is recognised** with its number. -/
theorem bodyLine?_stateChars : bodyLine? (trim (stateChars c s)) =
    some (.state (Decimal.natDigits s) (recognised c s).1 (recognised c s).2) := by
  have line : stateLine? (trim (stateChars c s)) =
      some (.state (Decimal.natDigits s) (recognised c s).1 (recognised c s).2) := by
    rw [trim_stateChars, stateLine?, after?_append]
    simp only [Option.bind_eq_bind, Option.bind_some, afterBlanks?, isBlank_space, if_true,
      skipBlanks_natDigits, number?_natDigits s.val (head_dropBlankEnd_line c s)]
    exact line_recognised c s
  rw [bodyLine?, line]
  rfl

theorem bodyLine?_actionChars : bodyLine? (trim actionChars) = some (.action none) := by
  decide +kernel

theorem trim_edgeChars (e : Edge Float n) : trim (edgeChars e) =
    Decimal.natDigits e.next ++ (' ' :: ':' :: ' ' :: (numberText e.prob).toList) := by
  have drop := dropBlankEnd_append_word (solid_numberText e.prob) (numberText_ne_nil e.prob)
    ('\t' :: '\t' :: (Decimal.natDigits e.next ++ [' ', ':', ' '])) []
  have shape : edgeChars e = ('\t' :: '\t' :: (Decimal.natDigits e.next ++ [' ', ':', ' '])) ++
      ((numberText e.prob).toList ++ []) := by
    simp [edgeChars]
  rw [trim_eq, shape, drop]
  show skipBlanks ('\t' :: '\t' :: _) = _
  rw [skipBlanks_cons_of_isBlank (by decide), skipBlanks_cons_of_isBlank (by decide)]
  simpa [dropBlankEnd] using skipBlanks_natDigits e.next.val _

theorem bodyLine?_edgeChars (e : Edge Float n) : bodyLine? (trim (edgeChars e)) =
    some (.transition (Decimal.natDigits e.next) (numberText e.prob).toList) := by
  have other {c : Char} {word : List Char} (hc : c.isDigit = false) :
      after? (c :: word) (trim (edgeChars e)) = none := by
    rw [trim_edgeChars]
    exact after?_natDigits hc _ _
  have state : stateLine? (trim (edgeChars e)) = none := by
    rw [stateLine?, other (by decide)]
    rfl
  have action : actionLine? (trim (edgeChars e)) = none := by
    rw [actionLine?, other (by decide)]
    rfl
  have number : number? (trim (edgeChars e)) =
      some (Decimal.natDigits e.next, ' ' :: ':' :: ' ' :: (numberText e.prob).toList) := by
    rw [trim_edgeChars]
    exact number?_natDigits e.next.val rfl
  have word := word?_of_solid (solid_numberText e.prob) (numberText_ne_nil e.prob)
  have prob : skipBlanks (' ' :: (numberText e.prob).toList) = (numberText e.prob).toList := by
    rw [skipBlanks_cons_of_isBlank isBlank_space, skipBlanks_of_solid (solid_numberText e.prob)]
  rw [bodyLine?, state, action, transitionLine?, number]
  show (word? (skipBlanks (' ' :: (numberText e.prob).toList))).bind _ = _
  rw [prob, word]
  rfl

end Drn

end HoleBlame
