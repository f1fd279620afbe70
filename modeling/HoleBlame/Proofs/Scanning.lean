import Mathlib.Data.List.Basic
import Mathlib.Data.List.DropRight
import Mathlib.Tactic.SplitIfs
import HoleBlame.Proofs.Pieces
import HoleBlame.Text.Scan

/-!
# What scanning finds in a text

A file is read in two steps: bytes are cut into lines, and lines are scanned from the left.  For each
piece of the scanner this module says what it finds in a text that has been put together from parts.

* The lines of a file are those that were written to it (`lines_toUTF8`), if none of them has a line
  feed in it or ends in a carriage return.  No byte of a character is a line feed, unless the character
  is one.
* Blanks at the end of a line make no difference to the scanner: words, and what stands before and
  behind a character, are the same without them.
* The words behind a word, each set off by a space, are found again (`words_append_spaced`), and a
  character that is looked for stands in one of them (`exists_of_spaced_eq`).
-/

namespace HoleBlame.Text

/-! ## Lines -/

/-- The bytes of a text. -/
def bytesOf (text : List Char) : List UInt8 :=
  text.flatMap String.utf8EncodeChar

theorem toList_loop (bytes : ByteArray) {k i : ℕ} (h : i + k = bytes.size) (read : List UInt8) :
    ByteArray.toList.loop bytes i read = read.reverse ++ bytes.data.toList.drop i := by
  have length : bytes.data.toList.length = bytes.size := Array.length_toList
  induction k generalizing i read with
  | zero =>
    rw [ByteArray.toList.loop, if_neg (by omega), List.drop_of_length_le (by omega), List.append_nil]
  | succ k ih =>
    have lt : i < bytes.size := by omega
    have get : bytes.get! i = bytes.data[i] := getElem!_pos bytes.data i lt
    have drop : bytes.data.toList.drop i = bytes.data[i] :: bytes.data.toList.drop (i + 1) :=
      List.drop_eq_getElem_cons (length ▸ lt)
    rw [ByteArray.toList.loop, if_pos lt, ih (by omega), get, drop, List.reverse_cons,
      List.append_assoc]
    rfl

theorem toList_toUTF8 (s : String) : s.toUTF8.toList = bytesOf s.toList := by
  have encoded : s.toUTF8 = (bytesOf s.toList).toByteArray := by
    conv => lhs; rw [← String.ofList_toList (s := s)]
    rfl
  calc s.toUTF8.toList = s.toUTF8.data.toList := toList_loop s.toUTF8 (Nat.zero_add _) []
    _ = bytesOf s.toList := by rw [encoded, List.toList_data_toByteArray]

theorem ten_not_mem_utf8EncodeChar {c : Char} (h : c ≠ '\n') : 10 ∉ String.utf8EncodeChar c := by
  have value : c.val.toNat ≠ 10 := fun e => h (Char.ext (UInt32.toNat_inj.mp e))
  have byte {k : ℕ} (hk : k < 256) (ne : k ≠ 10) : (10 : UInt8) ≠ UInt8.ofNat k := by
    intro e
    have := congrArg UInt8.toNat e
    rw [UInt8.toNat_ofNat_of_lt' hk] at this
    exact ne this.symm
  unfold String.utf8EncodeChar
  simp only
  split_ifs with one two three <;>
    simp only [List.mem_cons, List.not_mem_nil, or_false, not_or]
  · exact byte (by omega) value
  · exact ⟨byte (by omega) (by omega), byte (by omega) (by omega)⟩
  · exact ⟨byte (by omega) (by omega), byte (by omega) (by omega), byte (by omega) (by omega)⟩
  · exact ⟨byte (by omega) (by omega), byte (by omega) (by omega), byte (by omega) (by omega),
      byte (by omega) (by omega)⟩

theorem ten_not_mem_bytesOf {text : List Char} (h : '\n' ∉ text) : 10 ∉ bytesOf text := by
  intro mem
  obtain ⟨c, hc, byte⟩ := List.mem_flatMap.mp mem
  exact ten_not_mem_utf8EncodeChar (fun e => h (e ▸ hc)) byte

theorem piecesFrom_append {bytes : List UInt8} (h : 10 ∉ bytes) (done : List (List UInt8))
    (current rest : List UInt8) :
    piecesFrom done current (bytes ++ 10 :: rest) =
      piecesFrom ((current.reverse ++ bytes ++ [10]) :: done) [] rest := by
  induction bytes generalizing current with
  | nil => simp [piecesFrom]
  | cons b others ih =>
    obtain ⟨first, others⟩ := not_or.mp (List.mem_cons.not.mp h)
    rw [List.cons_append, piecesFrom, if_neg (Ne.symm first), ih others]
    simp

/-- Texts are cut where each of them ends. -/
theorem piecesFrom_bytesOf {texts : List (List Char)} (h : ∀ text ∈ texts, '\n' ∉ text)
    (done : List (List UInt8)) :
    piecesFrom done [] (bytesOf (texts.flatMap (· ++ ['\n']))) =
      done.reverse ++ texts.map fun text => bytesOf (text ++ ['\n']) := by
  induction texts generalizing done with
  | nil => simp [bytesOf, piecesFrom]
  | cons text rest ih =>
    obtain ⟨first, others⟩ := List.forall_mem_cons.mp h
    have split : bytesOf ((text :: rest).flatMap (· ++ ['\n'])) =
        bytesOf text ++ 10 :: bytesOf (rest.flatMap (· ++ ['\n'])) := by
      simp only [bytesOf, List.flatMap_cons, List.flatMap_append, List.append_assoc]
      rfl
    have ended : bytesOf (text ++ ['\n']) = bytesOf text ++ [10] := by
      simp only [bytesOf, List.flatMap_append]
      rfl
    rw [split, piecesFrom_append (ten_not_mem_bytesOf first), ih others, List.map_cons, ended]
    simp

theorem toByteArray_ofList (text : List Char) :
    (String.ofList text).toByteArray = ⟨(bytesOf text).toArray⟩ :=
  ByteArray.ext (Array.toList_inj.mp List.toList_data_toByteArray)

theorem lineText?_bytesOf (text : List Char) : lineText? (bytesOf text) = some (dropLineEnd text) := by
  unfold lineText? String.fromUTF8?
  rw [← toByteArray_ofList, dif_pos (String.ofList text).isValidUTF8]
  show some (dropLineEnd (String.ofList text).toList) = _
  rw [String.toList_ofList]

theorem dropLineEnd_append {text : List Char} (h : text.getLast? ≠ some '\r') :
    dropLineEnd (text ++ ['\n']) = text := by
  unfold dropLineEnd
  rw [List.reverse_append, List.reverse_singleton, List.singleton_append]
  split
  · next heq =>
    obtain ⟨-, heq⟩ := List.cons.inj heq
    rw [← List.head?_reverse, heq] at h
    exact absurd rfl h
  · next heq =>
    obtain ⟨-, heq⟩ := List.cons.inj heq
    rw [← heq, List.reverse_reverse]
  · next _ ne => exact absurd rfl (ne _)

theorem readable_bytesOf {texts : List (List Char)}
    (h : ∀ text ∈ texts, text.getLast? ≠ some '\r') :
    readable (texts.map fun text => bytesOf (text ++ ['\n'])) = texts := by
  induction texts with
  | nil => rfl
  | cons text rest ih =>
    obtain ⟨first, others⟩ := List.forall_mem_cons.mp h
    simp only [List.map_cons, readable, lineText?_bytesOf, dropLineEnd_append first, ih others]

/-- **A file has the lines that were written to it.** -/
theorem lines_toUTF8 {s : String} {texts : List (List Char)}
    (hs : s.toList = texts.flatMap (· ++ ['\n']))
    (h : ∀ text ∈ texts, '\n' ∉ text ∧ text.getLast? ≠ some '\r') :
    lines s.toUTF8.toList = numberFrom 1 texts := by
  rw [lines_eq, toList_toUTF8, hs, pieces, piecesFrom_bytesOf fun text ht => (h text ht).1,
    List.reverse_nil, List.nil_append, readable_bytesOf fun text ht => (h text ht).2]

/-! ## Blanks -/

/-- No character is a blank. -/
def Solid (text : List Char) : Prop :=
  ∀ c ∈ text, isBlank c = false

instance (text : List Char) : Decidable (Solid text) :=
  List.decidableBAll (isBlank · = false) text

variable {text rest : List Char} {c stop : Char}

@[simp] theorem isBlank_space : isBlank ' ' = true := by decide

theorem skipBlanks_cons (h : isBlank c = false) : skipBlanks (c :: text) = c :: text :=
  List.dropWhile_cons_of_neg (by simp [h])

theorem skipBlanks_cons_of_isBlank (h : isBlank c = true) : skipBlanks (c :: text) = skipBlanks text :=
  List.dropWhile_cons_of_pos h

theorem dropBlankEnd_eq (text : List Char) : dropBlankEnd text = text.rdropWhile isBlank := rfl

theorem dropBlankEnd_cons (c : Char) (text : List Char) : dropBlankEnd (c :: text) =
    if isBlank c = true ∧ dropBlankEnd text = [] then [] else c :: dropBlankEnd text := by
  induction text using List.reverseRecOn with
  | nil =>
    rw [dropBlankEnd_eq, List.rdropWhile_singleton]
    simp [dropBlankEnd]
  | append_singleton text d ih =>
    rw [dropBlankEnd_eq, dropBlankEnd_eq, ← List.cons_append]
    cases hd : isBlank d with
    | true =>
      rw [List.rdropWhile_concat_pos _ _ _ hd, List.rdropWhile_concat_pos _ _ _ hd]
      exact ih
    | false =>
      rw [List.rdropWhile_concat_neg _ _ _ (by simp [hd]),
        List.rdropWhile_concat_neg _ _ _ (by simp [hd])]
      simp

theorem dropBlankEnd_cons_of_not_blank (h : isBlank c = false) :
    dropBlankEnd (c :: text) = c :: dropBlankEnd text := by
  rw [dropBlankEnd_cons, if_neg (by simp [h])]

theorem dropBlankEnd_of_solid (h : Solid text) : dropBlankEnd text = text := by
  induction text with
  | nil => rfl
  | cons c rest ih =>
    obtain ⟨first, others⟩ := List.forall_mem_cons.mp h
    rw [dropBlankEnd_cons_of_not_blank first, ih others]

/-- Blanks at the end are dropped behind the last character that is none. -/
theorem dropBlankEnd_append_cons (h : isBlank c = false) (text rest : List Char) :
    dropBlankEnd (text ++ c :: rest) = text ++ c :: dropBlankEnd rest := by
  induction text with
  | nil => exact dropBlankEnd_cons_of_not_blank h
  | cons d text ih =>
    rw [List.cons_append, dropBlankEnd_cons, ih, if_neg (by simp)]
    rfl

theorem skipBlanks_dropBlankEnd (text : List Char) :
    skipBlanks (dropBlankEnd text) = dropBlankEnd (skipBlanks text) := by
  induction text with
  | nil => rfl
  | cons c rest ih =>
    cases hc : isBlank c with
    | true =>
      rw [skipBlanks_cons_of_isBlank hc, ← ih, dropBlankEnd_cons]
      split
      · next h => rw [h.2]
      · rw [skipBlanks_cons_of_isBlank hc]
    | false => rw [skipBlanks_cons hc, dropBlankEnd_cons_of_not_blank hc, skipBlanks_cons hc]

theorem trim_eq (text : List Char) : trim text = skipBlanks (dropBlankEnd text) :=
  (skipBlanks_dropBlankEnd text).symm

theorem skipBlanks_of_solid (h : Solid text) : skipBlanks text = text := by
  cases text with
  | nil => rfl
  | cons c text => exact skipBlanks_cons (h c List.mem_cons_self)

theorem trim_of_solid (h : Solid text) : trim text = text := by
  rw [trim_eq, dropBlankEnd_of_solid h, skipBlanks_of_solid h]

/-- Texts that are split at a character that is no blank are split in the same way without the blanks
at their end. -/
theorem upTo?_dropBlankEnd (h : isBlank stop = false) (text : List Char) :
    upTo? stop (dropBlankEnd text) = (upTo? stop text).map fun (b, a) => (b, dropBlankEnd a) := by
  induction text with
  | nil => rfl
  | cons c rest ih =>
    rw [dropBlankEnd_cons]
    by_cases hc : c = stop
    · subst hc
      rw [if_neg (by simp [h])]
      simp [upTo?]
    · simp only [upTo?, if_neg hc]
      split
      · next blank =>
        rw [blank.2] at ih
        have := Option.map_eq_none_iff.mp ih.symm
        rw [this]
        rfl
      · rw [upTo?, if_neg hc, ih, Option.map_map, Option.map_map]
        rfl

/-! ## Words -/

theorem wordsFrom_blank (h : isBlank c = true) (current : List Char) :
    wordsFrom current (c :: rest) =
      (if current = [] then [] else [current.reverse]) ++ wordsFrom [] rest := by
  cases current <;> simp [wordsFrom, h]

theorem wordsFrom_append (h : Solid text) (current : List Char) :
    wordsFrom current (text ++ rest) = wordsFrom (text.reverse ++ current) rest := by
  induction text generalizing current with
  | nil => rfl
  | cons c text ih =>
    obtain ⟨first, others⟩ := List.forall_mem_cons.mp h
    have step : wordsFrom current (c :: text ++ rest) = wordsFrom (c :: current) (text ++ rest) := by
      cases current <;> simp [wordsFrom, first]
    rw [step, ih others]
    simp

theorem wordsFrom_nil (current : List Char) :
    wordsFrom current [] = if current = [] then [] else [current.reverse] := by
  cases current <;> simp [wordsFrom]

theorem words_dropBlankEnd (text : List Char) : words (dropBlankEnd text) = words text := by
  have general (current : List Char) :
      wordsFrom current (dropBlankEnd text) = wordsFrom current text := by
    induction text generalizing current with
    | nil => rfl
    | cons c rest ih =>
      rw [dropBlankEnd_cons]
      split
      · next blank =>
        have none := ih []
        rw [blank.2, wordsFrom_nil, if_pos rfl] at none
        rw [wordsFrom_nil, wordsFrom_blank blank.1, ← none, List.append_nil]
      · cases hc : isBlank c with
        | true => rw [wordsFrom_blank hc, wordsFrom_blank hc, ih]
        | false =>
          have solid : Solid [c] := by simpa [Solid] using hc
          calc wordsFrom current (c :: dropBlankEnd rest)
            _ = wordsFrom ([c].reverse ++ current) (dropBlankEnd rest) := wordsFrom_append solid current
            _ = wordsFrom ([c].reverse ++ current) rest := ih _
            _ = wordsFrom current (c :: rest) := (wordsFrom_append solid current).symm
  exact general []

/-- A word has characters, and no blanks among them. -/
theorem mem_words {word : List Char} (h : word ∈ words text) : word ≠ [] ∧ Solid word := by
  have ended {current : List Char} (solid : Solid current)
      (hw : word ∈ if current = [] then [] else [current.reverse]) : word ≠ [] ∧ Solid word := by
    split at hw
    · exact absurd hw List.not_mem_nil
    · next ne =>
      obtain rfl := List.mem_singleton.mp hw
      exact ⟨by simpa using ne, fun c hc => solid c (List.mem_reverse.mp hc)⟩
  have general {current text : List Char} (solid : Solid current) (hw : word ∈ wordsFrom current text) :
      word ≠ [] ∧ Solid word := by
    induction text generalizing current with
    | nil =>
      rw [wordsFrom_nil] at hw
      exact ended solid hw
    | cons c rest ih =>
      cases hc : isBlank c with
      | true =>
        rw [wordsFrom_blank hc] at hw
        rcases List.mem_append.mp hw with last | later
        · exact ended solid last
        · exact ih (fun _ hd => absurd hd List.not_mem_nil) later
      | false =>
        have single : Solid [c] := by simpa [Solid] using hc
        have step : wordsFrom current (c :: rest) = wordsFrom (c :: current) rest :=
          wordsFrom_append single current
        rw [step] at hw
        have longer : Solid (c :: current) := List.forall_mem_cons.mpr ⟨hc, solid⟩
        exact ih longer hw
  exact general (fun _ hd => absurd hd List.not_mem_nil) h

/-- Words, each behind a blank. -/
def spaced (labels : List (List Char)) : List Char :=
  labels.flatMap (' ' :: ·)

@[simp] theorem spaced_nil : spaced [] = [] := rfl

@[simp] theorem spaced_cons (label : List Char) (labels : List (List Char)) :
    spaced (label :: labels) = ' ' :: (label ++ spaced labels) := rfl

/-- **The words of a list are its members**, but nothing is seen of an empty one. -/
theorem words_append_spaced (h : Solid text) {labels : List (List Char)}
    (solid : ∀ label ∈ labels, Solid label) :
    words (text ++ spaced labels) = (text :: labels).filter (· ≠ []) := by
  have general (text : List Char) (h : Solid text) :
      wordsFrom text.reverse (spaced labels) = (text :: labels).filter (· ≠ []) := by
    induction labels generalizing text with
    | nil =>
      rw [spaced_nil, wordsFrom_nil]
      cases text <;> simp
    | cons label rest ih =>
      obtain ⟨first, others⟩ := List.forall_mem_cons.mp solid
      rw [spaced_cons, wordsFrom_blank isBlank_space, wordsFrom_append first, List.append_nil,
        ih others _ first, List.filter_cons (x := text)]
      cases text <;> simp
  rw [words, wordsFrom_append h, List.append_nil, general text h]

/-! ## Splitting -/

theorem after?_append (word text : List Char) : after? word (word ++ text) = some text := by
  induction word with
  | nil => rfl
  | cons c word ih => rw [List.cons_append, after?, if_pos rfl, ih]

/-- What follows a word is found iff the text starts with the word. -/
theorem after?_eq_some {word : List Char} : after? word text = some rest ↔ text = word ++ rest := by
  constructor
  · intro h
    fun_induction after? word text with
    | case1 text => exact Option.some.inj h
    | case2 => cases h
    | case3 c word text ih => rw [ih h, List.cons_append]
    | case4 => cases h
  · rintro rfl
    exact after?_append word rest

theorem after?_cons_of_ne {d : Char} {word : List Char} (h : c ≠ d) :
    after? (c :: word) (d :: text) = none := by
  rw [after?, if_neg h]

/-- A run of characters ends where another one follows. -/
theorem takeWhile_append_of_head {p : Char → Bool} (h : ∀ d ∈ text, p d = true)
    (other : rest.head?.all fun d => !p d) :
    (text ++ rest).takeWhile p = text ∧ (text ++ rest).dropWhile p = rest := by
  rw [List.takeWhile_append_of_pos h, List.dropWhile_append_of_pos h]
  cases rest with
  | nil => simp
  | cons d rest =>
    have stop : ¬ p d = true := by simpa using other
    rw [List.takeWhile_cons_of_neg stop, List.dropWhile_cons_of_neg stop, List.append_nil]
    exact ⟨rfl, rfl⟩

theorem upTo?_append_cons (h : stop ∉ text) (rest : List Char) :
    upTo? stop (text ++ stop :: rest) = some (text, rest) := by
  induction text with
  | nil => simp [upTo?]
  | cons c text ih =>
    obtain ⟨first, others⟩ := not_or.mp (List.mem_cons.not.mp h)
    rw [List.cons_append, upTo?, if_neg (Ne.symm first), ih others]
    rfl

/-- **A text is split at a character iff it has one.** -/
theorem upTo?_eq_some {before : List Char} : upTo? stop text = some (before, rest) ↔
    stop ∉ before ∧ text = before ++ stop :: rest := by
  constructor
  · intro h
    induction text generalizing before with
    | nil => cases h
    | cons c text ih =>
      rw [upTo?] at h
      split at h
      · next hc =>
        cases h
        exact ⟨List.not_mem_nil, hc ▸ rfl⟩
      · next hc =>
        obtain ⟨⟨front, back⟩, hs, heq⟩ := Option.map_eq_some_iff.mp h
        cases heq
        obtain ⟨absent, rfl⟩ := ih hs
        exact ⟨by simpa [Ne.symm hc] using absent, rfl⟩
  · rintro ⟨absent, rfl⟩
    exact upTo?_append_cons absent rest

theorem upTo?_eq_none : upTo? stop text = none ↔ stop ∉ text := by
  constructor
  · intro h mem
    obtain ⟨front, back, rfl, absent⟩ := List.eq_append_cons_of_mem mem
    rw [upTo?_append_cons absent] at h
    cases h
  · intro absent
    cases h : upTo? stop text with
    | none => rfl
    | some pair =>
      obtain ⟨-, rfl⟩ := upTo?_eq_some.mp h
      simp at absent

/-- A character between words that is no space belongs to one of them. -/
theorem exists_of_spaced_eq {labels : List (List Char)} {before : List Char} (hs : stop ≠ ' ')
    (h : spaced labels = before ++ stop :: rest) : ∃ front label back first later,
      labels = first ++ label :: later ∧ label = front ++ stop :: back ∧
        rest = back ++ spaced later := by
  induction labels generalizing before with
  | nil => simp at h
  | cons label labels ih =>
    cases before with
    | nil => exact absurd (List.cons.inj h).1.symm hs
    | cons c before =>
      obtain ⟨-, h⟩ := List.cons.inj h
      have later {before : List Char} (h : spaced labels = before ++ stop :: rest) :
          ∃ front label' back first later, label :: labels = first ++ label' :: later ∧
            label' = front ++ stop :: back ∧ rest = back ++ spaced later := by
        obtain ⟨front, label', back, first, later, rfl, hl, hr⟩ := ih h
        exact ⟨front, label', back, label :: first, later, rfl, hl, hr⟩
      rcases List.append_eq_append_iff.mp h with ⟨back, -, hb⟩ | ⟨back, rfl, hb⟩
      · exact later hb
      · cases back with
        | nil => exact later ((List.nil_append _).trans hb).symm
        | cons c back =>
          obtain ⟨rfl, rfl⟩ := List.cons.inj hb
          exact ⟨before, _, back, [], labels, rfl, rfl, rfl⟩

end HoleBlame.Text
