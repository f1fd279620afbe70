import HoleBlame.Proofs.Numerals
import HoleBlame.Text.Grouped

/-!
# Separators between thousands

Thousands are counted from the end of a text: its groups have three characters each, and the first one has what is
left over (`Text.Groups`).  The commas are placed from the front, where only the number of positions that are left is
known.  They come between these groups all the same (`Text.Groups.groupFrom_eq`), because this number is a multiple of
three exactly where the first of the groups that are left is full.

A sign takes part in this like a digit.  So where the digits of a negative number fill their groups, the sign is a
group of its own, and a comma follows it.  All other integers are written with commas between thousands only
(`Text.separated_grouped_iff`).
-/

namespace HoleBlame.Text

variable {text first : List Char} {others : List (List Char)}

/-! ## Groups -/

/-- The groups of a text, made from its end: a character joins the first group as long as this has less than three,
and then opens the next one. -/
inductive Groups : List Char → List Char → List (List Char) → Prop
  | last (c : Char) : Groups [c] [c] []
  | join {text first : List Char} {others : List (List Char)} (c : Char) (groups : Groups text first others)
      (room : first.length < 3) : Groups (c :: text) (c :: first) others
  | next {text first : List Char} {others : List (List Char)} (c : Char) (groups : Groups text first others)
      (full : first.length = 3) : Groups (c :: text) [c] (first :: others)

namespace Groups

theorem ne_nil (groups : Groups text first others) : text ≠ [] := by
  rintro rfl
  cases groups

theorem length_first (groups : Groups text first others) : 1 ≤ first.length ∧ first.length ≤ 3 := by
  cases groups with
  | last | next => exact ⟨le_rfl, by simp⟩
  | join c groups room => exact ⟨by simp, room⟩

theorem length_of_mem (groups : Groups text first others) : ∀ group ∈ others, group.length = 3 := by
  induction groups with
  | last => exact List.forall_mem_nil _
  | join c groups room ih => exact ih
  | next c groups full ih => exact List.forall_mem_cons.mpr ⟨full, ih⟩

theorem flatten (groups : Groups text first others) : (first :: others).flatten = text := by
  induction groups with
  | last => rfl
  | join c groups room ih | next c groups full ih => exact congrArg (c :: ·) ih

theorem length_eq (groups : Groups text first others) : text.length = first.length + 3 * others.length := by
  induction groups with
  | last => rfl
  | join c groups room ih | next c groups full ih =>
    simp only [List.length_cons, List.length_nil, ih]
    omega

/-- The first group is full where the length is a multiple of three. -/
theorem dvd_length_iff (groups : Groups text first others) : 3 ∣ text.length ↔ first.length = 3 := by
  have := groups.length_first
  have := groups.length_eq
  omega

end Groups

theorem exists_groups (ne : text ≠ []) : ∃ first others, Groups text first others := by
  induction text with
  | nil => exact absurd rfl ne
  | cons c rest ih =>
    cases rest with
    | nil => exact ⟨[c], [], .last c⟩
    | cons d rest =>
      obtain ⟨first, others, groups⟩ := ih (List.cons_ne_nil d rest)
      rcases groups.length_first.2.lt_or_eq with room | full
      · exact ⟨c :: first, others, .join c groups room⟩
      · exact ⟨[c], first :: others, .next c groups full⟩

/-! ## Where the commas come -/

theorem intercalate_cons (separator first : List Char) (c : Char) (others : List (List Char)) :
    separator.intercalate ((c :: first) :: others) = c :: separator.intercalate (first :: others) := by
  cases others with
  | nil => simp
  | cons second others => simp only [List.intercalate_cons_cons, List.cons_append]

/-- Behind the first character, a comma stands where the positions that are left fill their groups. -/
theorem groupFrom_false (left : ℕ) (ne : text ≠ []) :
    groupFrom left false text = if 3 ∣ left then ',' :: groupFrom left true text else groupFrom left true text := by
  cases text with
  | nil => exact absurd rfl ne
  | cons c rest => simp [groupFrom, Nat.dvd_iff_mod_eq_zero]

/-- **The commas come between the groups.** -/
theorem Groups.groupFrom_eq (groups : Groups text first others) :
    groupFrom text.length true text = [','].intercalate (first :: others) := by
  -- The groups grow from the end while the loop runs from the front.  It never looks back, so what it
  -- makes of the rest of a text is known from the groups of this rest.
  induction groups with
  | last c => rfl
  | @join text first others c groups room ih =>
    have no_comma : ¬ 3 ∣ text.length := fun dvd => room.ne (groups.dvd_length_iff.mp dvd)
    calc groupFrom (c :: text).length true (c :: text)
      _ = c :: groupFrom text.length false text := rfl
      _ = c :: groupFrom text.length true text := by rw [groupFrom_false _ groups.ne_nil, if_neg no_comma]
      _ = [','].intercalate ((c :: first) :: others) := by rw [ih, intercalate_cons]
  | @next text first others c groups full ih =>
    have comma : 3 ∣ text.length := groups.dvd_length_iff.mpr full
    calc groupFrom (c :: text).length true (c :: text)
      _ = c :: groupFrom text.length false text := rfl
      _ = c :: ',' :: groupFrom text.length true text := by rw [groupFrom_false _ groups.ne_nil, if_pos comma]
      _ = [','].intercalate ([c] :: first :: others) := by rw [ih, List.intercalate_cons_cons]; rfl

/-- Nothing but commas is added. -/
theorem filter_groupFrom (left : ℕ) (front : Bool) (text : List Char) :
    (groupFrom left front text).filter (· ≠ ',') = text.filter (· ≠ ',') := by
  induction text generalizing left front with
  | nil => rfl
  | cons c rest ih =>
    rw [groupFrom]
    split
    · rw [List.filter_cons_of_neg (by simp), List.filter_cons, List.filter_cons, ih]
    · rw [List.filter_cons, List.filter_cons, ih]

theorem utf8ByteSize_ofList (narrow : ∀ c ∈ text, c.utf8Size = 1) :
    (String.ofList text).utf8ByteSize = text.length := by
  induction text with
  | nil => rfl
  | cons c rest ih =>
    obtain ⟨one, narrow⟩ := List.forall_mem_cons.mp narrow
    rw [String.ofList_cons, String.utf8ByteSize_append, String.utf8ByteSize_singleton, one, ih narrow,
      List.length_cons, Nat.add_comm]

/-- Where every character is a single byte, as many positions are left as there are characters. -/
theorem toList_grouped {s : String} (narrow : ∀ c ∈ s.toList, c.utf8Size = 1) :
    (grouped s).toList = groupFrom s.toList.length true s.toList := by
  have bytes := utf8ByteSize_ofList narrow
  rw [String.ofList_toList] at bytes
  rw [grouped, String.toList_ofList, bytes]

/-! ## Digits in groups -/

/-- Digits in groups of thousands: one to three in the first group, and three in every other one. -/
structure Thousands (first : List Char) (others : List (List Char)) : Prop where
  digits : ∀ group ∈ first :: others, ∀ c ∈ group, c.isDigit = true
  first : 1 ≤ first.length ∧ first.length ≤ 3
  others : ∀ group ∈ others, group.length = 3

/-- Thousands with commas between them, perhaps behind a minus sign. -/
def Separated (text : List Char) : Prop :=
  ∃ sign first others, (sign = [] ∨ sign = ['-']) ∧ Thousands first others ∧
    text = sign ++ [','].intercalate (first :: others)

theorem Groups.thousands (groups : Groups text first others) (digits : ∀ c ∈ text, c.isDigit = true) :
    Thousands first others where
  digits group mem c hc := digits c (groups.flatten ▸ List.mem_flatten.mpr ⟨group, mem, hc⟩)
  first := groups.length_first
  others := groups.length_of_mem

/-- A sign is no group. -/
theorem not_separated_lone_sign (rest : List Char) : ¬ Separated ('-' :: ',' :: rest) := by
  rintro ⟨sign, _ | ⟨c, first⟩, others, sign_or, thousands, text⟩
  · exact absurd thousands.first.1 (by decide)
  · have digit : c.isDigit = true := thousands.digits _ List.mem_cons_self c List.mem_cons_self
    rw [intercalate_cons] at text
    rcases sign_or with rfl | rfl
    · obtain ⟨rfl, -⟩ := List.cons.inj text
      exact absurd digit (by decide)
    · obtain ⟨rfl, -⟩ := List.cons.inj (List.cons.inj text).2
      exact absurd digit (by decide)

/-- Digits are separated. -/
theorem separated_groupFrom (ne : text ≠ []) (digits : ∀ c ∈ text, c.isDigit = true) :
    Separated (groupFrom text.length true text) := by
  obtain ⟨first, others, groups⟩ := exists_groups ne
  exact ⟨[], first, others, .inl rfl, groups.thousands digits, groups.groupFrom_eq⟩

/-- **Digits behind a sign are separated unless they fill their groups**, as then the sign is a group of its own. -/
theorem separated_groupFrom_sign_iff (ne : text ≠ []) (digits : ∀ c ∈ text, c.isDigit = true) :
    Separated (groupFrom ('-' :: text).length true ('-' :: text)) ↔ ¬ 3 ∣ text.length := by
  obtain ⟨first, others, groups⟩ := exists_groups ne
  rw [groups.dvd_length_iff]
  rcases groups.length_first.2.lt_or_eq with room | full
  · refine iff_of_true ⟨['-'], first, others, .inr rfl, groups.thousands digits, ?_⟩ room.ne
    exact (groups.join '-' room).groupFrom_eq.trans (intercalate_cons [','] first '-' others)
  · refine iff_of_false ?_ (not_not_intro full)
    rw [(groups.next '-' full).groupFrom_eq, List.intercalate_cons_cons]
    exact not_separated_lone_sign _

/-! ## Integers -/

theorem toList_toString_of_nonneg {z : ℤ} (h : 0 ≤ z) : (toString z).toList = Decimal.natDigits z.natAbs := by
  obtain ⟨n, rfl⟩ := Int.eq_ofNat_of_zero_le h
  exact Nat.toList_repr

theorem toList_toString_of_neg {z : ℤ} (h : z < 0) :
    (toString z).toList = '-' :: Decimal.natDigits z.natAbs := by
  obtain ⟨n, rfl⟩ := Int.eq_negSucc_of_lt_zero h
  show ("-" ++ (n + 1).repr).toList = _
  rw [String.toList_append, Nat.toList_repr]
  rfl

theorem utf8Size_of_isDigit {c : Char} (h : c.isDigit = true) : c.utf8Size = 1 := by
  simp only [Char.isDigit, Bool.and_eq_true, decide_eq_true_eq] at h
  exact Char.utf8Size_eq_one_iff.mpr (UInt32.le_trans h.2 (by decide))

/-- An integer is written in signs and digits. -/
theorem sign_or_isDigit_of_mem {z : ℤ} {c : Char} (h : c ∈ (toString z).toList) : c = '-' ∨ c.isDigit = true := by
  rcases Int.lt_or_le z 0 with negative | nonneg
  · rw [toList_toString_of_neg negative] at h
    exact (List.mem_cons.mp h).imp_right Decimal.isDigit_of_mem_natDigits
  · rw [toList_toString_of_nonneg nonneg] at h
    exact .inr (Decimal.isDigit_of_mem_natDigits h)

/-- **An integer is separated** unless it is negative and its digits fill their groups.  The commas apart, its text is
that of the integer in any case. -/
theorem separated_grouped_iff (z : ℤ) :
    (grouped (toString z)).toList.filter (· ≠ ',') = (toString z).toList ∧
      (Separated (grouped (toString z)).toList ↔ 0 ≤ z ∨ ¬ 3 ∣ (Decimal.natDigits z.natAbs).length) := by
  have ne := Decimal.natDigits_ne_nil z.natAbs
  have digits : ∀ c ∈ Decimal.natDigits z.natAbs, c.isDigit = true := fun _ => Decimal.isDigit_of_mem_natDigits
  have no_comma : ∀ c ∈ (toString z).toList, c ≠ ',' := by
    rintro _ mem rfl
    exact absurd (sign_or_isDigit_of_mem mem) (by decide)
  have narrow : ∀ c ∈ (toString z).toList, c.utf8Size = 1 := by
    intro c mem
    rcases sign_or_isDigit_of_mem mem with rfl | digit
    · decide
    · exact utf8Size_of_isDigit digit
  rw [toList_grouped narrow]
  constructor
  · rw [filter_groupFrom, List.filter_eq_self]
    exact fun c mem => decide_eq_true (no_comma c mem)
  · rcases Int.lt_or_le z 0 with negative | nonneg
    · rw [toList_toString_of_neg negative, separated_groupFrom_sign_iff ne digits, or_iff_right negative.not_ge]
    · rw [toList_toString_of_nonneg nonneg]
      exact iff_of_true (separated_groupFrom ne digits) (.inl nonneg)

example : grouped (toString (-1234567 : ℤ)) = "-1,234,567" := by
  decide +kernel

/-- **A comma may stand behind the sign.** -/
theorem not_separated_grouped_hundreds :
    grouped (toString (-123 : ℤ)) = "-,123" ∧ ¬ Separated (grouped (toString (-123 : ℤ))).toList := by
  have text : grouped (toString (-123 : ℤ)) = "-,123" := by decide +kernel
  rw [text]
  exact ⟨rfl, not_separated_lone_sign _⟩

end HoleBlame.Text
