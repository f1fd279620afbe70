import HoleBlame.Notes.Reader
import HoleBlame.Proofs.NoteLines
import HoleBlame.Proofs.Results
import HoleBlame.Proofs.Revelation
import HoleBlame.Proofs.Sections
import HoleBlame.Proofs.HoleTables
import HoleBlame.Proofs.Priors

/-!
# What notes mean

What is read of notes that are written as their grammar has it?  The holes of a state are those of all its lines,
its bound is that of its last line with one, and it is a target iff a line says so (`Notes.Means`).  In which
order the lines stand, and how often, matters no further than that: lines may change places, apart from two bounds
of one state, and the holes of a line may be split up or repeated (`Notes.Rearranged`).  Comments and blank lines
are not seen at all.

Each line changes one entry of what has been said (`Notes.Said.after`), so that the tables are given by folds over
the notes.  Whether all holes exist is decided at the end, when all of them are known.

The main result is `Notes.read_notes`.
-/

namespace HoleBlame

open Text

namespace Notes

variable {n h k : ℕ} {s : Fin n} {x : Said n} {note : Note n} {notes notes' : List (Note n)}
  {text : List Char} {texts : List (List Char)}

/-! ## What notes say -/

/-- The holes that a note gives for a state. -/
def Note.holesOf (s : Fin n) : Note n → List ℕ
  | .holes t numbers => if t = s then numbers else []
  | _ => []

/-- The bound that a note gives for a state. -/
def Note.boundOf? (s : Fin n) : Note n → Option Float
  | .bound t value => if t = s then some value else none
  | _ => none

/-- The holes that are stated for a state. -/
def stated (notes : List (Note n)) (s : Fin n) : List ℕ :=
  notes.flatMap (·.holesOf s)

/-- The last bound that is stated for a state. -/
def lastBound? (notes : List (Note n)) (s : Fin n) : Option Float :=
  (notes.filterMap (·.boundOf? s)).getLast?

/-- What has been said after a note. -/
def Said.after (x : Said n) : Note n → Said n
  | .holes s holes => { x with holes := assign x.holes s (x.holes.get s ++ holes) }
  | .bound s value => { x with priors := x.priors.setBound s value }
  | .target s => { x with priors := x.priors.setTarget s }

/-! ### One note -/

theorem numHoles_after : (x.after note).numHoles = x.numHoles := by
  cases note <;> rfl

theorem get_holes_after : (x.after note).holes.get s = x.holes.get s ++ note.holesOf s := by
  cases note with
  | holes t numbers =>
    simp only [Said.after, Note.holesOf, get_assign]
    by_cases same : t = s
    · simp [same]
    · simp [same, Ne.symm same]
  | bound | target => exact (List.append_nil _).symm

theorem bound?_after : (x.after note).priors.bound? s = (note.boundOf? s).or (x.priors.bound? s) := by
  cases note with
  | holes => rfl
  | bound t value =>
    simp only [Said.after, Note.boundOf?, Priors.bound?_eq, Priors.entry_setBound, Fin.val_inj]
    by_cases same : t = s
    · simp [same]
    · simp [same, Ne.symm same]
  | target t =>
    simp only [Said.after, Note.boundOf?, Priors.bound?_eq, Priors.entry_setTarget]
    split <;> rfl

theorem isTarget_after : (x.after note).priors.isTarget s = true ↔
    .target s = note ∨ x.priors.isTarget s = true := by
  cases note with
  | holes => simp [Said.after]
  | bound t value =>
    simp only [Said.after, Priors.isTarget_eq, Priors.entry_setBound]
    split <;> simp
  | target t =>
    simp only [Said.after, Priors.isTarget_eq, Priors.entry_setTarget, Fin.val_inj]
    by_cases same : s = t <;> simp [same]

theorem size_after (size : x.priors.size = n) : (x.after note).priors.size = n := by
  cases note with
  | holes => exact size
  | bound t value => exact (Priors.size_setBound (t.isLt.trans_eq size.symm)).trans size
  | target t => exact (Priors.size_setTarget (t.isLt.trans_eq size.symm)).trans size

/-! ### All notes -/

theorem numHoles_foldl : (notes.foldl Said.after x).numHoles = x.numHoles := by
  induction notes generalizing x with
  | nil => rfl
  | cons note rest ih => exact ih.trans numHoles_after

/-- **The holes of a state add up.** -/
theorem get_holes_foldl : (notes.foldl Said.after x).holes.get s = x.holes.get s ++ stated notes s := by
  induction notes generalizing x with
  | nil => simp [stated]
  | cons note rest ih =>
    rw [List.foldl_cons, ih, get_holes_after, List.append_assoc]
    rfl

/-- **The last bound of a state counts.** -/
theorem bound?_foldl : (notes.foldl Said.after x).priors.bound? s =
    (lastBound? notes s).or (x.priors.bound? s) := by
  induction notes generalizing x with
  | nil => rfl
  | cons note rest ih =>
    rw [List.foldl_cons, ih, bound?_after, ← Option.or_assoc, lastBound?, lastBound?, List.filterMap_cons]
    cases note.boundOf? s with
    | none => simp
    | some value => simp [List.getLast?_cons]

theorem isTarget_foldl : (notes.foldl Said.after x).priors.isTarget s = true ↔
    .target s ∈ notes ∨ x.priors.isTarget s = true := by
  induction notes generalizing x with
  | nil => simp
  | cons note rest ih => rw [List.foldl_cons, ih, isTarget_after, List.mem_cons, or_left_comm, or_assoc]

theorem size_foldl (size : x.priors.size = n) : (notes.foldl Said.after x).priors.size = n := by
  induction notes generalizing x with
  | nil => exact size
  | cons note rest ih => exact ih (size_after size)

/-! ## Reading lines -/

theorem readLine_silent (silent : Silent text) : readLine x ⟨k, text⟩ = .ok x := by
  rw [readLine]
  exact if_pos (content_silent silent)

/-- A line that is recognised is not empty. -/
theorem content_ne_nil {line : NoteLine} (found : noteLine? (content text) = some line) :
    content text ≠ [] := by
  intro empty
  rw [empty] at found
  cases found

theorem readNumber_eq_ok {number : List Char} {i : ℕ} :
    readNumber number = .ok i ↔ Decimal.readNat number = .ok i := by
  rw [readNumber]
  cases Decimal.readNat number <;> simp

theorem readState_eq_ok {number : List Char} :
    readState n k number = .ok s ↔ Decimal.readNat number = .ok s.val := by
  rw [← readNumber_eq_ok, readState]
  cases readNumber number with
  | error error => exact ⟨by rintro ⟨⟩, by rintro ⟨⟩⟩
  | ok i =>
    show (if hs : i < n then Except.ok ⟨i, hs⟩ else .error (NotesError.stateOutOfBounds k i n)) = .ok s ↔ _
    by_cases lt : i < n
    · simp [lt, Fin.ext_iff]
    · have ne : i ≠ s.val := fun e => lt (e ▸ s.isLt)
      simp [lt, ne]

theorem readHoles_eq_ok {list : List (List Char)} {holes : List ℕ} : readHoles list = .ok holes ↔
    List.Forall₂ (fun x word => Decimal.readNat word = .ok x) holes list := by
  rw [readHoles]
  induction list generalizing holes with
  | nil => simp [pure, Except.pure, eq_comm]
  | cons word rest ih =>
    rw [List.mapM_cons, List.forall₂_cons_right_iff]
    constructor
    · intro read
      obtain ⟨i, first, read⟩ := exists_of_bind_eq_ok read
      obtain ⟨more, others, read⟩ := exists_of_bind_eq_ok read
      exact ⟨i, more, readNumber_eq_ok.mp first, ih.mp others, (Except.ok.inj read).symm⟩
    · rintro ⟨i, more, first, others, rfl⟩
      rw [readNumber_eq_ok.mpr first, ih.mpr others]
      rfl

theorem readLine_header (line : HeaderLine h text) :
    readLine x ⟨k, text⟩ = .ok { x with numHoles := some h } := by
  obtain ⟨number, found, reads⟩ := noteLine?_header line
  rw [readLine]
  simp only [if_neg (content_ne_nil found), found, readNumber_eq_ok.mpr reads]
  rfl

/-- **A line adds to what has been said** what it says. -/
theorem readLine_note (headed : x.numHoles = some h) (line : note.IsLine text) :
    readLine x ⟨k, text⟩ = .ok (x.after note) := by
  obtain ⟨_, before, priors⟩ := x
  obtain rfl : _ = some h := headed
  rw [readLine]
  cases note with
  | holes s holes =>
    obtain ⟨number, list, found, state, numerals⟩ := isLine_holes_iff.mp line
    simp only [if_neg (content_ne_nil found), found, readState_eq_ok.mpr state,
      readHoles_eq_ok.mpr numerals]
    rfl
  | bound s value =>
    obtain ⟨number, literal, found, state, reads, defined⟩ := noteLine?_bound line
    simp only [if_neg (content_ne_nil found), found, readState_eq_ok.mpr state, readBound, reads,
      defined]
    rfl
  | target s =>
    obtain ⟨number, found, state⟩ := noteLine?_target line
    simp only [if_neg (content_ne_nil found), found, readState_eq_ok.mpr state]
    rfl

/-! ## Reading notes -/

theorem foldlM_silent {front : List (List Char)} (silent : ∀ text ∈ front, Silent text) (lines : List Line) :
    (numberFrom k front ++ lines).foldlM readLine x = lines.foldlM readLine x := by
  induction front generalizing k with
  | nil => rfl
  | cons text rest ih =>
    obtain ⟨first, others⟩ := List.forall_mem_cons.mp silent
    rw [numberFrom, List.cons_append, List.foldlM_cons, readLine_silent first]
    exact ih others

/-- **Lines add up.** -/
theorem foldlM_noted (headed : x.numHoles = some h) (noted : Noted notes texts) :
    (numberFrom k texts).foldlM readLine x = .ok (notes.foldl Said.after x) := by
  induction noted generalizing x k with
  | nil => rfl
  | note line rest ih =>
    rw [numberFrom, List.foldlM_cons, readLine_note headed line]
    exact ih (numHoles_after.trans headed)
  | silent silent rest ih =>
    rw [numberFrom, List.foldlM_cons, readLine_silent silent]
    exact ih headed

/-- What has been said when the header has been read. -/
def Said.headed (n h : ℕ) : Said n :=
  { Said.nothing n with numHoles := some h }

theorem foldlM_written (written : Written h notes texts) :
    (numberFrom 1 texts).foldlM readLine (.nothing n) = .ok (notes.foldl Said.after (.headed n h)) := by
  obtain ⟨front, header, body, silent, line, noted, rfl⟩ := written.lines
  rw [Drn.numberFrom_append, foldlM_silent silent, numberFrom, List.foldlM_cons, readLine_header line]
  exact foldlM_noted rfl noted

/-- Notes are accepted iff all lines are, the number of holes is stated, and all holes exist. -/
theorem read_eq_ok_iff {c : Chain Float n} {bytes : List UInt8} {a : Annotated Float n h} :
    read c bytes = .ok ⟨h, a⟩ ↔ ∃ x, (lines bytes).foldlM readLine (.nothing n) = .ok x ∧ x.numHoles = some h ∧
      ∃ t, HoleTable.ofLists? h x.holes.toList = .ok t ∧ a = ⟨.identity c, t, x.priors⟩ := by
  constructor
  · intro accepted
    obtain ⟨x, said, accepted⟩ := exists_of_bind_eq_ok accepted
    split at accepted
    · cases accepted
    · next headed =>
      split at accepted
      · cases accepted
      · next made =>
        cases accepted
        exact ⟨x, said, headed, _, made, rfl⟩
  · rintro ⟨⟨_, lists, priors⟩, said, headed, t, made, rfl⟩
    obtain rfl : _ = some h := headed
    rw [read, said]
    simp only [bind, Except.bind, made]

/-! ## What the annotated chain is -/

/-- The annotated chain is what the notes say. -/
structure Means (c : Chain Float n) (notes : List (Note n)) (a : Annotated Float n h) : Prop where
  /-- Every state comes from itself, and has its own choice. -/
  member : a.member = .identity c
  choices : a.table.numChoices = n
  /-- The holes of all lines of a state, ascending and each once. -/
  holes : ∀ s : Fin n, (a.table.holes s).toList = (List.finRange h).filter fun y => y.val ∈ stated notes s
  size : a.priors.size = n
  bound : ∀ s : Fin n, a.priors.bound? s = lastBound? notes s
  target : ∀ s : Fin n, a.priors.isTarget s = true ↔ .target s ∈ notes

/-- The table of the holes that have been said of the states. -/
theorem table_of_said {x : Said n} {t : HoleTable h} (made : HoleTable.ofLists? h x.holes.toList = .ok t) :
    t.numChoices = n ∧ ∀ s : Fin n,
      (∀ y ∈ x.holes.get s, y < h) ∧ ∀ y : Fin h, y ∈ t.holes s ↔ y.val ∈ x.holes.get s := by
  refine ⟨by simp [HoleTable.numChoices_of_ofLists? made], fun s => ?_⟩
  have list : x.holes.toList[s.val]? = some (x.holes.get s) := by simp [get_eq_getElem]
  exact HoleTable.setOf?_eq_ok.mp (HoleTable.setOf?_of_ofLists? made list)

/-- **Notes are read**, and mean what they say. -/
theorem exists_read {c : Chain Float n} {bytes : List UInt8} (written : Written h notes (lineTexts bytes))
    (inside : ∀ s, ∀ x ∈ stated notes s, x < h) : ∃ a, read c bytes = .ok ⟨h, a⟩ ∧ Means c notes a := by
  have lists (s : Fin n) : (notes.foldl Said.after (.headed n h)).holes.get s = stated notes s := by
    rw [get_holes_foldl]
    simp [Said.headed, Said.nothing]
  have fits : ∀ holes ∈ (notes.foldl Said.after (.headed n h)).holes.toList, ∀ x ∈ holes, x < h := by
    intro holes mem
    obtain ⟨i, lt, rfl⟩ := List.mem_iff_getElem.mp mem
    have own := lists ⟨i, by simpa using lt⟩
    rw [get_eq_getElem] at own
    simpa only [Vector.getElem_toList, own] using inside ⟨i, _⟩
  obtain ⟨t, made⟩ := HoleTable.exists_ofLists?_iff.mpr fits
  obtain ⟨choices, holes⟩ := table_of_said made
  have unknown (s : Fin n) : (Said.headed n h).priors.entry s = ⟨none, false⟩ := by
    simp [Said.headed, Said.nothing, Priors.ofSize, Priors.entry]
  refine ⟨_, read_eq_ok_iff.mpr ⟨_, lines_eq bytes ▸ foldlM_written written, numHoles_foldl, _, made, rfl⟩, ?_⟩
  constructor
  case member => rfl
  case choices => exact choices
  case holes =>
    intro s
    have same : _ = HoleSet.ofFn fun y => decide (y.val ∈ stated notes s) := HoleSet.ext fun y => by
      rw [(holes s).2 y, lists, HoleSet.mem_ofFn, decide_eq_true_eq]
    exact congrArg HoleSet.toList same
  case size => exact size_foldl (by simp [Said.headed, Said.nothing, Priors.ofSize, Priors.size])
  case bound =>
    intro s
    rw [bound?_foldl, Priors.bound?_eq, unknown, Option.or_none]
  case target =>
    intro s
    rw [isTarget_foldl, Priors.isTarget_eq, unknown]
    exact or_iff_left Bool.false_ne_true

/-- Notes that say the same of every state. -/
structure Agree (notes notes' : List (Note n)) : Prop where
  holes : ∀ s x, x ∈ stated notes s ↔ x ∈ stated notes' s
  bound : ∀ s, lastBound? notes s = lastBound? notes' s
  target : ∀ s, .target s ∈ notes ↔ .target s ∈ notes'

/-- What notes say is all that they mean. -/
theorem Means.eq {c : Chain Float n} {a a' : Annotated Float n h} (means : Means c notes a)
    (means' : Means c notes' a') (agree : Agree notes notes') : a = a' := by
  have tables : a.table = a'.table := by
    refine HoleTable.ext_holes (means.choices.trans means'.choices.symm) fun q lt => ?_
    have same : (a.table.holes q).toList = (a'.table.holes q).toList := by
      rw [means.choices] at lt
      rw [means.holes ⟨q, lt⟩, means'.holes ⟨q, lt⟩]
      exact List.filter_congr fun y _ => decide_eq_decide.mpr (agree.holes _ _)
    exact HoleSet.ext fun y => by rw [HoleSet.mem_def, HoleSet.mem_def, same]
  have priors : a.priors = a'.priors := by
    refine Priors.ext_known (means.size.trans means'.size.symm) (fun q lt => ?_) fun q lt => ?_
    · rw [means.size] at lt
      exact (means.bound ⟨q, lt⟩).trans ((agree.bound _).trans (means'.bound ⟨q, lt⟩).symm)
    · rw [means.size] at lt
      exact Bool.coe_iff_coe.mp
        ((means.target ⟨q, lt⟩).trans ((agree.target _).trans (means'.target ⟨q, lt⟩).symm))
  obtain ⟨_, _, _⟩ := a
  obtain ⟨_, _, _⟩ := a'
  obtain rfl : _ = _ := means.member.trans means'.member.symm
  cases tables
  cases priors
  rfl

/-! ## Rearranging lines -/

/-- The lines are in another order, but for the bounds of each state, or what they say of holes is split up or
repeated. -/
inductive Rearranged : List (Note n) → List (Note n) → Prop
  | refl (notes : List (Note n)) : Rearranged notes notes
  | symm {notes notes' : List (Note n)} (rearranged : Rearranged notes notes') : Rearranged notes' notes
  | trans {notes notes' notes'' : List (Note n)} (first : Rearranged notes notes')
      (second : Rearranged notes' notes'') : Rearranged notes notes''
  | swap (front back : List (Note n)) (a b : Note n) (apart : ∀ s, a.boundOf? s = none ∨ b.boundOf? s = none) :
      Rearranged (front ++ a :: b :: back) (front ++ b :: a :: back)
  | split (front back : List (Note n)) (s : Fin n) (holes more : List ℕ) :
      Rearranged (front ++ .holes s (holes ++ more) :: back)
        (front ++ .holes s holes :: .holes s more :: back)
  | again (front back : List (Note n)) (s : Fin n) (holes : List ℕ) :
      Rearranged (front ++ .holes s holes :: back) (front ++ .holes s holes :: .holes s holes :: back)

theorem Rearranged.agree (rearranged : Rearranged notes notes') : Agree notes notes' := by
  induction rearranged with
  | refl => exact ⟨fun _ _ => Iff.rfl, fun _ => rfl, fun _ => Iff.rfl⟩
  | symm _ ih =>
    exact ⟨fun s x => (ih.holes s x).symm, fun s => (ih.bound s).symm, fun s => (ih.target s).symm⟩
  | trans _ _ ih ih' =>
    exact ⟨fun s x => (ih.holes s x).trans (ih'.holes s x), fun s => (ih.bound s).trans (ih'.bound s),
      fun s => (ih.target s).trans (ih'.target s)⟩
  | swap front back a b apart =>
    constructor
    case holes =>
      intro s x
      simp only [stated, List.flatMap_append, List.flatMap_cons, List.mem_append, or_left_comm]
    case bound =>
      intro s
      simp only [lastBound?, List.filterMap_append, List.filterMap_cons]
      rcases apart s with none | none <;> rw [none]
    case target =>
      intro s
      simp only [List.mem_append, List.mem_cons, or_left_comm]
  | split front back s holes more =>
    constructor
    case holes =>
      intro t x
      simp only [stated, List.flatMap_append, List.flatMap_cons, List.mem_append, Note.holesOf]
      split <;> simp [or_assoc]
    case bound => simp [lastBound?, Note.boundOf?]
    case target => simp
  | again front back s holes =>
    constructor
    case holes => simp [stated]
    case bound => simp [lastBound?, Note.boundOf?]
    case target => simp

/-- **Notes mean what their format says.**  Whatever else is written in the same sense is read the same. -/
theorem read_notes {c : Chain Float n} {bytes : List UInt8} (written : Written h notes (lineTexts bytes))
    (inside : ∀ s, ∀ x ∈ stated notes s, x < h) :
    ∃ a, read c bytes = .ok ⟨h, a⟩ ∧ Means c notes a ∧ ∀ notes' bytes', Rearranged notes notes' →
      Written h notes' (lineTexts bytes') → read c bytes' = .ok ⟨h, a⟩ := by
  obtain ⟨a, accepted, means⟩ := exists_read written inside
  refine ⟨a, accepted, means, fun notes' bytes' rearranged written' => ?_⟩
  have agree := rearranged.agree
  have inside' : ∀ s, ∀ x ∈ stated notes' s, x < h := fun s x mem => inside s x ((agree.holes s x).mpr mem)
  obtain ⟨a', accepted', means'⟩ := exists_read (c := c) written' inside'
  rw [accepted', means.eq means' agree]

/-- A chain that stays where it is. -/
def still (n : ℕ) : Chain Float (n + 1) where
  initial := 0
  rows := .ofFn fun s => [⟨s, 1⟩]
  labelling := .empty _
  reward := none

/-- Notes on three states. -/
def sampleLines : List String :=
  ["# Hole 1 controls the first state.", "holes 3", "0 : 1", "", "1 : 2 0 # Both.", "1 : 2", "bound 1 0.25",
    "target 2"]

/-- What they say of these states. -/
def sampleNotes (s t u : Fin n) : List (Note n) :=
  [.holes s [1], .holes t [2, 0], .holes t [2], .bound t 0.25, .target u]

theorem written_sample : Written 3 (sampleNotes (0 : Fin 3) 1 2) (sampleLines.map String.toList) := by
  have remark : Silent "# Hole 1 controls the first state.".toList :=
    ⟨[], _, ⟨[], [], blanks_nil, blanks_nil, rfl⟩, .sharp _, rfl⟩
  have header : HeaderLine 3 "holes 3".toList :=
    ⟨_, @HeaderForm.mk 3 [' '] ['3'] (by decide) (by decide) ⟨List.forall_mem_singleton.mpr rfl, rfl⟩,
      entry_self _⟩
  have first : (Note.holes (0 : Fin 3) [1]).IsLine "0 : 1".toList :=
    isLine_holes_iff.mpr ⟨['0'], [['1']], by decide, rfl, .cons rfl .nil⟩
  have second : (Note.holes (1 : Fin 3) [2, 0]).IsLine "1 : 2 0 # Both.".toList :=
    isLine_holes_iff.mpr ⟨['1'], [['2'], ['0']], by decide, rfl, .cons rfl (.cons rfl .nil)⟩
  have third : (Note.holes (1 : Fin 3) [2]).IsLine "1 : 2".toList :=
    isLine_holes_iff.mpr ⟨['1'], [['2']], by decide, rfl, .cons rfl .nil⟩
  have quarter : Decimal.readFloat "0.25".toList = .ok 0.25 := by decide +kernel
  have bound : (Note.bound (1 : Fin 3) 0.25).IsLine "bound 1 0.25".toList :=
    ⟨_, @Note.Form.bound 3 1 0.25 [' '] ['1'] [' '] _ (by decide) (by decide)
      ⟨List.forall_mem_singleton.mpr rfl, rfl⟩ (by decide) (by decide) quarter (by decide +kernel), entry_self _⟩
  have target : (Note.target (2 : Fin 3)).IsLine "target 2".toList :=
    ⟨_, @Note.Form.target 3 2 [' '] ['2'] (by decide) (by decide) ⟨List.forall_mem_singleton.mpr rfl, rfl⟩,
      entry_self _⟩
  exact ⟨[_], _, _, List.forall_mem_singleton.mpr remark, header,
    .note first (.silent (entry_self _) (.note second (.note third (.note bound (.note target .nil))))), rfl⟩

/-- The notes on three states are read as what they say. -/
theorem read_sample : lineTexts (bytesOf ((sampleLines.map String.toList).flatMap (· ++ ['\n']))) =
      sampleLines.map String.toList ∧
    (∀ s, ∀ x ∈ stated (sampleNotes (0 : Fin 3) 1 2) s, x < 3) ∧
      ∃ a, read (still 2) (bytesOf ((sampleLines.map String.toList).flatMap (· ++ ['\n']))) = .ok ⟨3, a⟩ ∧
        Means (still 2) (sampleNotes 0 1 2) a := by
  have cut : lineTexts (bytesOf ((sampleLines.map String.toList).flatMap (· ++ ['\n']))) =
      sampleLines.map String.toList := by decide +kernel
  have inside : ∀ s, ∀ x ∈ stated (sampleNotes (0 : Fin 3) 1 2) s, x < 3 := by decide
  obtain ⟨a, accepted, means, -⟩ := read_notes (c := still 2) (cut ▸ written_sample) inside
  exact ⟨cut, inside, a, accepted, means⟩

end Notes

end HoleBlame
