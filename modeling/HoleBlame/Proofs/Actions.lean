import HoleBlame.Proofs.Insertion

/-!
# States with two actions

A state of a Markov chain has one action.  The reader keeps in mind whether the current state line has been
followed by an action, and refuses a second one.  So two actions are refused if no state line stands between
them, and only then is a text refused for its actions (`Drn.read_twice`).

But a state may have several state lines.  Each of them lets a further action through, and the transitions of
all of them are taken together (`Drn.read_repeated`).
-/

namespace HoleBlame

open Text

namespace Drn

/-! ## The lines of a body -/

/-- The lines of the body of a file. -/
inductive BodyOf (bytes : List UInt8) : List (List Char) → Prop
  | mk {header line body} (sections : Sections header) (model : trim line = "@model".toList)
      (texts : lineTexts bytes = header ++ line :: body) : BodyOf bytes body

/-- The line starts a block. -/
def IsState (text : List Char) : Prop :=
  ∃ number reward labels, bodyLine? (trim text) = some (.state number reward labels)

/-- The line starts a block of the given state. -/
def IsStateOf (s : ℕ) (text : List Char) : Prop :=
  ∃ number reward labels, bodyLine? (trim text) = some (.state number reward labels) ∧
    Decimal.readNat number = .ok s

/-- The line is that of an action. -/
def IsAction (text : List Char) : Prop :=
  ∃ reward, bodyLine? (trim text) = some (.action reward)

/-- The last state line among these lines names the given state. -/
def Owner (s : ℕ) (texts : List (List Char)) : Prop :=
  ∃ front line back, texts = front ++ line :: back ∧ IsStateOf s line ∧ ∀ text ∈ back, ¬ IsState text

/-- Two action lines belong to the given state. -/
inductive TwoActions (s : ℕ) : List (List Char) → Prop
  | mk {before first between second after} (action : IsAction first) (action' : IsAction second)
      (owner : Owner s before) (owner' : Owner s (before ++ first :: between)) :
      TwoActions s (before ++ first :: (between ++ second :: after))

/-- Two action lines belong to the given state, and no state line stands between them. -/
inductive TwiceInBlock (s : ℕ) : List (List Char) → Prop
  | mk {before first between second after} (action : IsAction first) (action' : IsAction second)
      (owner : Owner s before) (block : ∀ text ∈ between, ¬ IsState text) :
      TwiceInBlock s (before ++ first :: (between ++ second :: after))

variable {s k size : ℕ} {model : Option String} {b b' : Body} {text : List Char}
  {bytes : List UInt8} {texts body back : List (List Char)}

theorem IsStateOf.isState (h : IsStateOf s text) : IsState text := by
  obtain ⟨number, reward, labels, found, -⟩ := h
  exact ⟨number, reward, labels, found⟩

theorem IsAction.not_isState (h : IsAction text) : ¬ IsState text := by
  rintro ⟨number, reward, labels, state⟩
  obtain ⟨reward', action⟩ := h
  cases action.symm.trans state

theorem Owner.append (h : Owner s texts) (others : ∀ text ∈ back, ¬ IsState text) :
    Owner s (texts ++ back) := by
  obtain ⟨front, line, behind, rfl, named, rest⟩ := h
  refine ⟨front, line, behind ++ back, by simp, named, ?_⟩
  exact List.forall_mem_append.mpr ⟨rest, others⟩

/-- Two actions in a block are two actions of its state. -/
theorem TwiceInBlock.twoActions (h : TwiceInBlock s body) : TwoActions s body := by
  cases h with
  | mk action action' owner block =>
    exact .mk action action' owner
      (owner.append (List.forall_mem_cons.mpr ⟨action.not_isState, block⟩))

theorem bodyLine?_of_isSilent (silent : isSilent text = true) : bodyLine? text = none := by
  rcases (Bool.or_eq_true _ _).mp silent with empty | comment
  · obtain rfl := of_decide_eq_true empty
    rfl
  · obtain ⟨rest, after⟩ := Option.isSome_iff_exists.mp comment
    rw [after?_eq_some.mp after]
    rfl

/-! ## What a line does -/

theorem readNat_of_readState {number : List Char} {state : ℕ} (read : readState size k number = .ok state) :
    Decimal.readNat number = .ok state := by
  unfold readState at read
  split at read
  · cases read
  · next found =>
    split at read
    · rw [found, Except.ok.inj read]
    · cases read

/-- **What a line does** to the state at hand, and to the mark that this state has an action. -/
theorem readLine_kinds (read : readLine size model b ⟨k, text⟩ = .ok b') :
    (¬ IsState text ∧ ¬ IsAction text ∧ b'.current = b.current ∧ b'.hasAction = b.hasAction) ∨
    (∃ s, IsStateOf s text ∧ b'.current = some s ∧ b'.hasAction = false) ∨
    (IsAction text ∧ b.hasAction = false ∧ b'.current = b.current ∧ b'.hasAction = true) := by
  have other {line? : Option BodyLine} (found : bodyLine? (trim text) = line?)
      (state : ∀ number reward labels, line? ≠ some (.state number reward labels))
      (action : ∀ reward, line? ≠ some (.action reward)) : ¬ IsState text ∧ ¬ IsAction text := by
    constructor
    · rintro ⟨number, reward, labels, h⟩
      exact state number reward labels (found.symm.trans h)
    · rintro ⟨reward, h⟩
      exact action reward (found.symm.trans h)
  unfold readLine at read
  dsimp only at read
  split at read
  · next silent =>
    obtain rfl := Except.ok.inj read
    obtain ⟨state, action⟩ := other (bodyLine?_of_isSilent silent) (by rintro _ _ _ ⟨⟩) (by rintro _ ⟨⟩)
    exact .inl ⟨state, action, rfl, rfl⟩
  · split at read
    · cases read
    · next number reward labels found =>
      obtain ⟨s, hs, read⟩ := exists_of_bind_eq_ok read
      obtain ⟨value, -, read⟩ := exists_of_bind_eq_ok read
      obtain rfl := Except.ok.inj read
      exact .inr (.inl ⟨s, ⟨number, reward, labels, found, readNat_of_readState hs⟩, rfl, rfl⟩)
    · next reward found =>
      split at read
      · cases read
      · split at read
        · cases read
        · next fresh =>
          obtain ⟨value, -, read⟩ := exists_of_bind_eq_ok read
          obtain rfl := Except.ok.inj read
          exact .inr (.inr ⟨⟨reward, found⟩, Bool.eq_false_of_not_eq_true fresh, rfl, rfl⟩)
    · next target prob found =>
      split at read
      · obtain ⟨next, -, read⟩ := exists_of_bind_eq_ok read
        obtain ⟨value, -, read⟩ := exists_of_bind_eq_ok read
        obtain rfl := Except.ok.inj read
        obtain ⟨state, action⟩ := other found (by rintro _ _ _ ⟨⟩) (by rintro _ ⟨⟩)
        exact .inl ⟨state, action, rfl, rfl⟩
      · cases read

theorem readState_ne_multipleActions (number : List Char) :
    readState size k number ≠ .error (.multipleActions s) := by
  unfold readState
  split
  · rintro ⟨⟩
  · split <;> rintro ⟨⟩

theorem readNumber_ne_multipleActions (text : List Char) :
    readNumber text ≠ .error (.multipleActions s) := by
  unfold readNumber
  split <;> rintro ⟨⟩

theorem readReward_ne_multipleActions (reward : Option (List Char)) :
    readReward reward ≠ .error (.multipleActions s) := by
  cases reward with
  | none => rintro ⟨⟩
  | some text =>
    unfold readReward
    dsimp only
    split
    · rintro ⟨⟩
    · exact readNumber_ne_multipleActions _

/-- A line is refused for its action only if the state at hand has one. -/
theorem readLine_multipleActions (read : readLine size model b ⟨k, text⟩ = .error (.multipleActions s)) :
    IsAction text ∧ b.current = some s ∧ b.hasAction = true := by
  unfold readLine at read
  dsimp only at read
  split at read
  · cases read
  · split at read
    · cases read
    · rcases bind_eq_error_iff.mp read with state | ⟨_, -, read⟩
      · exact absurd state (readState_ne_multipleActions _)
      · rcases bind_eq_error_iff.mp read with value | ⟨_, -, read⟩
        · exact absurd value (readReward_ne_multipleActions _)
        · cases read
    · next reward found =>
      split at read
      · cases read
      · next state current =>
        split at read
        · next taken =>
          cases read
          exact ⟨⟨reward, found⟩, current, taken⟩
        · rcases bind_eq_error_iff.mp read with value | ⟨_, -, read⟩
          · exact absurd value (readReward_ne_multipleActions _)
          · cases read
    · split at read
      · rcases bind_eq_error_iff.mp read with next | ⟨_, -, read⟩
        · exact absurd next (readState_ne_multipleActions _)
        · rcases bind_eq_error_iff.mp read with prob | ⟨_, -, read⟩
          · exact absurd prob (readNumber_ne_multipleActions _)
          · cases read
      · cases read

/-! ## Lines in a row -/

/-- What the reader keeps in mind about the lines it has read. -/
structure Remembers (texts : List (List Char)) (b : Body) : Prop where
  /-- The state at hand is that of the last state line. -/
  current : ∀ s, b.current = some s → Owner s texts
  /-- If it has an action, that has been said since. -/
  action : b.hasAction = true → ∀ s, b.current = some s → ∃ before first between,
    texts = before ++ first :: between ∧ IsAction first ∧ Owner s before ∧ ∀ text ∈ between, ¬ IsState text

theorem Remembers.of_readLine (remembers : Remembers texts b)
    (read : readLine size model b ⟨k, text⟩ = .ok b') : Remembers (texts ++ [text]) b' := by
  have single {text : List Char} (state : ¬ IsState text) : ∀ other ∈ [text], ¬ IsState other :=
    List.forall_mem_singleton.mpr state
  rcases readLine_kinds read with ⟨state, -, current, mark⟩ | ⟨s, named, current, mark⟩ |
    ⟨action, -, current, mark⟩
  · refine ⟨fun s hs => (remembers.current s (current ▸ hs)).append (single state), fun taken s hs => ?_⟩
    obtain ⟨before, first, between, rfl, action, owner, block⟩ :=
      remembers.action (mark ▸ taken) s (current ▸ hs)
    exact ⟨before, first, between ++ [text], by simp, action, owner,
      List.forall_mem_append.mpr ⟨block, single state⟩⟩
  · refine ⟨fun s' hs => ?_, fun taken => ?_⟩
    · obtain rfl := Option.some.inj (current.symm.trans hs)
      exact ⟨texts, text, [], rfl, named, List.forall_mem_nil _⟩
    · rw [mark] at taken
      cases taken
  · have owner (s : ℕ) (hs : b'.current = some s) : Owner s texts := remembers.current s (current ▸ hs)
    refine ⟨fun s hs => (owner s hs).append (single action.not_isState), fun _ s hs => ?_⟩
    exact ⟨texts, text, [], rfl, action, owner s hs, List.forall_mem_nil _⟩

/-- **The reader remembers the state at hand** and whether it has an action. -/
theorem Remembers.of_foldlM (remembers : Remembers texts b)
    (read : (plain back).foldlM (readLine size model) b = .ok b') : Remembers (texts ++ back) b' := by
  induction back generalizing texts b with
  | nil =>
    obtain rfl := Except.ok.inj read
    rwa [List.append_nil]
  | cons text back ih =>
    rw [plain_cons, List.foldlM_cons] at read
    obtain ⟨between, first, others⟩ := exists_of_bind_eq_ok read
    have later := ih (remembers.of_readLine first) others
    rwa [List.append_assoc] at later

/-- Lines are refused for their actions only if one of them is a second one of its block. -/
theorem twiceInBlock_of_foldlM (remembers : Remembers texts b)
    (read : (plain back).foldlM (readLine size model) b = .error (.multipleActions s)) :
    TwiceInBlock s (texts ++ back) := by
  induction back generalizing texts b with
  | nil => cases read
  | cons text back ih =>
    rw [plain_cons, List.foldlM_cons] at read
    rcases bind_eq_error_iff.mp read with refused | ⟨between, first, others⟩
    · -- The first action of the block is the one that the reader has in mind.
      obtain ⟨action', current, taken⟩ := readLine_multipleActions refused
      obtain ⟨before, first, between, rfl, action, owner, block⟩ := remembers.action taken s current
      rw [List.append_assoc, List.cons_append]
      exact .mk action action' owner block
    · have later := ih (remembers.of_readLine first) others
      rwa [List.append_assoc] at later

/-- Behind an action nothing but a state line lets another one through. -/
theorem hasAction_of_foldlM (block : ∀ text ∈ texts, ¬ IsState text) (taken : b.hasAction = true)
    (read : (plain texts).foldlM (readLine size model) b = .ok b') : b'.hasAction = true := by
  induction texts generalizing b with
  | nil => exact Except.ok.inj read ▸ taken
  | cons text texts ih =>
    obtain ⟨state, others⟩ := List.forall_mem_cons.mp block
    rw [plain_cons, List.foldlM_cons] at read
    obtain ⟨between, first, rest⟩ := exists_of_bind_eq_ok read
    refine ih others ?_ rest
    rcases readLine_kinds first with ⟨-, -, -, mark⟩ | ⟨s, named, -⟩ | ⟨-, -, -, mark⟩
    · rw [mark, taken]
    · exact absurd named.isState state
    · exact mark

theorem IsAction.mark (action : IsAction text) (read : readLine size model b ⟨k, text⟩ = .ok b') :
    b.hasAction = false ∧ b'.hasAction = true := by
  rcases readLine_kinds read with ⟨-, other, -⟩ | ⟨s, named, -⟩ | ⟨-, fresh, -, mark⟩
  · exact absurd action other
  · exact absurd named.isState action.not_isState
  · exact ⟨fresh, mark⟩

/-- A second action of a block is never read. -/
theorem TwiceInBlock.foldlM_ne_ok (twice : TwiceInBlock s body) :
    (plain body).foldlM (readLine size model) b ≠ .ok b' := by
  cases twice with
  | mk action action' owner block =>
    intro read
    rw [plain_append, plain_cons, plain_append, plain_cons, List.foldlM_append] at read
    obtain ⟨b₀, -, read⟩ := exists_of_bind_eq_ok read
    rw [List.foldlM_cons] at read
    obtain ⟨b₁, first, read⟩ := exists_of_bind_eq_ok read
    rw [List.foldlM_append] at read
    obtain ⟨b₂, between, read⟩ := exists_of_bind_eq_ok read
    rw [List.foldlM_cons] at read
    obtain ⟨b₃, second, -⟩ := exists_of_bind_eq_ok read
    have taken : b₂.hasAction = true := hasAction_of_foldlM block (action.mark first).2 between
    rw [(action'.mark second).1] at taken
    cases taken

/-! ## The whole text -/

theorem BodyOf.exists_readLines (found : BodyOf bytes body) : ∃ h : Header,
    readLines (plain (lineTexts bytes)) = readRest (h, some (plain body)) := by
  cases found with
  | mk sections model texts =>
    obtain ⟨h, leads⟩ := sections.leads ⟨false, none, none⟩
    refine ⟨h, ?_⟩
    rw [texts, plain_append, readLines, leads, plain_cons, readHeader_of_model model]
    rfl

theorem exists_foldlM_of_readRest {h : Header} {lines : List Line} {r : (n : ℕ) × Chain Float n}
    (read : readRest (h, some lines) = .ok r) : ∃ size b,
      lines.foldlM (readLine size h.model) ⟨Draft.ofSize size, none, none, false, 0⟩ = .ok b := by
  unfold readRest at read
  dsimp only at read
  split at read
  · cases read
  · split at read
    · cases read
    · cases read
    · next body size same _ =>
      cases same
      obtain ⟨b, run, -⟩ := exists_of_bind_eq_ok read
      exact ⟨size, b, run⟩

/-- A text is refused for its actions only when its body is read. -/
theorem exists_foldlM_of_readRest_eq_error {h : Header} {lines : List Line}
    (read : readRest (h, some lines) = .error (.multipleActions s)) : ∃ size,
      lines.foldlM (readLine size h.model) ⟨Draft.ofSize size, none, none, false, 0⟩ =
        .error (.multipleActions s) := by
  unfold readRest at read
  dsimp only at read
  split at read
  · cases read
  · split at read
    · cases read
    · cases read
    · next body size same _ =>
      cases same
      rcases bind_eq_error_iff.mp read with run | ⟨b, -, read⟩
      · exact ⟨size, run⟩
      · split at read
        · cases read
        · split at read <;> cases read

/-- **Two actions in a block are refused**, and nothing else is refused for its actions. -/
theorem read_twice (found : BodyOf bytes body) :
    (∀ s, TwiceInBlock s body → ∃ error, read bytes = .error error) ∧
      ∀ s, read bytes = .error (.multipleActions s) → TwiceInBlock s body := by
  obtain ⟨h, lines⟩ := found.exists_readLines
  constructor
  · intro s twice
    cases accepted : read bytes with
    | error error => exact ⟨error, rfl⟩
    | ok r =>
      obtain ⟨size, b, run⟩ := exists_foldlM_of_readRest (lines ▸ read_eq_ok_iff.mp accepted)
      exact absurd run twice.foldlM_ne_ok
  · intro s refused
    have rest : readRest (h, some (plain body)) = .error (.multipleActions s) := by
      rw [← lines, ← read_unnumbered, refused]
      rfl
    obtain ⟨size, run⟩ := exists_foldlM_of_readRest_eq_error rest
    have start : Remembers [] ⟨Draft.ofSize size, none, none, false, 0⟩ :=
      ⟨by rintro _ ⟨⟩, by rintro ⟨⟩⟩
    exact twiceInBlock_of_foldlM start run

/-- A file about a chain with one state, up to its body, and then these lines. -/
def oneState (body : List String) : List UInt8 :=
  (["@type: DTMC", "@nr_states", "1", "@model"] ++ body).flatMap fun line => lineBytes line.toList

theorem bodyOf_oneState {body : List String} (texts : lineTexts (oneState body) =
    (["@type: DTMC", "@nr_states", "1", "@model"] ++ body).map String.toList) :
    BodyOf (oneState body) (body.map String.toList) := by
  have none : ∀ gap ∈ ([] : List (List Char)), Blanks gap := List.forall_mem_nil _
  have size : Sections ["@nr_states".toList, ['1']] :=
    @Sections.valued _ _ [] _ _ (.size rfl) none (@Fits.size _ 1 rfl) .nil
  exact .mk (sections_type.append size) rfl texts

theorem owner_zero : Owner 0 ["state 0 init".toList] :=
  ⟨[], _, [], rfl, ⟨['0'], none, ["init".toList], rfl, rfl⟩, List.forall_mem_nil _⟩

theorem not_isState_transition {target prob : List Char}
    (found : bodyLine? (trim text) = some (.transition target prob)) : ¬ IsState text := by
  rintro ⟨number, reward, labels, state⟩
  cases found.symm.trans state

/-- The block of a state with two actions. -/
def forked : List String :=
  ["state 0 init", "action 0", "0 : 1", "action 1", "0 : 1"]

/-- Two actions in one block are refused. -/
theorem read_twice_forked : BodyOf (oneState forked) (forked.map String.toList) ∧
    TwiceInBlock 0 (forked.map String.toList) ∧ TwoActions 0 (forked.map String.toList) ∧
      ∃ error, read (oneState forked) = .error error := by
  have found : BodyOf (oneState forked) (forked.map String.toList) := bodyOf_oneState (by decide +kernel)
  have edge : ∀ text ∈ ["0 : 1".toList], ¬ IsState text :=
    List.forall_mem_singleton.mpr (@not_isState_transition _ ['0'] ['1'] rfl)
  have twice : TwiceInBlock 0 (forked.map String.toList) :=
    @TwiceInBlock.mk 0 ["state 0 init".toList] _ ["0 : 1".toList] _ ["0 : 1".toList] ⟨none, rfl⟩ ⟨none, rfl⟩
      owner_zero edge
  exact ⟨found, twice, twice.twoActions, (read_twice found).1 0 twice⟩

/-- Two blocks of one state, each with an action. -/
def repeated : List String :=
  ["state 0 init", "action 0", "0 : 0.5", "state 0", "action 1", "0 : 0.5"]

/-- **Two actions of a state may be accepted**: its line is repeated between them. -/
theorem read_repeated : BodyOf (oneState repeated) (repeated.map String.toList) ∧
    TwoActions 0 (repeated.map String.toList) ∧ ∃ r, read (oneState repeated) = .ok r := by
  have found : BodyOf (oneState repeated) (repeated.map String.toList) := bodyOf_oneState (by decide +kernel)
  have named : IsStateOf 0 "state 0".toList := ⟨['0'], none, [], rfl, rfl⟩
  have again : Owner 0 (["state 0 init".toList, "action 0".toList, "0 : 0.5".toList] ++ ["state 0".toList]) :=
    ⟨_, _, [], rfl, named, List.forall_mem_nil _⟩
  have twice : TwoActions 0 (repeated.map String.toList) :=
    @TwoActions.mk 0 ["state 0 init".toList] _ ["0 : 0.5".toList, "state 0".toList] _ ["0 : 0.5".toList]
      ⟨none, rfl⟩ ⟨none, rfl⟩ owner_zero again
  have accepted : (read (oneState repeated)).toOption.isSome = true := by decide +kernel
  obtain ⟨r, hr⟩ := Option.isSome_iff_exists.mp accepted
  exact ⟨found, twice, r, eq_ok_of_toOption hr⟩

end Drn

end HoleBlame
