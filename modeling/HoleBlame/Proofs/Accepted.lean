import HoleBlame.Proofs.RoundTrip

/-!
# What the reader accepts

A text is read line by line, and what has been said before a line restricts what it may say.  Of a text
that is accepted this leaves the following (`Drn.accepted_of_read`).

* The header has named a number of states that fits, and its value for a reward model is a single word
  (`Drn.Header.Sound.of_readHeader`).
* A line of the body says one of four things, or nothing (`Drn.readLine_cases`).  It speaks of states
  that the header has declared, of labels that are words without quotes at their ends, and of no reward
  model but that of the header (`Drn.Body.Sound.of_readLine`).
* The state that is marked as initial carries the label that marks it.

So the chain can be written, and the label of its initial state stands on the line of that state
already.
-/

namespace HoleBlame

namespace Drn

open Text

variable {n : ℕ} {c : Chain Float n}

/-! ## The header -/

/-- What the header has said so far can be part of a chain. -/
structure Header.Sound (h : Header) : Prop where
  name : ∀ name, h.model = some name → name.toList ≠ [] ∧ Solid name.toList
  size : ∀ size, h.size = some size → size < 2 ^ 64

theorem Header.Sound.of_readHeader {h h' : Header} {e : Expecting} {lines : List Line}
    {rest : Option (List Line)} (sound : h.Sound) (read : readHeader h e lines = .ok (h', rest)) :
    h'.Sound := by
  fun_induction readHeader h e lines
  case case6 ih => exact ih ⟨sound.name, sound.size⟩ read
  case case14 word found ih =>
    refine ih ⟨?_, sound.size⟩ read
    rintro name ⟨⟩
    rw [String.toList_ofList]
    exact mem_words (found ▸ List.mem_singleton_self word)
  case case17 size found ih =>
    refine ih ⟨sound.name, ?_⟩ read
    rintro _ ⟨⟩
    exact Decimal.lt_of_readNat found
  all_goals first
    | cases read; done
    | cases read; exact sound
    | rename_i ih; exact ih sound read

/-! ## The lines of the body -/

theorem stateLine?_eq_some {text : List Char} {line : BodyLine} (h : stateLine? text = some line) :
    ∃ number reward rest, line = .state number reward (words rest) := by
  unfold stateLine? at h
  simp only [Option.bind_eq_bind, Option.bind_eq_some_iff] at h
  obtain ⟨_, -, _, -, ⟨number, rest⟩, -, h⟩ := h
  split at h
  · next reward labels _ => exact ⟨number, some reward, labels, (Option.some.inj h).symm⟩
  · exact ⟨number, none, rest, (Option.some.inj h).symm⟩

theorem actionLine?_eq_some {text : List Char} {line : BodyLine} (h : actionLine? text = some line) :
    ∃ reward, line = .action reward := by
  unfold actionLine? at h
  simp only [Option.bind_eq_bind, Option.bind_eq_some_iff] at h
  obtain ⟨_, -, _, -, ⟨_, rest⟩, -, h⟩ := h
  simp only at h
  split at h
  · exact ⟨none, (Option.some.inj h).symm⟩
  · obtain ⟨⟨reward, rest⟩, -, h⟩ := Option.bind_eq_some_iff.mp h
    simp only at h
    split at h
    · exact ⟨some reward, (Option.some.inj h).symm⟩
    · cases h

theorem transitionLine?_eq_some {text : List Char} {line : BodyLine}
    (h : transitionLine? text = some line) : ∃ target prob, line = .transition target prob := by
  unfold transitionLine? at h
  simp only [Option.bind_eq_bind, Option.bind_eq_some_iff] at h
  obtain ⟨⟨target, rest⟩, -, h⟩ := h
  simp only at h
  split at h
  · obtain ⟨⟨prob, rest⟩, -, h⟩ := Option.bind_eq_some_iff.mp h
    simp only at h
    split at h
    · exact ⟨target, prob, (Option.some.inj h).symm⟩
    · cases h
  · cases h

/-- The labels on the line of a state are words. -/
theorem solid_of_bodyLine? {text number : List Char} {reward : Option (List Char)}
    {labels : List (List Char)} (h : bodyLine? text = some (.state number reward labels)) :
    ∀ label ∈ labels, Solid label := by
  unfold bodyLine? at h
  rcases (Option.orElse_eq_some _ _ _).mp h with state | ⟨-, h⟩
  · obtain ⟨_, _, rest, same⟩ := stateLine?_eq_some state
    cases same
    exact fun label hl => (mem_words hl).2
  · rcases (Option.orElse_eq_some _ _ _).mp h with action | ⟨-, transition⟩
    · obtain ⟨_, same⟩ := actionLine?_eq_some action
      cases same
    · obtain ⟨_, _, same⟩ := transitionLine?_eq_some transition
      cases same

theorem lt_of_readState {size line state : ℕ} {text : List Char}
    (h : readState size line text = .ok state) : state < size := by
  unfold readState at h
  split at h
  · cases h
  · split at h
    · next lt => exact Except.ok.inj h ▸ lt
    · cases h

/-- **What a line can say**: nothing, something about a state and its labels, that the state has an
action, or that the action has a transition. -/
theorem readLine_cases {size : ℕ} {model : Option String} {b b' : Body} {line : Line}
    (read : readLine size model b line = .ok b') :
    b' = b ∨
    (∃ state < size, ∃ (labels : List String) (value : Float),
      (∀ label ∈ labels, Solid label.toList ∧ Bare label.toList) ∧
        b' = ⟨stateReward ((labels.map (.labelled state)).foldl Draft.state b.draft) model state value,
          if initLabel ∈ labels then some state else b.initial, some state, false, value⟩) ∨
    (∃ state value, b.current = some state ∧ b.hasAction = false ∧
      b' = { b with draft := stateReward b.draft model state value, hasAction := true }) ∨
    (∃ state prob next, b.current = some state ∧ b.hasAction = true ∧ next < size ∧
      b' = { b with draft := b.draft.state (.transition state prob next) }) := by
  unfold readLine at read
  simp only at read
  split at read
  · exact .inl (Except.ok.inj read).symm
  · split at read
    · cases read
    · next number reward labels found =>
      obtain ⟨state, hs, read⟩ := exists_of_bind_eq_ok read
      obtain ⟨value, -, read⟩ := exists_of_bind_eq_ok read
      obtain rfl := Except.ok.inj read
      refine .inr (.inl ⟨state, lt_of_readState hs,
        labels.map fun label => String.ofList (unquoted label), value, fun label hl => ?_, ?_⟩)
      · obtain ⟨word, hw, rfl⟩ := List.mem_map.mp hl
        rw [String.toList_ofList]
        exact ⟨solid_unquoted (solid_of_bodyLine? found word hw), bare_unquoted word⟩
      · simp only [List.foldl_map]
    · split at read
      · cases read
      · next state hc =>
        split at read
        · cases read
        · next fresh =>
          obtain ⟨value, -, read⟩ := exists_of_bind_eq_ok read
          obtain rfl := Except.ok.inj read
          exact .inr (.inr (.inl ⟨state, b.reward + value, hc, Bool.eq_false_of_not_eq_true fresh, rfl⟩))
    · split at read
      · next state hc ha =>
        obtain ⟨next, hn, read⟩ := exists_of_bind_eq_ok read
        obtain ⟨prob, -, read⟩ := exists_of_bind_eq_ok read
        obtain rfl := Except.ok.inj read
        exact .inr (.inr (.inr ⟨state, prob, next, hc, ha, lt_of_readState hn, rfl⟩))
      · cases read

/-! ## The body -/

/-- A fact that fits a header with so many states and this reward model. -/
structure Admissible (size : ℕ) (model : Option String) (fact : Fact) : Prop where
  size : fact.size ≤ size
  label : ∀ state label, fact = .labelled state label → Solid label.toList ∧ Bare label.toList
  model : ∀ name, fact.model? = some name → model = some name

/-- What the body has said so far fits the header, and the state marked as initial carries the label that
marks it. -/
structure Body.Sound (size : ℕ) (model : Option String) (b : Body) (facts : List Fact) : Prop where
  records : b.draft.Records facts
  admissible : ∀ fact ∈ facts, Admissible size model fact
  current : ∀ state, b.current = some state → state < size
  initial : ∀ state, b.initial = some state → .labelled state initLabel ∈ facts

variable {size : ℕ} {model : Option String} {b b' : Body} {facts : List Fact}

theorem admissible_reward {name : String} (hm : model = some name) {state : ℕ} (lt : state < size)
    (value : Float) : Admissible size model (.reward name state value) where
  size := lt
  label := by rintro _ _ ⟨⟩
  model other h := by
    obtain rfl := Option.some.inj h
    exact hm

/-- Further facts that fit may be stated. -/
theorem Body.Sound.foldl_state (sound : b.Sound size model facts) {more : List Fact}
    (fits : ∀ fact ∈ more, Admissible size model fact) :
    { b with draft := more.foldl Draft.state b.draft }.Sound size model (facts ++ more) where
  records := sound.records.foldl_state more
  admissible := List.forall_mem_append.mpr ⟨sound.admissible, fits⟩
  current := sound.current
  initial state h := List.mem_append_left more (sound.initial state h)

/-- So may the reward of a state, if there is a model for it. -/
theorem Body.Sound.stateReward (sound : b.Sound size model facts) {state : ℕ} (lt : state < size)
    (value : Float) :
    ∃ more, { b with draft := Drn.stateReward b.draft model state value }.Sound size model (facts ++ more) := by
  cases model with
  | none => exact ⟨[], by rwa [List.append_nil]⟩
  | some name =>
    have fits : ∀ fact ∈ [Fact.reward name state value], Admissible size (some name) fact :=
      List.forall_mem_singleton.mpr (admissible_reward rfl lt value)
    exact ⟨_, sound.foldl_state fits⟩

/-- **Every line keeps it that way.** -/
theorem Body.Sound.of_readLine {line : Line} (sound : b.Sound size model facts)
    (read : readLine size model b line = .ok b') : ∃ facts', b'.Sound size model facts' := by
  rcases readLine_cases read with rfl | ⟨state, lt, labels, value, words, rfl⟩ |
    ⟨state, value, hc, -, rfl⟩ | ⟨state, prob, next, hc, -, hn, rfl⟩
  · exact ⟨facts, sound⟩
  · have labelled : ∀ fact ∈ labels.map (Fact.labelled state), Admissible size model fact := by
      intro fact hf
      obtain ⟨label, hl, rfl⟩ := List.mem_map.mp hf
      refine ⟨lt, ?_, by rintro _ ⟨⟩⟩
      rintro _ _ ⟨⟩
      exact words label hl
    obtain ⟨more, rewarded⟩ := (sound.foldl_state labelled).stateReward lt value
    refine ⟨_, rewarded.records, rewarded.admissible, ?_, fun other ho => ?_⟩
    · rintro _ ⟨⟩
      exact lt
    · simp only at ho
      split at ho
      · next marked =>
        obtain rfl := Option.some.inj ho
        exact List.mem_append_left more (List.mem_append_right facts (List.mem_map_of_mem marked))
      · exact rewarded.initial other ho
  · obtain ⟨more, rewarded⟩ := sound.stateReward (sound.current state hc) value
    exact ⟨_, rewarded.records, rewarded.admissible, rewarded.current, rewarded.initial⟩
  · have edge : Admissible size model (.transition state prob next) :=
      ⟨Nat.succ_le_of_lt (max_lt (sound.current state hc) hn), by rintro _ _ ⟨⟩, by rintro _ ⟨⟩⟩
    exact ⟨_, sound.foldl_state (List.forall_mem_singleton.mpr edge)⟩

theorem Body.Sound.of_foldlM {lines : List Line} (sound : b.Sound size model facts)
    (read : lines.foldlM (readLine size model) b = .ok b') : ∃ facts', b'.Sound size model facts' := by
  induction lines generalizing b facts with
  | nil => exact ⟨facts, Except.ok.inj read ▸ sound⟩
  | cons line rest ih =>
    rw [List.foldlM_cons] at read
    obtain ⟨between, first, others⟩ := exists_of_bind_eq_ok read
    obtain ⟨_, next⟩ := sound.of_readLine first
    exact ih next others

theorem sound_ofSize (size : ℕ) (model : Option String) :
    Body.Sound size model ⟨Draft.ofSize size, none, none, false, 0⟩ [.states size] where
  records := Draft.records_ofSize size
  admissible := List.forall_mem_singleton.mpr ⟨Nat.le_refl size, by rintro _ _ ⟨⟩, by rintro _ ⟨⟩⟩
  current := by rintro _ ⟨⟩
  initial := by rintro _ ⟨⟩

/-! ## The whole text -/

/-- What a chain from a text has beyond what writing it takes for granted. -/
structure Accepted (c : Chain Float n) : Prop extends Writable c where
  names : c.labelling.names.Nodup
  bare : ∀ s, ∀ label ∈ c.labelling.labelsOf s, Bare label.toList
  initial : initLabel ∈ c.labelling.labelsOf c.initial

/-- The parts of a text that is accepted. -/
theorem exists_of_read {bytes : List UInt8} {r : (n : ℕ) × Chain Float n} (h : read bytes = .ok r) :
    ∃ header body size b initial,
      readHeader ⟨false, none, none⟩ .section (lines bytes) = .ok (header, some body) ∧
        header.size = some size ∧
          body.foldlM (readLine size header.model) ⟨Draft.ofSize size, none, none, false, 0⟩ = .ok b ∧
            b.initial = some initial ∧ b.draft.finish initial = .ok r := by
  unfold read at h
  obtain ⟨⟨header, body?⟩, read, h⟩ := exists_of_bind_eq_ok h
  simp only at h
  split at h
  · cases h
  · split at h
    · cases h
    · cases h
    · next body size hs =>
      obtain ⟨b, run, h⟩ := exists_of_bind_eq_ok h
      split at h
      · cases h
      · next initial hi =>
        split at h
        · next chain finish =>
          obtain rfl := Except.ok.inj h
          exact ⟨header, body, size, b, initial, read, hs, run, hi, finish⟩
        · cases h

/-- **What is accepted can be written.** -/
theorem accepted_of_read {bytes : List UInt8} (h : read bytes = .ok ⟨n, c⟩) : Accepted c := by
  obtain ⟨header, body, size, b, initial, header_read, hs, run, hi, finish⟩ := exists_of_read h
  have headerSound : header.Sound := by
    have nothing : Header.Sound ⟨false, none, none⟩ := ⟨by rintro _ ⟨⟩, by rintro _ ⟨⟩⟩
    exact nothing.of_readHeader header_read
  obtain ⟨facts, sound⟩ := (sound_ofSize size header.model).of_foldlM run
  have described := Draft.finish_eq_ok_iff.mp finish
  have carried {s : Fin n} {label : String} : label ∈ c.labelling.labelsOf s ↔
      .labelled s.val label ∈ facts := by
    rw [Labelling.mem_labelsOf, described.labelling, sound.records.has_labelling (Nat.le_of_eq described.size)]
  have word {s : Fin n} {label : String} (hl : label ∈ c.labelling.labelsOf s) :
      Solid label.toList ∧ Bare label.toList :=
    (sound.admissible _ (carried.mp hl)).label s label rfl
  have fits : n ≤ size := by
    rw [← described.size, sound.records.size]
    exact fun fact hf => (sound.admissible fact hf).size
  refine ⟨⟨fits.trans_lt (headerSound.size size hs), fun s label hl => (word hl).1, fun m hm => ?_,
    fun s e he => described.valid_row he, described.sums⟩, c.labelling.distinct, fun s label hl => (word hl).2, ?_⟩
  · rw [described.reward] at hm
    obtain ⟨name, hn, rfl⟩ := Option.map_eq_some_iff.mp hm
    rw [sound.records.model?] at hn
    obtain ⟨fact, hf, same⟩ := List.exists_of_findSome?_eq_some hn
    exact headerSound.name name ((sound.admissible fact hf).model name same)
  · rw [carried, described.initial]
    exact sound.initial initial hi

end Drn

end HoleBlame
