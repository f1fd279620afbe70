import HoleBlame.Proofs.Documents

/-!
# A document builds the chain that it describes

The reader goes through a text line by line and carries along what has been said so far.  Of the many texts of
one document it is told the same (`Drn.Says`): blank lines and comments say nothing, and the lines of a block
state the facts of the block and leave no trace but that of the state they were about (`Drn.Block.after`).  So
the blocks may come in any order.

A document is accepted iff a block carries the label of the initial state and the transitions alone would be
accepted (`Drn.read_written`).  The chain then has what the blocks say, state by state
(`Drn.Document.Describes`).
-/

namespace HoleBlame

open Text

variable {n : ℕ}

namespace Drn

/-! ## What the lines of a document say -/

namespace Block

variable (model : Option String) (b : Block n)

/-- What has been said after a block. -/
def after (body : Body) : Body where
  draft := (b.facts model).foldl Draft.state body.draft
  initial := if initLabel ∈ b.labels then some b.state else body.initial
  current := some b.state
  hasAction := true
  reward := b.reward.getD 0

end Block

/-- Whatever the numbers of the lines are, reading them takes what has been said so far from the one to the
other. -/
inductive Says (n : ℕ) (model : Option String) : List (List Char) → Body → Body → Prop
  | nil {b} : Says n model [] b b
  | cons {text texts b b' b''} (first : ∀ k, readLine n model b ⟨k, text⟩ = .ok b')
      (others : Says n model texts b' b'') : Says n model (text :: texts) b b''

variable {model : Option String} {b b' b'' body : Body} {text : List Char}
  {texts kept lines : List (List Char)} {block : Block n} {blocks : List (Block n)}

namespace Says

theorem append (h : Says n model texts b b') (h' : Says n model kept b' b'') :
    Says n model (texts ++ kept) b b'' := by
  induction h with
  | nil => exact h'
  | cons first others ih => exact .cons first (ih h')

theorem foldlM (h : Says n model texts b b') (k : ℕ) :
    (numberFrom k texts).foldlM (readLine n model) b = .ok b' := by
  induction h generalizing k with
  | nil => rfl
  | cons first others ih =>
    rw [numberFrom, List.foldlM_cons, first k]
    exact ih (k + 1)

/-- Blank lines and comments say nothing. -/
theorem padded (padded : Padded kept lines) (h : Says n model kept b b') : Says n model lines b b' := by
  induction padded generalizing b with
  | nil => exact h
  | line rest ih =>
    cases h with
    | cons first others => exact .cons first (ih others)
  | silent silent rest ih =>
    refine .cons (fun k => ?_) (ih h)
    simp only [readLine, isSilent_of_silent silent, if_true]

end Says

/-! ### Lines -/

theorem StateLine.readLine_eq (line : StateLine block text) (k : ℕ) :
    readLine n model b ⟨k, text⟩ = .ok
      ⟨stateReward ((block.labels.map (.labelled block.state)).foldl Draft.state b.draft) model
          block.state (block.reward.getD 0),
        if initLabel ∈ block.labels then some block.state else b.initial,
        some block.state, false, block.reward.getD 0⟩ := by
  obtain ⟨number, reward, labels, silent, found, reads, value, names⟩ := line.bodyLine?_eq
  simp only [readLine, silent, found, readState_of_readNat reads, value, names, List.foldl_map]
  rfl

theorem ActionLine.readLine_eq {value : Option Float} {s : ℕ} (line : ActionLine value text)
    (hb : b.current = some s) (ha : b.hasAction = false) (k : ℕ) : readLine n model b ⟨k, text⟩ = .ok
      { b with draft := stateReward b.draft model s (b.reward + value.getD 0), hasAction := true } := by
  obtain ⟨reward, silent, found, reads⟩ := line.bodyLine?_eq
  simp only [readLine, silent, found, hb, ha, reads]
  rfl

theorem EdgeLine.readLine_eq {e : Edge Float n} {s : ℕ} (line : EdgeLine e text)
    (hb : b.current = some s) (ha : b.hasAction = true) (k : ℕ) : readLine n model b ⟨k, text⟩ = .ok
      { b with draft := b.draft.state (.transition s e.prob e.next) } := by
  obtain ⟨number, prob, silent, found, target, reads⟩ := line.bodyLine?_eq
  simp only [readLine, silent, found, hb, ha, readState_of_readNat target, readNumber, reads]
  rfl

theorem says_edges {edges : List (Edge Float n)} {s : ℕ} (h : List.Forall₂ EdgeLine edges texts)
    (hb : b.current = some s) (ha : b.hasAction = true) : Says n model texts b
      { b with draft := (edges.map fun e => .transition s e.prob e.next).foldl Draft.state b.draft } := by
  induction h generalizing b with
  | nil => exact .nil
  | cons line others ih => exact .cons (line.readLine_eq hb ha) (ih hb ha)

theorem stateReward_eq_foldl (draft : Draft) :
    stateReward (stateReward draft model block.state (block.reward.getD 0)) model block.state
        (block.reward.getD 0 + block.action.getD 0) =
      (block.rewards model).foldl Draft.state draft := by
  unfold stateReward Block.rewards
  cases model <;> rfl

/-- **The lines of a block** state its facts. -/
theorem BlockLines.says (h : BlockLines block texts) : Says n model texts b (block.after model b) := by
  obtain ⟨first, second, others⟩ := h
  refine .cons first.readLine_eq (.cons (second.readLine_eq rfl rfl) ?_)
  rw [stateReward_eq_foldl, Block.after, Block.facts, List.foldl_append, List.foldl_append]
  exact says_edges others rfl rfl

/-- The lines of all blocks state the facts of one block after the other. -/
theorem says_blocks {chunks : List (List (List Char))} (h : List.Forall₂ BlockLines blocks chunks) :
    Says n model chunks.flatten b (blocks.foldl (fun b block => block.after model b) b) := by
  induction h generalizing b with
  | nil => exact .nil
  | cons first others ih => exact first.says.append ih

/-! ## The header -/

namespace Header

/-- What the header has said after a section. -/
def say (h : Header) : Part → Header
  | .type => { h with hasType := true }
  | .size count => { h with size := some count }
  | .model name => { h with model := some name }

variable {h : Header} {parts : List Part} {front gaps : List (List Char)} {rest : List Line} {k : ℕ}

/-- What counts about the line of a section is what stands between the blanks. -/
theorem readHeader_congr {other : List Char} (same : trim text = trim other) :
    readHeader h .section (⟨k, text⟩ :: rest) = readHeader h .section (⟨k, other⟩ :: rest) := by
  rw [readHeader, readHeader]
  simp only [same]

theorem readHeader_of_silent (silent : Silent text) :
    readHeader h .section (⟨k, text⟩ :: rest) = readHeader h .section rest := by
  rw [readHeader]
  simp only [isSilent_of_silent silent, if_true]

theorem readHeader_of_framed {c : Char} {core : List Char} (framed : Framed (c :: core) text)
    (solid : Solid (c :: core)) :
    readHeader h .section (⟨k, text⟩ :: rest) = readHeader h .section (⟨k, c :: core⟩ :: rest) :=
  readHeader_congr <| (trim_framed framed (solid c List.mem_cons_self) (firm_of_solid solid)).trans
    (trim_of_solid solid).symm

theorem readHeader_of_type {name : List Char} (named : trim text = "@type:".toList ++ name)
    (chain : trim name = "DTMC".toList) : readHeader h .section (⟨k, text⟩ :: rest) =
      readHeader { h with hasType := true } .section rest := by
  have silent : isSilent ("@type:".toList ++ name) = false := isSilent_cons (by decide)
  rw [readHeader]
  simp only [named, silent, after?_append, chain, if_true]
  rfl

theorem readHeader_of_framed_type {gap : List Char} (blanks : Blanks gap)
    (framed : Framed ("@type:".toList ++ (gap ++ "DTMC".toList)) text) :
    readHeader h .section (⟨k, text⟩ :: rest) = readHeader { h with hasType := true } .section rest := by
  have solid : Solid "DTMC".toList := by decide
  have firm : Firm ("@type:".toList ++ (gap ++ "DTMC".toList)) :=
    ((firm_of_solid solid).behind (by decide)).behind (List.append_ne_nil_of_right_ne_nil _ (by decide))
  exact readHeader_of_type (trim_framed framed (by decide) firm)
    (trim_framed ⟨gap, [], blanks, by decide, (List.append_nil _).symm⟩ (by decide) (firm_of_solid solid))

theorem words_blanks {gap : List Char} (blanks : Blanks gap) : words gap = [] := by
  have none : wordsFrom [] (gap ++ []) = wordsFrom [] [] := wordsFrom_append_blanks blanks
  rw [List.append_nil] at none
  exact none

/-- A word between blanks is the only word of its line. -/
theorem words_framed {name : List Char} (framed : Framed name text) (ne : name ≠ []) (solid : Solid name) :
    words text = [name] := by
  obtain ⟨indent, tail, hi, ht, rfl⟩ := framed
  have apart : Apart tail := fun c hc => ht c (List.mem_of_head? hc)
  have none : wordsFrom [] tail = [] := words_blanks ht
  rw [words, List.append_assoc, wordsFrom_append_blanks hi, wordsFrom_append solid, List.append_nil,
    wordsFrom_of_apart apart (by simpa using ne), none, List.reverse_reverse]

/-- A blank line is skipped, whatever is expected. -/
theorem readHeader_of_blanks {e : Expecting} (blank : Blanks text) :
    readHeader h e (⟨k, text⟩ :: rest) = readHeader h e rest := by
  have silent : isSilent [] = true := rfl
  cases e <;> rw [readHeader] <;> simp only [trim_blanks blank, words_blanks blank, silent, if_true]

theorem readHeader_blanks {e : Expecting} (blanks : ∀ gap ∈ gaps, Blanks gap) : ∃ k',
    readHeader h e (numberFrom k (gaps ++ front)) = readHeader h e (numberFrom k' front) := by
  induction gaps generalizing k with
  | nil => exact ⟨k, rfl⟩
  | cons gap gaps ih =>
    obtain ⟨first, others⟩ := List.forall_mem_cons.mp blanks
    obtain ⟨k', same⟩ := ih (k := k + 1) others
    exact ⟨k', (readHeader_of_blanks first).trans same⟩

/-- **The lines of a header** say its sections. -/
theorem readHeader_lines {lines : List (List Char)} (written : HeaderLines parts lines) : ∃ k',
    readHeader h .section (numberFrom k (lines ++ front)) =
      .ok (parts.foldl say h, some (numberFrom k' front)) := by
  induction written generalizing h k with
  | nil framed =>
    refine ⟨k + 1, ?_⟩
    exact (readHeader_of_framed framed (by decide)).trans (readHeader_model _ _ _)
  | silent silent rest ih =>
    obtain ⟨k', read⟩ := ih (h := h) (k := k + 1)
    exact ⟨k', (readHeader_of_silent silent).trans read⟩
  | type blanks framed rest ih =>
    obtain ⟨k', read⟩ := ih (h := h.say .type) (k := k + 1)
    exact ⟨k', (readHeader_of_framed_type blanks framed).trans read⟩
  | @size text gaps number value count parts lines framed blanks numeral framed' rest ih =>
    obtain ⟨j, skip⟩ : ∃ j, readHeader h .size (numberFrom (k + 1) (gaps ++ value :: (lines ++ front))) =
      readHeader h .size (numberFrom j (value :: (lines ++ front))) := readHeader_blanks blanks
    obtain ⟨k', read⟩ := ih (h := h.say (.size count)) (k := j + 1)
    obtain ⟨c, digits, rfl, digit⟩ := numeral.exists_cons
    have trimmed := trim_framed framed' (isBlank_of_isDigit digit) (firm_of_solid numeral.solid)
    refine ⟨k', ?_⟩
    calc readHeader h .section (numberFrom k (text :: (gaps ++ value :: lines) ++ front))
      _ = readHeader h .size (numberFrom (k + 1) (gaps ++ value :: (lines ++ front))) := by
        rw [List.cons_append, numberFrom, List.append_assoc, List.cons_append,
          readHeader_of_framed framed (by decide)]
        exact readHeader_states _ _ _
      _ = readHeader (h.say (.size count)) .section (numberFrom (j + 1) (lines ++ front)) := by
        rw [skip, numberFrom, readHeader]
        simp only [trimmed, reduceCtorEq, if_false, numeral.reads, say]
      _ = _ := read
  | @model text gaps name value parts lines framed blanks ne solid framed' rest ih =>
    obtain ⟨j, skip⟩ :
      ∃ j, readHeader h .rewardModels (numberFrom (k + 1) (gaps ++ value :: (lines ++ front))) =
        readHeader h .rewardModels (numberFrom j (value :: (lines ++ front))) := readHeader_blanks blanks
    obtain ⟨k', read⟩ := ih (h := h.say (.model name)) (k := j + 1)
    refine ⟨k', ?_⟩
    calc readHeader h .section (numberFrom k (text :: (gaps ++ value :: lines) ++ front))
      _ = readHeader h .rewardModels (numberFrom (k + 1) (gaps ++ value :: (lines ++ front))) := by
        rw [List.cons_append, numberFrom, List.append_assoc, List.cons_append,
          readHeader_of_framed framed (by decide)]
        exact readHeader_rewardModels _ _ _
      _ = readHeader (h.say (.model name)) .section (numberFrom (j + 1) (lines ++ front)) := by
        rw [skip, numberFrom, readHeader]
        simp only [words_framed framed' ne solid, String.ofList_toList, say]
      _ = _ := read

/-- A header whose sections agree says what they say. -/
theorem foldl_say {model : Option String} (type : h.hasType = true ∨ .type ∈ parts)
    (size : h.size = some n ∨ .size n ∈ parts) (sizes : ∀ count, .size count ∈ parts → count = n)
    (named : h.model = model ∨ ∃ name, .model name ∈ parts)
    (names : ∀ name, .model name ∈ parts → model = some name) :
    parts.foldl say h = ⟨true, model, some n⟩ := by
  induction parts generalizing h with
  | nil =>
    obtain ⟨hasType, _, _⟩ := h
    simp_all
  | cons part parts ih =>
    refine ih ?_ ?_ (fun count mem => sizes count (List.mem_cons_of_mem _ mem)) ?_
      fun name mem => names name (List.mem_cons_of_mem _ mem)
    all_goals cases part <;> simp_all [say]

end Header

/-- **The header of a document** is read, up to the first line of the body. -/
theorem Document.Declares.readHeader_eq {d : Document n} {parts : List Part} {header : List (List Char)}
    (declares : d.Declares parts) (written : HeaderLines parts header) (texts : List (List Char)) : ∃ k,
    readHeader ⟨false, none, none⟩ .section (numberFrom 1 (header ++ texts)) =
      .ok (⟨true, d.model, some n⟩, some (numberFrom k texts)) := by
  obtain ⟨k, read⟩ : ∃ k, readHeader ⟨false, none, none⟩ .section (numberFrom 1 (header ++ texts)) =
      .ok (parts.foldl Header.say ⟨false, none, none⟩, some (numberFrom k texts)) :=
    Header.readHeader_lines written
  refine ⟨k, ?_⟩
  rw [read, Header.foldl_say (.inr declares.type) (.inr ((declares.size n).mpr rfl))
    (fun count => (declares.size count).mp) ?_ fun name => (declares.model name).mp]
  cases named : d.model with
  | none => exact .inl rfl
  | some name => exact .inr ⟨name, (declares.model name).mpr named⟩

/-! ## What all blocks say -/

theorem draft_foldl_after (blocks : List (Block n)) (b : Body) :
    (blocks.foldl (fun b block => block.after model b) b).draft =
      (blocks.flatMap (·.facts model)).foldl Draft.state b.draft := by
  induction blocks generalizing b with
  | nil => rfl
  | cons block blocks ih =>
    rw [List.foldl_cons, ih, List.flatMap_cons, List.foldl_append]
    rfl

/-- Of several blocks that mark the initial state, the last one counts. -/
theorem initial_foldl_after (blocks : List (Block n)) (b : Body) :
    (blocks.foldl (fun b block => block.after model b) b).initial =
      ((blocks.reverse.find? (initLabel ∈ ·.labels)).map (·.state.val)).or b.initial := by
  induction blocks using List.reverseRecOn with
  | nil => rfl
  | append_singleton blocks block ih =>
    rw [List.foldl_append, List.foldl_cons, List.foldl_nil, List.reverse_append, List.reverse_singleton,
      List.singleton_append, List.find?_cons, Block.after, ih]
    by_cases marked : initLabel ∈ block.labels <;> simp [marked]

/-! ## Reading a document -/

/-- A text is read as what its document says. -/
theorem read_eq {d : Document n} (written : d.Written texts) {bytes : List UInt8}
    (cut : Text.lines bytes = numberFrom 1 texts) :
    read bytes = match d.blocks.reverse.find? (initLabel ∈ ·.labels) with
      | none => .error .missingInitialState
      | some b =>
        match d.draft.finish b.state with
        | .ok chain => .ok chain
        | .error error => .error (.chain error) := by
  obtain ⟨parts, front, chunks, rest, declares, header, blocks, padded, rfl⟩ := written.lines
  obtain ⟨k, headerRead⟩ := declares.readHeader_eq header rest
  let start : Body := ⟨Draft.ofSize n, none, none, false, 0⟩
  have said : Says n d.model rest start (d.blocks.foldl (fun b block => block.after d.model b) start) :=
    (says_blocks blocks).padded padded
  rw [read, cut, headerRead]
  show (numberFrom k rest).foldlM (readLine n d.model) start >>= _ = _
  rw [said.foldlM k]
  dsimp only [bind, Except.bind]
  rw [draft_foldl_after, initial_foldl_after, Option.or_none]
  cases d.blocks.reverse.find? (initLabel ∈ ·.labels) <;> rfl

/-- **The reader builds the chain that a document describes.**  However a document is written, it is accepted
iff some block marks its state as the initial one and the transitions of all blocks make up a chain. -/
theorem read_written {d : Document n} (written : d.Written texts) {bytes : List UInt8}
    (cut : Text.lines bytes = numberFrom 1 texts) :
    ((∃ r, read bytes = .ok r) ↔
        ∃ b ∈ d.blocks, initLabel ∈ b.labels ∧ ∃ r, d.transitions.finish b.state = .ok r) ∧
      ∀ r, read bytes = .ok r → ∃ c : Chain Float n, r = ⟨n, c⟩ ∧ d.Describes c := by
  rw [read_eq written cut]
  cases found : d.blocks.reverse.find? (initLabel ∈ ·.labels) with
  | none =>
    have unmarked : ∀ b ∈ d.blocks, initLabel ∉ b.labels := fun b hb => by
      simpa using List.find?_eq_none.mp found b (List.mem_reverse.mpr hb)
    refine ⟨⟨?_, ?_⟩, ?_⟩
    · rintro ⟨r, ⟨⟩⟩
    · rintro ⟨b, hb, marked, -⟩
      exact absurd marked (unmarked b hb)
    · rintro r ⟨⟩
  | some b =>
    obtain ⟨marked, front, back, split, last⟩ := Document.last_marked found
    have mem : b ∈ d.blocks := by simp [split]
    cases finished : d.draft.finish b.state with
    | ok r =>
      simp only [finished]
      have accepted : ∃ r, d.transitions.finish b.state = .ok r :=
        Document.exists_finish_draft.mp ⟨r, finished⟩
      refine ⟨⟨fun _ => ⟨b, mem, marked, accepted⟩, fun _ => ⟨r, rfl⟩⟩, ?_⟩
      rintro _ ⟨⟩
      obtain ⟨m, c⟩ := r
      have described := Draft.finish_eq_ok_iff.mp finished
      obtain rfl : n = m := d.size_draft.symm.trans described.size
      exact ⟨c, rfl, Document.describes_of_draft described split marked last⟩
    | error error =>
      simp only [finished]
      refine ⟨⟨?_, ?_⟩, ?_⟩
      · rintro ⟨r, ⟨⟩⟩
      · rintro ⟨other, -, -, accepted⟩
        obtain ⟨r, ok⟩ := Document.exists_finish_draft.mpr accepted
        rw [finished] at ok
        cases ok
      · rintro r ⟨⟩

/-- Heads are seen. -/
def heads : Block 2 :=
  ⟨⟨1, Nat.one_lt_two⟩, none, ["heads", "done"], none, [⟨⟨1, Nat.one_lt_two⟩, 1⟩]⟩

/-- The coin is tossed, at a price. -/
def tossed : Block 2 :=
  ⟨⟨0, Nat.two_pos⟩, some 0.5, ["init"], some 0.25, [⟨⟨0, Nat.two_pos⟩, 0.5⟩, ⟨⟨1, Nat.one_lt_two⟩, 0.5⟩]⟩

/-- A coin is tossed until it shows heads. -/
def toss : Document 2 :=
  ⟨some "cost", [heads, tossed], by decide⟩

/-- One of its texts. -/
def tossLines : List (List Char) :=
  ["@nr_states", "", " 2", "// Every toss is paid for twice.", "@reward_models", "cost", "@type:DTMC",
    "@model", "state 1 \"heads\" done", "  action rest [ ]", "  1:1", "", "state 0 [0.5, 7] init",
    "  action toss [.25]", "    // One side or the other.", "    0 : 0.5", "    1 : 5e-1"].map String.toList

theorem blockLines_heads : BlockLines heads
    (["state 1 \"heads\" done", "  action rest [ ]", "  1:1"].map String.toList) := by
  have labels : Labelled ["heads", "done"]
      ([' '] ++ ("\"heads\"".toList ++ ([' '] ++ ("done".toList ++ [])))) :=
    .cons (by decide) (by decide) ⟨by decide, by decide, by decide, ⟨1, 1, rfl⟩, by decide⟩
      (.cons (by decide) (by decide) ⟨by decide, by decide, by decide, ⟨0, 0, rfl⟩, by decide⟩ .nil)
  have reward : InBrackets none ([' '] ++ '[' :: ([' '] ++ [] ++ [']'])) :=
    .brackets (by decide) (by decide) (.nothing (by decide)) .nothing
  have one : Numeral 1 ['1'] := ⟨List.forall_mem_singleton.mpr rfl, rfl⟩
  have certain : Decimal.readFloat ['1'] = .ok 1 := by decide +kernel
  refine @BlockLines.mk _ _ _ _ [_]
    ⟨[' '], ['1'], [], _, ?_, ?_, one, .missing, labels, [], [], ?_, ?_, rfl⟩
    ⟨[' '], "rest".toList, _, ?_, ?_, ?_, ?_, reward, [' ', ' '], [], ?_, ?_, rfl⟩
    (.cons ⟨['1'], [], [], _, one, ?_, ?_, certain, [' ', ' '], [], ?_, ?_, rfl⟩ .nil)
  all_goals decide

theorem blockLines_tossed : BlockLines tossed (["state 0 [0.5, 7] init", "  action toss [.25]",
    "    0 : 0.5", "    1 : 5e-1"].map String.toList) := by
  have labels : Labelled ["init"] ([' '] ++ ("init".toList ++ [])) :=
    .cons (by decide) (by decide) ⟨by decide, by decide, by decide, ⟨0, 0, rfl⟩, by decide⟩ .nil
  have zero : Numeral 0 ['0'] := ⟨List.forall_mem_singleton.mpr rfl, rfl⟩
  have one : Numeral 1 ['1'] := ⟨List.forall_mem_singleton.mpr rfl, rfl⟩
  have half : Decimal.readFloat "0.5".toList = .ok 0.5 := by decide +kernel
  have half' : Decimal.readFloat "5e-1".toList = .ok 0.5 := by decide +kernel
  have quarter : Decimal.readFloat ".25".toList = .ok 0.25 := by decide +kernel
  have first : InBrackets (some 0.5)
      ([' '] ++ '[' :: (([] ++ "0.5".toList ++ []) ++ ", 7".toList ++ [']'])) :=
    .brackets (by decide) (by decide) (.literal (by decide) half (by decide)) (.comma (by decide))
  have second : InBrackets (some 0.25) ([' '] ++ '[' :: (([] ++ ".25".toList ++ []) ++ [] ++ [']'])) :=
    .brackets (by decide) (by decide) (.literal (by decide) quarter (by decide)) .nothing
  refine @BlockLines.mk _ _ _ _ [_, _]
    ⟨[' '], ['0'], _, _, ?_, ?_, zero, first, labels, [], [], ?_, ?_, rfl⟩
    ⟨[' '], "toss".toList, _, ?_, ?_, ?_, ?_, second, [' ', ' '], [], ?_, ?_, rfl⟩
    (.cons ⟨['0'], [' '], [' '], _, zero, ?_, ?_, half, "    ".toList, [], ?_, ?_, rfl⟩
      (.cons ⟨['1'], [' '], [' '], _, one, ?_, ?_, half', "    ".toList, [], ?_, ?_, rfl⟩ .nil))
  all_goals decide

theorem written_toss : toss.Written tossLines := by
  have declares : toss.Declares [.size 2, .model "cost", .type] :=
    ⟨by simp, fun count => by simp, fun name => by simp [toss, eq_comm]⟩
  have whole {text : List Char} : Framed text text := ⟨[], [], by decide, by decide, by simp⟩
  have type : HeaderLines [.type] ["@type:DTMC".toList, "@model".toList] :=
    @HeaderLines.type [] _ _ _ (by decide) whole (.nil whole)
  have model := @HeaderLines.model "@reward_models".toList [] "cost" _ _ _ whole (by decide)
    (by decide) (by decide) whole type
  have two : Numeral 2 ['2'] := ⟨List.forall_mem_singleton.mpr rfl, rfl⟩
  have comment : Silent "// Every toss is paid for twice.".toList := .inr ⟨[], _, by decide, rfl⟩
  have header := @HeaderLines.size "@nr_states".toList [[]] ['2'] " 2".toList 2 _ _ whole (by decide)
    two ⟨[' '], [], by decide, by decide, rfl⟩ (.silent comment model)
  have aside : Silent "    // One side or the other.".toList :=
    .inr ⟨"    ".toList, _, by decide, rfl⟩
  exact ⟨_, _, _, _, declares, header, .cons blockLines_heads (.cons blockLines_tossed .nil),
    .line (.line (.line (.silent (.inl (by decide))
      (.line (.line (.silent aside (.line (.line .nil)))))))), rfl⟩

/-- The text about the coin is read as what it says. -/
theorem read_toss : toss.Written tossLines ∧
    Text.lines (bytesOf (tossLines.flatMap (· ++ ['\n']))) = numberFrom 1 tossLines ∧
      ∃ c : Chain Float 2, read (bytesOf (tossLines.flatMap (· ++ ['\n']))) = .ok ⟨2, c⟩ ∧
        toss.Describes c := by
  have cut : Text.lines (bytesOf (tossLines.flatMap (· ++ ['\n']))) = numberFrom 1 tossLines := by
    decide +kernel
  have stochastic : (toss.transitions.finish 0).toOption.isSome = true := by decide +kernel
  obtain ⟨r, built⟩ := Option.isSome_iff_exists.mp stochastic
  obtain ⟨accepts, describes⟩ := read_written written_toss cut
  obtain ⟨r, hr⟩ := accepts.mpr ⟨tossed, by simp [toss], by decide, r, eq_ok_of_toOption built⟩
  obtain ⟨c, rfl, described⟩ := describes r hr
  exact ⟨written_toss, cut, c, hr, described⟩

end Drn

end HoleBlame
