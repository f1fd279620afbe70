import HoleBlame.Proofs.Blocks
import HoleBlame.Proofs.Written

/-!
# Reading a written chain

What is read back from the text of a chain follows line by line.  Reading the lines of a state states
its labels, its reward twice, and its transitions (`Drn.foldlM_blockChars`), provided that what stands
in brackets can be read as a reward.  So the text is read iff this holds of every state and some state
is marked as initial (`Drn.read_write_iff`).

The chain that is read back (`Drn.reread`) has the rows of the one that was written.  Its labels are
those for which the lines of the states were taken (`Drn.has_reread`), and its initial state is the last
that is marked, whichever it was before.
-/

namespace HoleBlame

namespace Drn

open Text

variable {n : ℕ} (c : Chain Float n) (s : Fin n)

/-! ## What the lines of a state say -/

/-- The labels with which a state is read back. -/
def rereadLabels : List String :=
  (recognised c s).2.map fun label => String.ofList (unquoted label)

/-- The reward with which a state is read back. -/
def rereadReward : Except DrnError Float :=
  readReward (recognised c s).1

/-- The name of the reward model. -/
def modelName : Option String :=
  c.reward.map (·.name)

/-- The facts on the line of a state and on that of its action about its reward. -/
def rewardFacts (value : Float) : List Fact :=
  match modelName c with
  | some name => [.reward name s value, .reward name s (value + 0)]
  | none => []

/-- The facts on the lines of a state. -/
def blockFacts (value : Float) : List Fact :=
  (rereadLabels c s).map (.labelled s) ++ (rewardFacts c s value ++
    (c.row s).map fun e => .transition s e.prob e.next)

/-- What has been said when the line of a state has been read. -/
def afterStateLine (b : Body) (value : Float) : Body where
  draft := stateReward ((rereadLabels c s).foldl (fun draft label =>
    draft.state (.labelled s label)) b.draft) (modelName c) s value
  initial := if initLabel ∈ rereadLabels c s then some s else b.initial
  current := some s
  hasAction := false
  reward := value

/-- What has been said when the lines of a state have been read. -/
def afterBlock (b : Body) (value : Float) : Body where
  draft := (blockFacts c s value).foldl Draft.state b.draft
  initial := if initLabel ∈ rereadLabels c s then some s else b.initial
  current := some s
  hasAction := true
  reward := value

variable {c s}

theorem isSilent_cons {d : Char} {text : List Char} (h : d ≠ '/') : isSilent (d :: text) = false := by
  rw [isSilent, after?_cons_of_ne (Ne.symm h)]
  rfl

theorem isSilent_natDigits (k : ℕ) (rest : List Char) :
    isSilent (Decimal.natDigits k ++ rest) = false := by
  have slash : after? ['/', '/'] (Decimal.natDigits k ++ rest) = none :=
    after?_natDigits (by decide) k rest
  rw [isSilent, slash]
  simp [Decimal.natDigits_ne_nil]

theorem readState_of_readNat {number : List Char} (reads : Decimal.readNat number = .ok s.val) (k : ℕ) :
    readState n k number = .ok s.val := by
  rw [readState, reads]
  exact if_pos s.isLt

theorem readState_natDigits (size : n < 2 ^ 64) (s : Fin n) (k : ℕ) :
    readState n k (Decimal.natDigits s) = .ok s.val :=
  readState_of_readNat (Decimal.readNat_natDigits (s.isLt.trans size)) k

theorem readLine_stateChars (size : n < 2 ^ 64) (b : Body) (k : ℕ) :
    readLine n (modelName c) b ⟨k, stateChars c s⟩ =
      (rereadReward c s).map (afterStateLine c s b) := by
  have silent : isSilent (trim (stateChars c s)) = false := by
    rw [trim_stateChars]
    exact isSilent_cons (by decide)
  simp only [readLine, silent, bodyLine?_stateChars, readState_natDigits size]
  unfold rereadReward
  cases readReward (recognised c s).1 <;> rfl

theorem readLine_actionChars (b : Body) (k : ℕ) (hb : b.current = some s.val)
    (ha : b.hasAction = false) : readLine n (modelName c) b ⟨k, actionChars⟩ =
      .ok { b with draft := stateReward b.draft (modelName c) s (b.reward + 0), hasAction := true } := by
  have silent : isSilent (trim actionChars) = false := by decide +kernel
  simp only [readLine, silent, bodyLine?_actionChars, hb, ha]
  rfl

theorem readLine_edgeChars (size : n < 2 ^ 64) {e : Edge Float n} (he : e.prob.isNaN = false)
    (b : Body) (k : ℕ) (hb : b.current = some s.val) (ha : b.hasAction = true) :
    readLine n (modelName c) b ⟨k, edgeChars e⟩ =
      .ok { b with draft := b.draft.state (.transition s e.prob e.next) } := by
  have silent : isSilent (trim (edgeChars e)) = false := by
    rw [trim_edgeChars]
    exact isSilent_natDigits _ _
  simp only [readLine, silent, bodyLine?_edgeChars, hb, ha, readState_natDigits size, readNumber,
    Decimal.readFloat_numberText he]
  rfl

theorem foldlM_edgeChars (size : n < 2 ^ 64) {edges : List (Edge Float n)}
    (he : ∀ e ∈ edges, e.prob.isNaN = false) (b : Body) (k : ℕ) (hb : b.current = some s.val)
    (ha : b.hasAction = true) :
    (numberFrom k (edges.map edgeChars)).foldlM (readLine n (modelName c)) b =
      .ok { b with draft :=
        (edges.map fun e => .transition s e.prob e.next).foldl Draft.state b.draft } := by
  induction edges generalizing b k with
  | nil => rfl
  | cons e rest ih =>
    obtain ⟨first, others⟩ := List.forall_mem_cons.mp he
    simp only [List.map_cons, numberFrom, List.foldlM_cons, readLine_edgeChars size first b k hb ha,
      List.foldl_cons]
    exact ih others _ _ hb ha

theorem foldl_stateReward (draft : Draft) (value : Float) :
    stateReward (stateReward draft (modelName c) s value) (modelName c) s (value + 0) =
      (rewardFacts c s value).foldl Draft.state draft := by
  unfold stateReward rewardFacts
  cases modelName c <;> rfl

/-- **Reading the lines of a state** states its facts, if its reward can be read. -/
theorem foldlM_blockChars (size : n < 2 ^ 64) (he : ∀ e ∈ c.row s, e.prob.isNaN = false) (b : Body)
    (k : ℕ) : (numberFrom k (blockChars c s)).foldlM (readLine n (modelName c)) b =
      (rereadReward c s).map (afterBlock c s b) := by
  unfold blockChars
  simp only [numberFrom, List.foldlM_cons, readLine_stateChars size]
  cases rereadReward c s with
  | error error => rfl
  | ok value =>
    show (readLine n (modelName c) (afterStateLine c s b value) ⟨k + 1, actionChars⟩ >>= fun b =>
      (numberFrom (k + 2) ((c.row s).map edgeChars)).foldlM (readLine n (modelName c)) b) = _
    rw [readLine_actionChars (s := s) _ _ rfl rfl]
    refine (foldlM_edgeChars size he _ _ rfl rfl).trans ?_
    simp only [afterStateLine, foldl_stateReward]
    show _ = Except.ok (afterBlock c s b value)
    rw [afterBlock, blockFacts, List.foldl_append, List.foldl_append]
    simp only [List.foldl_map]

theorem numberFrom_append (k : ℕ) (front back : List (List Char)) :
    numberFrom k (front ++ back) = numberFrom k front ++ numberFrom (k + front.length) back := by
  induction front generalizing k with
  | nil => rfl
  | cons text rest ih =>
    rw [List.cons_append, numberFrom, ih, numberFrom, List.cons_append, List.length_cons,
      Nat.add_assoc, Nat.add_comm 1]

/-- Reading the lines of states reads state by state. -/
theorem foldlM_blocks (size : n < 2 ^ 64) (he : ∀ s, ∀ e ∈ c.row s, e.prob.isNaN = false)
    (states : List (Fin n)) (b : Body) (k : ℕ) :
    (numberFrom k (states.flatMap (blockChars c))).foldlM (readLine n (modelName c)) b =
      states.foldlM (fun b s => (rereadReward c s).map (afterBlock c s b)) b := by
  induction states generalizing b k with
  | nil => rfl
  | cons s rest ih =>
    rw [List.flatMap_cons, numberFrom_append, List.foldlM_append, foldlM_blockChars size (he s),
      List.foldlM_cons]
    cases rereadReward c s with
    | error error => rfl
    | ok value => exact ih _ _

/-- The reward with which a state is read back, if it can be read. -/
def rereadValue (c : Chain Float n) (s : Fin n) : Float :=
  (rereadReward c s).toOption.getD 0

/-- **The body is read iff all rewards can be read.** -/
theorem foldlM_afterBlock {states : List (Fin n)} {b b' : Body} :
    states.foldlM (fun b s => (rereadReward c s).map (afterBlock c s b)) b = .ok b' ↔
      (∀ s ∈ states, ∃ value, rereadReward c s = .ok value) ∧
        b' = states.foldl (fun b s => afterBlock c s b (rereadValue c s)) b := by
  induction states generalizing b with
  | nil =>
    simp only [List.foldlM_nil, List.foldl_nil, List.not_mem_nil, false_implies, implies_true, true_and]
    exact ⟨fun h => (Except.ok.inj h).symm, fun h => congrArg _ h.symm⟩
  | cons s rest ih =>
    rw [List.foldlM_cons, List.foldl_cons, List.forall_mem_cons]
    cases h : rereadReward c s with
    | error error =>
      constructor
      · rintro ⟨⟩
      · rintro ⟨⟨⟨value, hv⟩, -⟩, -⟩
        cases hv
    | ok value =>
      have read : rereadValue c s = value := by
        rw [rereadValue, h]
        rfl
      rw [read]
      refine ih.trans (and_congr_left' ⟨fun others => ⟨⟨value, rfl⟩, others⟩, And.right⟩)

/-- The facts on all lines. -/
def bodyFacts (c : Chain Float n) (states : List (Fin n)) : List Fact :=
  states.flatMap fun s => blockFacts c s (rereadValue c s)

/-- The last of some states that is read back with the label of the initial one. -/
def lastMarked (c : Chain Float n) (states : List (Fin n)) (initial : Option ℕ) : Option ℕ :=
  states.foldl (fun initial s => if initLabel ∈ rereadLabels c s then some s.val else initial) initial

theorem foldl_afterBlock (states : List (Fin n)) (b : Body) :
    (states.foldl (fun b s => afterBlock c s b (rereadValue c s)) b).draft =
        (bodyFacts c states).foldl Draft.state b.draft ∧
      (states.foldl (fun b s => afterBlock c s b (rereadValue c s)) b).initial =
        lastMarked c states b.initial := by
  induction states generalizing b with
  | nil => exact ⟨rfl, rfl⟩
  | cons s rest ih =>
    obtain ⟨draft, initial⟩ := ih (afterBlock c s b (rereadValue c s))
    rw [List.foldl_cons, draft, initial]
    unfold bodyFacts lastMarked
    rw [List.flatMap_cons, List.foldl_append, List.foldl_cons]
    exact ⟨rfl, rfl⟩

/-! ## The header -/

section Header

variable (h : Header) (k : ℕ) (rest : List Line)

theorem readHeader_type : readHeader h .section (⟨k, "@type: DTMC".toList⟩ :: rest) =
    readHeader { h with hasType := true } .section rest := by
  rfl

theorem readHeader_rewardModels : readHeader h .section (⟨k, "@reward_models".toList⟩ :: rest) =
    readHeader h .rewardModels rest := by
  rfl

theorem readHeader_name {name : String} (ne : name.toList ≠ []) (solid : Solid name.toList) :
    readHeader h .rewardModels (⟨k, name.toList⟩ :: rest) =
      readHeader { h with model := some name } .section rest := by
  have one : words name.toList = [name.toList] := by
    have found : words (name.toList ++ spaced []) = [name.toList].filter (· ≠ []) :=
      words_append_spaced solid fun _ h => absurd h List.not_mem_nil
    rw [spaced_nil, List.append_nil] at found
    rw [found]
    simp [ne]
  rw [readHeader]
  simp only [one, String.ofList_toList]

theorem readHeader_states : readHeader h .section (⟨k, "@nr_states".toList⟩ :: rest) =
    readHeader h .size rest := by
  rfl

theorem readHeader_size (size : n < 2 ^ 64) : readHeader h .size (⟨k, Decimal.natDigits n⟩ :: rest) =
    readHeader { h with size := some n } .section rest := by
  rw [readHeader]
  simp only [trim_of_solid (solid_natDigits n), Decimal.natDigits_ne_nil, if_false,
    Decimal.readNat_natDigits size]

theorem readHeader_model : readHeader h .section (⟨k, "@model".toList⟩ :: rest) =
    .ok (h, some rest) := by
  rfl

/-- **The header is read**, up to the first line of the body. -/
theorem readHeader_headerChars (size : n < 2 ^ 64)
    (name : ∀ model, c.reward = some model → model.name.toList ≠ [] ∧ Solid model.name.toList)
    (body : List (List Char)) : ∃ k, readHeader ⟨false, none, none⟩ .section
      (numberFrom 1 (headerChars c ++ body)) =
        .ok (⟨true, modelName c, some n⟩, some (numberFrom k body)) := by
  unfold headerChars modelName
  cases hr : c.reward with
  | none =>
    refine ⟨5, ?_⟩
    simp only [List.cons_append, List.nil_append, numberFrom]
    rw [readHeader_type, readHeader_states, readHeader_size _ _ _ size, readHeader_model]
    rfl
  | some model =>
    obtain ⟨ne, solid⟩ := name model hr
    refine ⟨7, ?_⟩
    simp only [List.cons_append, List.nil_append, numberFrom]
    rw [readHeader_type, readHeader_rewardModels, readHeader_name _ _ _ ne solid, readHeader_states,
      readHeader_size _ _ _ size, readHeader_model]
    rfl

end Header

/-! ## The whole text -/

/-- What reading a chain back takes for granted: numbers that fit, labels and a name without blanks, and
rows that are accepted. -/
structure Writable (c : Chain Float n) : Prop where
  size : n < 2 ^ 64
  solid : ∀ s, ∀ label ∈ c.labelling.labelsOf s, Solid label.toList
  name : ∀ model, c.reward = some model → model.name.toList ≠ [] ∧ Solid model.name.toList
  valid : ∀ s, ∀ e ∈ c.row s, Draft.validProbability e.prob = true
  sums : ∀ s, Draft.isOff (Draft.rowSum (c.row s)) = false

theorem mem_writtenLabels {label : String} : label ∈ writtenLabels c s ↔
    label ∈ c.labelling.labelsOf s ∨ s = c.initial ∧ label = initLabel := by
  unfold writtenLabels
  simp only
  split
  · next missing =>
    rw [List.mem_cons]
    exact ⟨fun h => h.elim (fun e => .inr ⟨missing.1, e⟩) .inl, fun h => h.elim .inr fun e => .inl e.2⟩
  · next there =>
    refine ⟨.inl, fun h => h.elim id ?_⟩
    rintro ⟨initial, rfl⟩
    exact Decidable.not_not.mp fun missing => there ⟨initial, missing⟩

theorem solid_writtenLabels (h : Writable c) (s : Fin n) :
    ∀ label ∈ (writtenLabels c s).map String.toList, Solid label := by
  intro label hl
  obtain ⟨name, hn, rfl⟩ := List.mem_map.mp hl
  rcases mem_writtenLabels.mp hn with carried | ⟨-, rfl⟩
  · exact h.solid s name carried
  · decide

/-- Neither a line feed nor a carriage return is in the text. -/
def OneLine (text : List Char) : Prop :=
  ∀ d ∈ text, d ≠ '\n' ∧ d ≠ '\r'

instance (text : List Char) : Decidable (OneLine text) :=
  List.decidableBAll (fun d => d ≠ '\n' ∧ d ≠ '\r') text

theorem oneLine_of_solid {text : List Char} (h : Solid text) : OneLine text := by
  intro d hd
  have blank := h d hd
  constructor <;> rintro rfl <;> exact absurd blank (by decide)

theorem oneLine_append {front back : List Char} :
    OneLine (front ++ back) ↔ OneLine front ∧ OneLine back :=
  List.forall_mem_append

theorem oneLine_cons {d : Char} {text : List Char} :
    OneLine (d :: text) ↔ (d ≠ '\n' ∧ d ≠ '\r') ∧ OneLine text :=
  List.forall_mem_cons

theorem oneLine_spaced {labels : List (List Char)} (h : ∀ label ∈ labels, Solid label) :
    OneLine (spaced labels) := by
  intro d hd
  obtain ⟨label, hl, hd⟩ := List.mem_flatMap.mp hd
  rcases List.mem_cons.mp hd with rfl | hd
  · decide
  · exact oneLine_of_solid (h label hl) d hd

theorem oneLine_stateChars (h : Writable c) (s : Fin n) : OneLine (stateChars c s) := by
  have reward : OneLine (rewardChars c s) := by
    unfold rewardChars
    cases c.reward with
    | none => exact fun d hd => absurd hd List.not_mem_nil
    | some model =>
      have number := oneLine_of_solid (solid_numberText (model.rewards.get s))
      simp only [oneLine_cons, oneLine_append, number, true_and]
      exact ⟨by decide, by decide, by decide, fun d hd => absurd hd List.not_mem_nil⟩
  have labels : OneLine (labelChars c s) := oneLine_spaced (solid_writtenLabels h s)
  have number := oneLine_of_solid (solid_natDigits s.val)
  have word : OneLine ['s', 't', 'a', 't', 'e'] := by decide
  refine oneLine_append.mpr ⟨word, oneLine_cons.mpr ⟨by decide, oneLine_append.mpr ⟨number, ?_⟩⟩⟩
  exact oneLine_append.mpr ⟨reward, labels⟩

theorem oneLine_edgeChars (e : Edge Float n) : OneLine (edgeChars e) := by
  have number := oneLine_of_solid (solid_natDigits e.next.val)
  have prob := oneLine_of_solid (solid_numberText e.prob)
  simp only [edgeChars, oneLine_cons, oneLine_append]
  exact ⟨by decide, by decide, number, by decide, by decide, by decide, prob⟩

theorem oneLine_of_mem_writtenLines (h : Writable c) :
    ∀ text ∈ writtenLines c, OneLine text := by
  intro text ht
  rcases List.mem_append.mp ht with header | block
  · have closed : ∀ text ∈ ["@type: DTMC".toList, "@reward_models".toList, "@nr_states".toList,
        "@model".toList], OneLine text := by decide
    have size := oneLine_of_solid (solid_natDigits n)
    unfold headerChars at header
    cases hr : c.reward with
    | none =>
      rw [hr] at header
      simp only [List.nil_append, List.mem_cons, List.not_mem_nil, or_false] at header
      rcases header with rfl | rfl | rfl | rfl
      · exact closed _ (by simp)
      · exact closed _ (by simp)
      · exact size
      · exact closed _ (by simp)
    | some model =>
      rw [hr] at header
      simp only [List.cons_append, List.nil_append, List.mem_cons, List.not_mem_nil, or_false] at header
      rcases header with rfl | rfl | rfl | rfl | rfl | rfl
      · exact closed _ (by simp)
      · exact closed _ (by simp)
      · exact oneLine_of_solid (h.name model hr).2
      · exact closed _ (by simp)
      · exact size
      · exact closed _ (by simp)
  · obtain ⟨s, -, hs⟩ := List.mem_flatMap.mp block
    rcases List.mem_cons.mp hs with rfl | hs
    · exact oneLine_stateChars h s
    · rcases List.mem_cons.mp hs with rfl | hs
      · decide
      · obtain ⟨e, -, rfl⟩ := List.mem_map.mp hs
        exact oneLine_edgeChars e

theorem lines_write (h : Writable c) :
    lines (write c).toUTF8.toList = numberFrom 1 (writtenLines c) := by
  refine lines_toUTF8 (toList_write c) fun text ht => ?_
  have one := oneLine_of_mem_writtenLines h text ht
  refine ⟨fun mem => (one _ mem).1 rfl, fun last => ?_⟩
  exact (one _ (List.mem_of_getLast? last)).2 rfl

/-! ## The chain that is read back -/

/-- The facts that the text of a chain states. -/
def rereadDraft (c : Chain Float n) : Draft :=
  (bodyFacts c (List.finRange n)).foldl Draft.state (Draft.ofSize n)

/-- The chain that is read back, if the given state is the initial one. -/
def reread (c : Chain Float n) (initial : Fin n) : Chain Float n where
  initial := initial
  rows := c.rows
  labelling := (rereadDraft c).labelling n
  reward := c.reward.map fun model => ⟨model.name, Vector.ofFn fun s => rereadValue c s + 0⟩

/-- What the lines of a state are taken to say. -/
def rereadBlock (c : Chain Float n) (s : Fin n) : Block n :=
  ⟨s, some (rereadValue c s), rereadLabels c s, none, c.row s⟩

/-- What the text of a chain is taken to say. -/
def rereadDocument (c : Chain Float n) : Document n where
  model := modelName c
  blocks := (List.finRange n).map (rereadBlock c)
  complete := by
    rw [List.map_map, show (·.state) ∘ rereadBlock c = id from rfl, List.map_id]

theorem draft_rereadDocument (c : Chain Float n) : (rereadDocument c).draft = rereadDraft c := by
  rw [Document.draft, Document.collect, rereadDocument, List.flatMap_map]
  rfl

theorem rereadBlock_mem (c : Chain Float n) (s : Fin n) : rereadBlock c s ∈ (rereadDocument c).blocks :=
  List.mem_map_of_mem (List.mem_finRange s)

/-- **A state is read back with the labels for which its line is taken.** -/
theorem has_reread {initial : Fin n} {label : String} :
    (reread c initial).labelling.has s label = true ↔ label ∈ rereadLabels c s := by
  rw [reread, ← draft_rereadDocument]
  exact Document.has_draft (rereadBlock_mem c s)

theorem edges_rereadDraft (c : Chain Float n) : (rereadDraft c).edges n =
    (List.finRange n).flatMap fun s => (c.row s).map (s, ·) := by
  rw [← draft_rereadDocument, Document.edges_draft, rereadDocument, List.flatMap_map]
  rfl

theorem model?_rereadDraft (c : Chain Float n) : (rereadDraft c).model? = modelName c := by
  rw [← draft_rereadDocument]
  exact Document.model?_draft (List.ne_nil_of_mem (rereadBlock_mem c c.initial))

theorem reward_rereadDraft {name : String} (hm : modelName c = some name) :
    (rereadDraft c).reward s = rereadValue c s + 0 := by
  rw [← draft_rereadDocument]
  exact Document.reward_draft hm (rereadBlock_mem c s)

/-- **What is read back is described by the facts of the text.** -/
theorem describes_reread (h : Writable c) (initial : Fin n) :
    (rereadDraft c).Describes initial (reread c initial) where
  size := draft_rereadDocument c ▸ (rereadDocument c).size_draft
  initial := rfl
  rows := by
    rw [edges_rereadDraft]
    exact (Draft.rowsOf_flatMap c.rows).symm
  labelling := rfl
  reward := by
    rw [Draft.rewardModel?, model?_rereadDraft, reread, modelName]
    cases hr : c.reward with
    | none => rfl
    | some model =>
      have name : modelName c = some model.name := by rw [modelName, hr]; rfl
      simp only [Option.map_some, reward_rereadDraft name]
  valid e he := by
    rw [edges_rereadDraft] at he
    obtain ⟨s, -, hs⟩ := List.mem_flatMap.mp he
    obtain ⟨edge, hedge, rfl⟩ := List.mem_map.mp hs
    exact h.valid s edge hedge
  sums := h.sums

theorem isNaN_of_validProbability {prob : Float} (h : Draft.validProbability prob = true) :
    prob.isNaN = false := by
  obtain ⟨pos, -⟩ : 0 < prob ∧ prob ≤ 1 + stochasticTolerance := by
    simpa [Draft.validProbability] using h
  exact Rounding.isNaN_eq_false_iff.mpr (Rank.ne_notANumber (Rank.lt_iff_compare.mp pos)).2

theorem lastMarked_append (states : List (Fin n)) (s : Fin n) (initial : Option ℕ) :
    lastMarked c (states ++ [s]) initial =
      if initLabel ∈ rereadLabels c s then some s.val else lastMarked c states initial := by
  rw [lastMarked, List.foldl_append]
  rfl

/-- Of some states in ascending order, the last that is marked is the largest that is. -/
theorem lastMarked_eq_some {states : List (Fin n)} (sorted : states.Pairwise (· < ·)) {i : ℕ} :
    lastMarked c states none = some i ↔ ∃ s ∈ states, s.val = i ∧ initLabel ∈ rereadLabels c s ∧
      ∀ t ∈ states, initLabel ∈ rereadLabels c t → t ≤ s := by
  induction states using List.reverseRecOn with
  | nil => simp [lastMarked]
  | append_singleton states s ih =>
    obtain ⟨front, -, below⟩ := List.pairwise_append.mp sorted
    have ih := ih front
    rw [lastMarked_append]
    split
    · next marked =>
      constructor
      · rintro ⟨⟩
        refine ⟨s, by simp, rfl, marked, fun t ht _ => ?_⟩
        rcases List.mem_append.mp ht with earlier | last
        · exact (below t earlier s (by simp)).le
        · exact (List.mem_singleton.mp last).le
      · rintro ⟨t, ht, rfl, -, largest⟩
        have le := largest s (by simp) marked
        rcases List.mem_append.mp ht with earlier | last
        · exact absurd (below t earlier s (by simp)) le.not_gt
        · rw [List.mem_singleton.mp last]
    · next unmarked =>
      have absent {t : Fin n} (ht : t ∈ states ++ [s]) (marked : initLabel ∈ rereadLabels c t) :
          t ∈ states := by
        rcases List.mem_append.mp ht with earlier | last
        · exact earlier
        · exact absurd (List.mem_singleton.mp last ▸ marked) unmarked
      rw [ih]
      constructor
      · rintro ⟨t, ht, rfl, marked, largest⟩
        exact ⟨t, List.mem_append_left _ ht, rfl, marked, fun u hu hm => largest u (absent hu hm) hm⟩
      · rintro ⟨t, ht, rfl, marked, largest⟩
        exact ⟨t, absent ht marked, rfl, marked,
          fun u hu hm => largest u (List.mem_append_left _ hu) hm⟩

/-- **Reading back.**  The text of a chain is accepted iff all rewards can be read and a state is marked
as initial, and then the last of these is the initial state. -/
theorem read_write_iff (h : Writable c) {r : (n : ℕ) × Chain Float n} :
    read (write c).toUTF8.toList = .ok r ↔ (∀ s, ∃ value, rereadReward c s = .ok value) ∧
      ∃ initial : Fin n, lastMarked c (List.finRange n) none = some initial.val ∧
        r = ⟨n, reread c initial⟩ := by
  obtain ⟨k, header⟩ := readHeader_headerChars h.size h.name
    ((List.finRange n).flatMap (blockChars c))
  have body := foldlM_blocks h.size (fun s e he => isNaN_of_validProbability (h.valid s e he))
    (List.finRange n) ⟨Draft.ofSize n, none, none, false, 0⟩ k
  rw [read, lines_write h, writtenLines, header]
  show (numberFrom k ((List.finRange n).flatMap (blockChars c))).foldlM (readLine n (modelName c))
    ⟨Draft.ofSize n, none, none, false, 0⟩ >>= _ = _ ↔ _
  rw [body]
  cases run : (List.finRange n).foldlM (fun b s => (rereadReward c s).map (afterBlock c s b))
      ⟨Draft.ofSize n, none, none, false, 0⟩ with
  | error error =>
    constructor
    · rintro ⟨⟩
    · rintro ⟨readable, -⟩
      rw [foldlM_afterBlock.mpr ⟨fun s _ => readable s, rfl⟩] at run
      cases run
  | ok b =>
    obtain ⟨readable, rfl⟩ := foldlM_afterBlock.mp run
    have readable : ∀ s, ∃ value, rereadReward c s = .ok value :=
      fun s => readable s (List.mem_finRange s)
    obtain ⟨draft, marked⟩ := foldl_afterBlock (c := c) (List.finRange n)
      ⟨Draft.ofSize n, none, none, false, 0⟩
    dsimp only [bind, Except.bind]
    rw [draft, marked]
    cases last : lastMarked c (List.finRange n) none with
    | none =>
      constructor
      · rintro ⟨⟩
      · rintro ⟨-, initial, ⟨⟩, -⟩
    | some i =>
      obtain ⟨s, -, rfl, -⟩ := (lastMarked_eq_some (List.pairwise_lt_finRange n)).mp last
      have finish := Draft.finish_eq_ok_iff.mpr (describes_reread h s)
      simp only
      rw [show (bodyFacts c (List.finRange n)).foldl Draft.state (Draft.ofSize n) = rereadDraft c
        from rfl, finish]
      constructor
      · rintro ⟨⟩
        exact ⟨readable, s, rfl, rfl⟩
      · rintro ⟨-, initial, same, rfl⟩
        rw [Fin.ext (Option.some.inj same)]

end Drn

end HoleBlame
