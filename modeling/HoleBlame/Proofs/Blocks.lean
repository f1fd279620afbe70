import HoleBlame.Drn.Reader
import HoleBlame.Proofs.Drafts

/-!
# Chains described state by state

What a text says about a chain can be said without the text: block by block, which state has which rewards,
labels and transitions (`Drn.Block`).  Every block states some facts (`Drn.Block.facts`), and if every state has
one block (`Drn.Document`), the facts of all blocks describe a chain with exactly what the blocks say, in
whatever order they come (`Drn.Document.describes_of_draft`).

For each state, what counts comes from its own block (`Drn.map_filter_flatMap`).  That a chain is described at
all is a question of the transitions (`Drn.Document.exists_finish_draft`).
-/

namespace HoleBlame

namespace Drn

variable {n : ℕ}

/-! ## Blocks -/

/-- What the lines of a state say. -/
structure Block (n : ℕ) where
  /-- The state. -/
  state : Fin n
  /-- Its reward, if there is one. -/
  reward : Option Float
  /-- Its labels. -/
  labels : List String
  /-- The reward of its action, if there is one. -/
  action : Option Float
  /-- Its transitions. -/
  edges : List (Edge Float n)

/-- What a document says of a chain, with one block for each state, in any order. -/
structure Document (n : ℕ) where
  /-- The name of the reward model, if there is one. -/
  model : Option String
  /-- The blocks of the states. -/
  blocks : List (Block n)
  /-- Every state has exactly one block. -/
  complete : (blocks.map (·.state)).Perm (List.finRange n)

namespace Block

section Facts

variable (model : Option String) (b : Block n)

/-- The transitions of a block. -/
def transitions : List Fact :=
  b.edges.map fun e => .transition b.state e.prob e.next

/-- What a block says about the reward of its state, on the line of the state and on that of its action. -/
def rewards : List Fact :=
  match model with
  | some name => [.reward name b.state (b.reward.getD 0),
      .reward name b.state (b.reward.getD 0 + b.action.getD 0)]
  | none => []

/-- The facts of a block. -/
def facts : List Fact :=
  b.labels.map (.labelled b.state) ++ (b.rewards model ++ b.transitions)

end Facts

variable {model : Option String}

theorem edges_transitions (b : Block n) :
    b.transitions.filterMap (Fact.edge? n) = b.edges.map (b.state, ·) := by
  simp [transitions, List.filterMap_map, Function.comp_def, Fact.edge?]

theorem edges_facts (b : Block n) :
    (b.facts model).filterMap (Fact.edge? n) = b.edges.map (b.state, ·) := by
  have labels : (b.labels.map (Fact.labelled b.state)).filterMap (Fact.edge? n) = [] := by
    simp [List.filterMap_map, Function.comp_def, Fact.edge?]
  have rewards : (b.rewards model).filterMap (Fact.edge? n) = [] := by
    cases model <;> rfl
  rw [facts, List.filterMap_append, List.filterMap_append, labels, rewards, edges_transitions]
  rfl

/-- The rewards that a block states are those of its state. -/
theorem values_facts (b : Block n) (name : String) (s : ℕ) : Facts.values (b.facts (some name)) s =
    if b.state.val = s then [b.reward.getD 0, b.reward.getD 0 + b.action.getD 0] else [] := by
  have labels : (b.labels.map (Fact.labelled b.state)).filterMap (Fact.value? s) = [] := by
    simp [List.filterMap_map, Function.comp_def, Fact.value?]
  have edges : b.transitions.filterMap (Fact.value? s) = [] := by
    simp [transitions, List.filterMap_map, Function.comp_def, Fact.value?]
  rw [Facts.values, facts, List.filterMap_append, List.filterMap_append, labels, edges]
  by_cases same : b.state.val = s <;> simp [rewards, Fact.value?, same]

theorem mem_facts {b : Block n} {s : ℕ} {label : String} :
    .labelled s label ∈ b.facts model ↔ b.state.val = s ∧ label ∈ b.labels := by
  have reward : .labelled s label ∉ b.rewards model := by
    cases model <;> simp [rewards]
  simp [facts, transitions, reward, and_comm]

theorem model?_facts (b : Block n) : (b.facts model).findSome? Fact.model? = model := by
  have labels : (b.labels.map (Fact.labelled b.state)).findSome? Fact.model? = none := by
    simp [Fact.model?]
  have edges : b.transitions.findSome? Fact.model? = none := by
    simp [transitions, Fact.model?]
  rw [facts, List.findSome?_append, List.findSome?_append, labels, edges]
  cases model <;> rfl

theorem size_le_of_mem_facts {b : Block n} {fact : Fact} (h : fact ∈ b.facts model) : fact.size ≤ n := by
  unfold facts transitions at h
  rcases List.mem_append.mp h with labelled | h
  · obtain ⟨label, -, rfl⟩ := List.mem_map.mp labelled
    exact b.state.isLt
  · rcases List.mem_append.mp h with reward | edge
    · cases model with
      | none => cases reward
      | some name => rcases List.mem_pair.mp reward with rfl | rfl <;> exact b.state.isLt
    · obtain ⟨e, -, rfl⟩ := List.mem_map.mp edge
      exact Nat.succ_le_of_lt (max_lt b.state.isLt e.next.isLt)

end Block

variable {blocks : List (Block n)} {block : Block n}

/-- Among blocks of different states, what only the block of one state lists is what that block lists. -/
theorem flatMap_block {β : Type} {g : Block n → List β} (nodup : (blocks.map (·.state)).Nodup)
    (mem : block ∈ blocks) (other : ∀ b : Block n, b.state ≠ block.state → g b = []) :
    blocks.flatMap g = g block := by
  obtain ⟨front, back, rfl⟩ := List.append_of_mem mem
  rw [List.map_append, List.map_cons, List.nodup_append, List.nodup_cons] at nodup
  obtain ⟨-, ⟨absent, -⟩, apart⟩ := nodup
  have earlier : front.flatMap g = [] := List.flatMap_eq_nil_iff.mpr fun b hb =>
    other b (apart _ (List.mem_map_of_mem hb) _ List.mem_cons_self)
  have later : back.flatMap g = [] := List.flatMap_eq_nil_iff.mpr fun b hb =>
    other b fun same => absent (List.mem_map.mpr ⟨b, hb, same⟩)
  rw [List.flatMap_append, List.flatMap_cons, earlier, later, List.append_nil]
  rfl

/-- What is listed for the state of a block comes from that block. -/
theorem map_filter_flatMap {β : Type} (f : Block n → List β) (nodup : (blocks.map (·.state)).Nodup)
    (mem : block ∈ blocks) :
    ((blocks.flatMap fun b => (f b).map (b.state, ·)).filter (·.1 = block.state)).map (·.2) = f block := by
  rw [List.filter_flatMap, List.map_flatMap, flatMap_block nodup mem]
  · simp [List.filter_map, Function.comp_def]
  · intro b ne
    simp [List.filter_map, Function.comp_def, ne]

/-! ## Documents -/

namespace Document

variable {d : Document n} {c : Chain Float n}

/-- The chain has the transitions, labels and rewards of the blocks, and starts in the state of the last block
that marks the initial state. -/
structure Describes (d : Document n) (c : Chain Float n) : Prop where
  initial : ∃ front b back, d.blocks = front ++ b :: back ∧ initLabel ∈ b.labels ∧
    (∀ later ∈ back, initLabel ∉ later.labels) ∧ c.initial = b.state
  row : ∀ b ∈ d.blocks, c.row b.state = b.edges
  labels : ∀ b ∈ d.blocks, ∀ label, c.labelling.has b.state label = true ↔ label ∈ b.labels
  model : c.reward.map (·.name) = d.model
  reward : ∀ model, c.reward = some model →
    ∀ b ∈ d.blocks, model.rewards.get b.state = b.reward.getD 0 + b.action.getD 0

/-- A draft of a chain with the states of a document, for which the given facts about each block are stated. -/
def collect (d : Document n) (f : Block n → List Fact) : Draft :=
  (d.blocks.flatMap f).foldl Draft.state (Draft.ofSize n)

/-- All that a document says. -/
def draft (d : Document n) : Draft :=
  d.collect (·.facts d.model)

/-- What a document says about transitions. -/
def transitions (d : Document n) : Draft :=
  d.collect (·.transitions)

theorem nodup_states (d : Document n) : (d.blocks.map (·.state)).Nodup :=
  d.complete.nodup_iff.mpr (List.nodup_finRange n)

section Collect

variable {f : Block n → List Fact}

theorem records_collect : (d.collect f).Records (.states n :: d.blocks.flatMap f) :=
  (Draft.records_ofSize n).foldl_state _

theorem size_collect (h : ∀ b, ∀ fact ∈ f b, fact.size ≤ n) : (d.collect f).size = n := by
  refine records_collect.size_eq (fun fact hf => ?_) (List.mem_cons_self (a := Fact.states n)) rfl
  rcases List.mem_cons.mp hf with rfl | hf
  · exact Nat.le_refl n
  · obtain ⟨b, -, hb⟩ := List.mem_flatMap.mp hf
    exact h b fact hb

theorem edges_collect (h : ∀ b, (f b).filterMap (Fact.edge? n) = b.edges.map (b.state, ·)) :
    (d.collect f).edges n = d.blocks.flatMap fun b => b.edges.map (b.state, ·) := by
  rw [records_collect.edges, List.filterMap_cons, List.filterMap_flatMap]
  simp only [h]
  rfl

end Collect

/-- A document has as many states as its header says. -/
theorem size_draft (d : Document n) : d.draft.size = n :=
  size_collect fun _ _ hf => Block.size_le_of_mem_facts hf

theorem edges_draft (d : Document n) :
    d.draft.edges n = d.blocks.flatMap fun b => b.edges.map (b.state, ·) :=
  edges_collect Block.edges_facts

/-- Whether a document is accepted depends on its transitions alone, and not on the initial state. -/
theorem exists_finish_draft {s t : Fin n} :
    (∃ r, d.draft.finish s = .ok r) ↔ ∃ r, d.transitions.finish t = .ok r := by
  have size : d.transitions.size = n := by
    refine size_collect fun b fact hf => ?_
    have mem : fact ∈ b.facts none := List.mem_append_right _ hf
    exact Block.size_le_of_mem_facts mem
  have edges : d.transitions.edges n = d.draft.edges n :=
    (edges_collect Block.edges_transitions).trans d.edges_draft.symm
  rw [Draft.exists_finish_iff d.size_draft, Draft.exists_finish_iff size, edges]
  simp only [s.isLt, t.isLt]

theorem model?_draft (ne : d.blocks ≠ []) : d.draft.model? = d.model := by
  rw [draft, records_collect.model?, List.findSome?_cons]
  show (d.blocks.flatMap (·.facts d.model)).findSome? Fact.model? = d.model
  cases named : d.model with
  | none =>
    refine List.findSome?_eq_none_iff.mpr fun fact hf => ?_
    obtain ⟨b, -, hb⟩ := List.mem_flatMap.mp hf
    exact List.findSome?_eq_none_iff.mp (Block.model?_facts b) fact hb
  | some name =>
    obtain ⟨b, blocks, split⟩ := List.exists_cons_of_ne_nil ne
    rw [split, List.flatMap_cons, List.findSome?_append, Block.model?_facts]
    rfl

/-- A state carries the labels that its block lists. -/
theorem has_draft {b : Block n} (hb : b ∈ d.blocks) {label : String} :
    (d.draft.labelling n).has b.state label = true ↔ label ∈ b.labels := by
  rw [draft, records_collect.has_labelling (Nat.le_of_eq d.size_draft), List.mem_cons, List.mem_flatMap]
  simp only [Block.mem_facts, reduceCtorEq, false_or]
  constructor
  · rintro ⟨other, ho, same, mem⟩
    exact List.inj_on_of_nodup_map d.nodup_states ho hb (Fin.ext same) ▸ mem
  · exact fun mem => ⟨b, hb, rfl, mem⟩

/-- The reward of a state is its own reward and that of its action. -/
theorem reward_draft {name : String} (named : d.model = some name) {b : Block n} (hb : b ∈ d.blocks) :
    d.draft.reward b.state = b.reward.getD 0 + b.action.getD 0 := by
  have values : Facts.values (.states n :: d.blocks.flatMap (·.facts d.model)) b.state =
      [b.reward.getD 0, b.reward.getD 0 + b.action.getD 0] := by
    rw [Facts.values, List.filterMap_cons_none rfl, List.filterMap_flatMap,
      flatMap_block d.nodup_states hb, named]
    · exact (Block.values_facts b name b.state).trans (if_pos rfl)
    · intro other ne
      rw [named]
      exact (Block.values_facts other name b.state).trans (if_neg fun same => ne (Fin.ext same))
  rw [draft, records_collect.reward, values]
  rfl

/-- **The chain that the facts describe** is the one that the document describes. -/
theorem describes_of_draft {b : Block n} {front back : List (Block n)}
    (described : d.draft.Describes b.state c) (split : d.blocks = front ++ b :: back)
    (marked : initLabel ∈ b.labels) (last : ∀ later ∈ back, initLabel ∉ later.labels) :
    d.Describes c where
  initial := ⟨front, b, back, split, marked, last, Fin.ext described.initial⟩
  row b hb := by
    rw [Chain.row, described.rows, Draft.get_rowsOf, edges_draft]
    exact map_filter_flatMap (·.edges) d.nodup_states hb
  labels b hb label := by
    rw [described.labelling, has_draft hb]
  model := by
    rw [described.reward, Draft.rewardModel?, model?_draft (by simp [split]), Option.map_map]
    exact Option.map_id' ..
  reward model hm b hb := by
    rw [described.reward, Draft.rewardModel?, model?_draft (by simp [split])] at hm
    obtain ⟨name, named, rfl⟩ := Option.map_eq_some_iff.mp hm
    rw [get_ofFn, reward_draft named hb]

/-- The last block that marks the initial state. -/
theorem last_marked {b : Block n} (found : d.blocks.reverse.find? (initLabel ∈ ·.labels) = some b) :
    initLabel ∈ b.labels ∧
      ∃ front back, d.blocks = front ++ b :: back ∧ ∀ later ∈ back, initLabel ∉ later.labels := by
  obtain ⟨marked, back, front, split, last⟩ := List.find?_eq_some_iff_append.mp found
  refine ⟨by simpa using marked, front.reverse, back.reverse, ?_, fun later hl => ?_⟩
  · simpa using congrArg List.reverse split
  · simpa using last later (List.mem_reverse.mp hl)

end Document

end Drn

end HoleBlame
