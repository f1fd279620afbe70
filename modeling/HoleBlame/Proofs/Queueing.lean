import HoleBlame.Proofs.Discovery
import HoleBlame.Proofs.Records
import HoleBlame.Sketch

/-!
# Filling the holes with a queue

When the holes of a sketch are filled state by state, a state is numbered when it is met first, and its choice
is recorded when it leaves the queue.  A queue visits the states in the order of a search level by level
(`Graph.explore_eq_queued`), so the numbers and the choices agree.

What has been done when some states have been visited is what the final order of the states says about them
(`Resolution.Standing`).  A transition keeps the numbers (`Resolution.moves_move`), a row of transitions too
(`Resolution.moves_foldl`), and a visit is always possible and keeps what has been done
(`Resolution.Standing.visit?`).  So the holes can be filled to the end (`Resolution.exists_run?`).
-/

namespace HoleBlame

variable {n h : ℕ}

/-! ## Searching with a queue -/

namespace Graph

variable {next : Fin n → List (Fin n)} {queue : List (Fin n)} {seen : StateSet n} {s : Fin n}

/-- The states that leave a queue, when the neighbours of every state that leaves it and that have not been
seen join it. -/
def queued (next : Fin n → List (Fin n)) (queue : List (Fin n)) (seen : StateSet n) : List (Fin n) :=
  match queue with
  | [] => []
  | s :: rest =>
    match _h : fresh seen (next s) with
    | (new, seen') => s :: queued next (rest ++ new) seen'
termination_by seen.absent + queue.length
decreasing_by
  have := absent_fresh seen (next s)
  simp only [_h] at this
  simp only [List.length_append, List.length_cons]
  omega

theorem queued_nil : queued next [] seen = [] := by
  rw [queued]

theorem queued_cons {rest : List (Fin n)} : queued next (s :: rest) seen =
    s :: queued next (rest ++ (fresh seen (next s)).1) (fresh seen (next s)).2 := by
  rw [queued]

/-- The states in front of the queue leave it first. -/
theorem queued_append {front back : List (Fin n)} : queued next (front ++ back) seen =
    front ++ queued next (back ++ (fresh seen (front.flatMap next)).1)
      (fresh seen (front.flatMap next)).2 := by
  induction front generalizing back seen with
  | nil => simp [fresh]
  | cons s rest ih =>
    rw [List.cons_append, queued_cons, List.append_assoc, ih, List.flatMap_cons, fresh_append,
      List.append_assoc, List.cons_append]

/-- A queue is followed by the states that are met from it. -/
theorem queued_eq_append : queued next queue seen =
    queue ++ queued next (fresh seen (queue.flatMap next)).1 (fresh seen (queue.flatMap next)).2 := by
  have split : queued next (queue ++ []) seen = _ := queued_append
  rwa [List.append_nil, List.nil_append] at split

/-- **A queue goes level by level.** -/
theorem explore_eq_queued : explore next queue seen = queued next queue seen := by
  induction queue, seen using explore.induct next with
  | case1 queue seen seen' e =>
    rw [explore, queued_eq_append, e]
    simp [queued_nil]
  | case2 queue seen new rest seen' e ih =>
    rw [explore, queued_eq_append, e]
    exact congrArg _ ih

/-- No state leaves the queue twice, if all of it has been seen. -/
theorem nodup_queued (nodup : queue.Nodup) (all : ∀ s ∈ queue, s ∈ seen) :
    (queued next queue seen).Nodup ∧ ∀ s ∈ queued next queue seen, s ∈ queue ∨ s ∉ seen := by
  induction queue, seen using queued.induct next with
  | case1 seen => simp [queued_nil]
  | case2 seen s rest new seen' e ih =>
    have met : (fresh seen (next s)).1 = new := by rw [e]
    have known {t : Fin n} : t ∈ seen' ↔ t ∈ seen ∨ t ∈ new := by
      rw [← met, ← mem_fresh_seen, e]
    obtain ⟨unseen, others⟩ := List.forall_mem_cons.mp all
    obtain ⟨absent, apart⟩ := List.nodup_cons.mp nodup
    have outside {t : Fin n} (ht : t ∈ new) : t ∉ seen := (mem_fresh.mp (met.symm ▸ ht)).2
    have joined : (rest ++ new).Nodup := by
      refine apart.append (met ▸ nodup_fresh) fun t hr hn => outside hn (others t hr)
    have noted : ∀ t ∈ rest ++ new, t ∈ seen' := by
      intro t ht
      exact known.mpr ((List.mem_append.mp ht).imp_left (others t))
    obtain ⟨distinct, origin⟩ := ih joined noted
    have later {t : Fin n} (ht : t ∈ queued next (rest ++ new) seen') : t ∈ rest ∨ t ∉ seen := by
      rcases origin t ht with ht | ht
      · exact (List.mem_append.mp ht).imp_right outside
      · exact .inr fun hs => ht (known.mpr (.inl hs))
    rw [queued_cons, e]
    refine ⟨List.nodup_cons.mpr ⟨fun ht => ?_, distinct⟩, ?_⟩
    · exact (later ht).elim absent (· unseen)
    · intro t ht
      rcases List.mem_cons.mp ht with rfl | ht
      · exact .inl List.mem_cons_self
      · exact (later ht).imp_left (List.mem_cons_of_mem s)

end Graph

namespace Sketch

variable {α : Type} {k : Sketch α n h} {values : Vector ℕ h} {initial : Fin n}

theorem nodup_order : (k.order values initial).Nodup := by
  rw [order, Graph.closure, Graph.explore_eq_queued]
  refine (Graph.nodup_queued (List.nodup_singleton initial) fun s hs => ?_).1
  exact StateSet.mem_ofList.mpr hs

end Sketch

/-! ## Meeting states -/

namespace Resolution

variable {order : List (Fin n)} {source : ℕ} {row : List (Edge Float n)} {e : Edge Float n}
  {x y z : Resolution n} {s : Fin n}

/-- The states that have been met have their final numbers, and the others none. -/
structure Numbered (order : List (Fin n)) (x : Resolution n) : Prop where
  known : ∀ s ∈ x.states.toList, x.numbers.get s = some (order.idxOf s)
  unknown : ∀ s, s ∉ x.states.toList → x.numbers.get s = none

theorem Numbered.mem_seen (numbered : x.Numbered order) : s ∈ x.seen ↔ s ∈ x.states.toList := by
  rw [seen, StateSet.mem_ofFn]
  by_cases met : s ∈ x.states.toList
  · simp [numbered.known s met, met]
  · simp [numbered.unknown s met, met]

/-- What is stated about the transitions of a state. -/
def moveFacts (order : List (Fin n)) (source : ℕ) (row : List (Edge Float n)) : List Fact :=
  row.map fun e => .transition source e.prob (order.idxOf e.next)

/-- What the transitions of a state change. -/
structure Moves (order : List (Fin n)) (source : ℕ) (row : List (Edge Float n)) (x y : Resolution n) :
    Prop where
  numbered : y.Numbered order
  seen : y.seen = (Graph.fresh x.seen (row.map (·.next))).2
  states : y.states.toList = x.states.toList ++ (Graph.fresh x.seen (row.map (·.next))).1
  queue : y.queue = x.queue ++ (Graph.fresh x.seen (row.map (·.next))).1
  choices : y.choices = x.choices
  draft : y.draft = (moveFacts order source row).foldl Draft.state x.draft

theorem Moves.nil (numbered : x.Numbered order) : Moves order source [] x x := by
  constructor <;> simp [Graph.fresh, moveFacts, numbered]

theorem Moves.cons (first : Moves order source [e] x y) (others : Moves order source row y z) :
    Moves order source (e :: row) x z := by
  have split := Graph.fresh_append x.seen [e.next] (row.map (·.next))
  have seen : y.seen = (Graph.fresh x.seen [e.next]).2 := first.seen
  rw [← seen] at split
  have met := congrArg Prod.fst split
  constructor
  case numbered => exact others.numbered
  case seen => exact others.seen.trans (congrArg Prod.snd split).symm
  case states =>
    rw [others.states, first.states, List.append_assoc]
    exact congrArg _ met.symm
  case queue =>
    rw [others.queue, first.queue, List.append_assoc]
    exact congrArg _ met.symm
  case choices => exact others.choices.trans first.choices
  case draft =>
    rw [others.draft, first.draft]
    rfl

/-- **A transition leads to a state that has its number, or gives it the next one.** -/
theorem moves_move (numbered : x.Numbered order)
    (ahead : x.states.toList ++ (Graph.fresh x.seen [e.next]).1 <+: order) :
    Moves order source [e] x (move source x e) := by
  by_cases met : e.next ∈ x.states.toList
  · have known := numbered.mem_seen.mpr met
    have number := numbered.known e.next met
    have result : move source x e =
        { x with draft := x.draft.state (.transition source e.prob (order.idxOf e.next)) } := by
      simp only [move, meet, number]
    have none : Graph.fresh x.seen [e.next] = ([], x.seen) := by
      simp [Graph.fresh, known]
    rw [result]
    constructor
    case numbered => exact ⟨numbered.known, numbered.unknown⟩
    case seen => simp only [List.map_cons, List.map_nil, none]; rfl
    case states => simp [none]
    case queue => simp [none]
    case choices => rfl
    case draft => rfl
  · have unknown : e.next ∉ x.seen := fun known => met (numbered.mem_seen.mp known)
    have number := numbered.unknown e.next met
    have one : Graph.fresh x.seen [e.next] = ([e.next], x.seen.insert e.next) := by
      simp [Graph.fresh, unknown]
    rw [one] at ahead
    -- The new state stands in the final order where it joins the others.
    have place : order.idxOf e.next = x.states.size := by
      obtain ⟨back, rfl⟩ := ahead
      rw [List.idxOf_append_of_mem (by simp), List.idxOf_append_of_notMem met]
      simp
    have result : move source x e =
        { x with
          numbers := assign x.numbers e.next (some x.states.size)
          states := x.states.push e.next
          queue := x.queue ++ [e.next]
          draft := x.draft.state (.transition source e.prob x.states.size) } := by
      simp only [move, meet, number]
    rw [result]
    constructor
    case numbered =>
      have joined (t) : t ∈ (x.states.push e.next).toList ↔ t ∈ x.states.toList ∨ t = e.next := by simp
      refine ⟨fun t known => ?_, fun t other => ?_⟩
      · rw [get_assign]
        split
        · next same => rw [same, place]
        · next apart => exact numbered.known t (((joined t).mp known).resolve_right apart)
      · obtain ⟨unmet, apart⟩ := not_or.mp ((joined t).not.mp other)
        rw [get_assign, if_neg apart, numbered.unknown t unmet]
    case seen =>
      simp only [List.map_cons, List.map_nil, one]
      exact seen_assign x e.next x.states.size (x.states.push e.next) (x.queue ++ [e.next])
    case states => simp [one]
    case queue => simp [one]
    case choices => rfl
    case draft => rw [moveFacts, List.map_singleton, place]; rfl

/-- The transitions of a state are added one after the other. -/
theorem moves_foldl (numbered : x.Numbered order)
    (ahead : x.states.toList ++ (Graph.fresh x.seen (row.map (·.next))).1 <+: order) :
    Moves order source row x (row.foldl (move source) x) := by
  induction row generalizing x with
  | nil => exact .nil numbered
  | cons e rest ih =>
    have met : (Graph.fresh x.seen ((e :: rest).map (·.next))).1 = (Graph.fresh x.seen [e.next]).1 ++
        (Graph.fresh (Graph.fresh x.seen [e.next]).2 (rest.map (·.next))).1 :=
      congrArg Prod.fst (Graph.fresh_append x.seen [e.next] _)
    rw [met, ← List.append_assoc] at ahead
    have first : Moves order source [e] x (move source x e) :=
      moves_move numbered ((List.prefix_append _ _).trans ahead)
    refine first.cons (ih first.numbered ?_)
    rw [first.states, first.seen]
    exact ahead

/-! ## Visiting states -/

variable {k : Sketch Float n h} {values : Vector ℕ h} {initial q : Fin n} {done rest : List (Fin n)}

/-- What is stated about a state in front of its transitions. -/
def headFacts (k : Sketch Float n h) (values : Vector ℕ h) (order : List (Fin n)) (q : Fin n) : List Fact :=
  (if (k.states.get q).isTarget then [.labelled (order.idxOf q) randomTarget] else []) ++
    [.reward randomModel (order.idxOf q) (k.choice values q).reward]

/-- What is stated about a state when it is visited. -/
def visitFacts (k : Sketch Float n h) (values : Vector ℕ h) (order : List (Fin n)) (q : Fin n) : List Fact :=
  headFacts k values order q ++ moveFacts order (order.idxOf q) (k.choice values q).row

/-- No fact speaks of another reward model. -/
def OneModel (facts : List Fact) : Prop :=
  ∀ fact ∈ facts, ∀ model ∈ fact.model?, model = randomModel

theorem oneModel_headFacts : OneModel (headFacts k values order q) := by
  intro fact hf
  rcases List.mem_append.mp hf with label | reward
  · split at label
    · obtain rfl := List.mem_singleton.mp label
      rintro _ ⟨⟩
    · cases label
  · obtain rfl := List.mem_singleton.mp reward
    rintro _ ⟨⟩
    rfl

theorem oneModel_visitFacts : OneModel (visitFacts k values order q) := by
  intro fact hf
  rcases List.mem_append.mp hf with head | move
  · exact oneModel_headFacts fact head
  · obtain ⟨e, -, rfl⟩ := List.mem_map.mp move
    rintro _ ⟨⟩

/-- The rewards of a draft are in the one model. -/
theorem OneModel.model? {d : Draft} {facts : List Fact} (one : OneModel facts) (records : d.Records facts) :
    ∀ model ∈ d.model?, model = randomModel := by
  intro model named
  obtain ⟨fact, hf, said⟩ := List.exists_of_findSome?_eq_some (records.model?.symm.trans named)
  exact one fact hf model said

/-- Another reward can be stated in the same model. -/
theorem state?_reward {d : Draft} {s : ℕ} {value : Float} (one : ∀ model ∈ d.model?, model = randomModel) :
    d.state? (.reward randomModel s value) = some (d.state (.reward randomModel s value)) := by
  unfold Draft.state?
  cases named : d.model? with
  | none => rfl
  | some other => exact if_pos (one other named)

theorem describe?_eq_some {d : Draft} (one : ∀ model ∈ d.model?, model = randomModel) :
    describe? k values q (order.idxOf q) d = some ((headFacts k values order q).foldl Draft.state d) := by
  unfold describe? headFacts
  split
  · have same : (d.state (.labelled (order.idxOf q) randomTarget)).model? = d.model? :=
      Draft.model?_state.trans (Option.or_none ..)
    exact state?_reward (same ▸ one)
  · exact state?_reward one

/-- What has been done when some states have been visited. -/
structure Standing (k : Sketch Float n h) (values : Vector ℕ h) (order done : List (Fin n))
    (x : Resolution n) : Prop where
  numbered : x.Numbered order
  states : x.states.toList = done ++ x.queue
  /-- What is still to be visited completes the order. -/
  ahead : order = done ++ Graph.queued (k.successors values) x.queue x.seen
  choices : x.choices.toList = done.map fun q => 2 * q.val + (k.option values q).val
  records : x.draft.Records ([.states 1, .named randomTarget] ++ done.flatMap (visitFacts k values order))

theorem Standing.model? (standing : Standing k values order done x) :
    ∀ model ∈ x.draft.model?, model = randomModel := by
  refine OneModel.model? (fun fact hf => ?_) standing.records
  rcases List.mem_append.mp hf with first | hf
  · rcases List.mem_pair.mp first with rfl | rfl <;> rintro _ ⟨⟩
  · obtain ⟨q, -, hq⟩ := List.mem_flatMap.mp hf
    exact oneModel_visitFacts fact hq

theorem standing_start : Standing k values (k.order values initial) [] (start initial) := by
  have seen : (start initial).seen = StateSet.ofList [initial] := by
    refine StateSet.ext fun s => ?_
    simp only [seen, start, StateSet.mem_ofFn, get_assign, get_replicate, StateSet.mem_ofList,
      List.mem_singleton]
    split <;> simp_all
  have whole : k.order values initial =
      Graph.queued (k.successors values) [initial] (start initial).seen := by
    rw [seen, ← Graph.explore_eq_queued]
    rfl
  have first : (k.order values initial).idxOf initial = 0 := by
    rw [whole, Graph.queued_cons]
    exact List.idxOf_cons_self
  constructor
  case numbered =>
    refine ⟨fun s known => ?_, fun s other => ?_⟩
    · obtain rfl : s = initial := List.mem_singleton.mp known
      rw [start, get_assign, if_pos rfl, first]
    · have apart : s ≠ initial := fun same => other (List.mem_singleton.mpr same)
      rw [start, get_assign, if_neg apart, get_replicate]
  case states => rfl
  case ahead => exact whole
  case choices => rfl
  case records => exact (Draft.records_ofSize 1).state (.named randomTarget)

/-- **The next state can be visited**, and what has been done is then said about one state more. -/
theorem Standing.visit? (standing : Standing k values order done x) (queue : x.queue = q :: rest) :
    ∃ y, Resolution.visit? k values { x with queue := rest } q = some y ∧
      Standing k values order (done ++ [q]) y := by
  have states := standing.states
  have ahead := standing.ahead
  rw [queue] at states ahead
  rw [Graph.queued_cons] at ahead
  -- The state has been numbered when it was met.
  have number : x.numbers.get q = some (order.idxOf q) := standing.numbered.known q (by simp [states])
  have described : describe? k values q (order.idxOf q) x.draft = _ := describe?_eq_some standing.model?
  let z : Resolution n :=
    { x with
      queue := rest
      choices := x.choices.push (2 * q.val + (k.option values q).val)
      draft := (headFacts k values order q).foldl Draft.state x.draft }
  have room : z.states.toList ++ (Graph.fresh z.seen ((k.choice values q).row.map (·.next))).1 <+: order := by
    show x.states.toList ++ (Graph.fresh x.seen (k.successors values q)).1 <+: order
    rw [ahead, Graph.queued_eq_append, states]
    simp
  have moves : Moves order (order.idxOf q) (k.choice values q).row z
      ((k.choice values q).row.foldl (move (order.idxOf q)) z) :=
    moves_foldl ⟨standing.numbered.known, standing.numbered.unknown⟩ room
  refine ⟨(k.choice values q).row.foldl (move (order.idxOf q)) z, ?_, ?_⟩
  · simp only [Resolution.visit?, number, described]
    rfl
  constructor
  case numbered => exact moves.numbered
  case states =>
    rw [moves.states, moves.queue]
    show x.states.toList ++ _ = _ ++ (rest ++ _)
    rw [states]
    simp
  case ahead =>
    rw [moves.queue, moves.seen, List.append_assoc]
    exact ahead
  case choices =>
    rw [moves.choices]
    simp [z, standing.choices]
  case records =>
    have visited := (standing.records.foldl_state (headFacts k values order q)).foldl_state
      (moveFacts order (order.idxOf q) (k.choice values q).row)
    rw [moves.draft]
    simpa [visitFacts] using visited

theorem run?_of_visit? (queue : x.queue = q :: rest)
    (visited : Resolution.visit? k values { x with queue := rest } q = some y) :
    run? k values x = run? k values y := by
  rw [run?]
  split
  · next empty => cases queue.symm.trans empty
  · next q' rest' split' =>
    obtain ⟨rfl, rfl⟩ := List.cons.inj (queue.symm.trans split')
    split
    · next stuck => cases visited.symm.trans stuck
    · next y' visited' => rw [Option.some.inj (visited.symm.trans visited')]

/-- **The holes can be filled to the end.** -/
theorem exists_run? (standing : Standing k values order done x) :
    ∃ y, run? k values x = some y ∧ Standing k values order order y ∧ y.queue = [] := by
  induction x using run?.induct k values generalizing done with
  | case1 x empty =>
    have all := standing.ahead
    rw [empty, Graph.queued_nil, List.append_nil] at all
    subst all
    refine ⟨x, ?_, standing, empty⟩
    rw [run?]
    split
    · rfl
    · next queue => cases empty.symm.trans queue
  | case2 x q rest queue stuck =>
    obtain ⟨y, visited, -⟩ := standing.visit? queue
    cases stuck.symm.trans visited
  | case3 x q rest queue y visited ih =>
    obtain ⟨y', visited', next⟩ := standing.visit? queue
    cases visited.symm.trans visited'
    rw [run?_of_visit? queue visited]
    exact ih next

end Resolution

end HoleBlame
