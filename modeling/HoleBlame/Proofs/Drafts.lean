import Mathlib.Data.List.FinRange
import HoleBlame.Proofs.Records
import HoleBlame.Proofs.Sorting

/-!
# The chain that facts describe

`Draft.finish` builds a chain and refuses what is no chain.  It counts and adds up in one pass over the
transitions and sorts them by the counts; what comes out is said row by row, without any of this
(`Draft.outcome`, `Draft.finish_eq_outcome`).  This module says what the chain is, part by part, and when it
is accepted (`Draft.finish_eq_ok_iff`).

* A state carries the labels that facts say it carries (`Draft.Records.has_labelling`), which are the labels
  listed for it (`Labelling.mem_labelsOf`).
* A state has the transitions stated for it (`Draft.get_rowsOf`).  Rows that are stated one after the
  other come out as they are (`Draft.rowsOf_flatMap`).
-/

namespace HoleBlame

variable {n : ℕ}

namespace Draft

variable {d : Draft} {s : Fin n}

/-! ## Labels -/

theorem has_mark {L : Labelling n} {fact : Fact} {label : String} :
    (fact.mark L).has s label = true ↔ L.has s label = true ∨ fact = .labelled s label := by
  cases fact with
  | labelled state other =>
    simp only [Fact.mark]
    split
    · next h =>
      rw [Labelling.has_add, Fact.labelled.injEq, Fin.ext_iff, or_comm, and_comm]
      simp only [eq_comm]
    · next h =>
      have ne : state ≠ s.val := fun e => h (e ▸ s.isLt)
      simp [ne]
  | named other =>
    have same : (L.introduce other).has s label = true ↔ L.has s label = true := by
      rw [Labelling.has_iff, Labelling.has_iff, Labelling.introduce, Labelling.get?_update]
      by_cases h : label = other
      · subst h
        simp
      · simp [h]
    simp [Fact.mark, same]
  | states _ | transition _ _ _ | reward _ _ _ => simp [Fact.mark]

/-- **A state carries the labels that facts say it carries.** -/
theorem Records.has_labelling {facts : List Fact} {label : String} (h : d.Records facts) (fits : d.size ≤ n) :
    (d.labelling n).has s label = true ↔ .labelled s label ∈ facts := by
  have general (facts : List Fact) (L : Labelling n) : (facts.foldl Fact.mark L).has s label = true ↔
      L.has s label = true ∨ .labelled s.val label ∈ facts := by
    induction facts generalizing L with
    | nil => simp
    | cons fact rest ih =>
      rw [List.foldl_cons, ih, has_mark, List.mem_cons, or_assoc]
      simp only [eq_comm]
  have none : (Labelling.empty n).has s label = false := rfl
  rw [h.labelling n fits, general, none]
  simp

/-! ## Transitions -/

/-- The transitions of every state, in their order. -/
def rowsOf (edges : List (Fin n × Edge Float n)) : Vector (List (Edge Float n)) n :=
  .ofFn (Sorting.row edges)

/-- What the probabilities of a row add up to, from the first to the last. -/
def rowSum (row : List (Edge Float n)) : Float :=
  row.foldl (fun sum e => sum + e.prob) 0

theorem get_rowsOf (edges : List (Fin n × Edge Float n)) (s : Fin n) :
    (rowsOf edges).get s = (edges.filter (·.1 = s)).map (·.2) :=
  get_ofFn _ s

theorem flatMap_finRange_ite {β : Type} (s : Fin n) (list : List β) :
    ((List.finRange n).flatMap fun t => if t = s then list else []) = list := by
  obtain ⟨front, back, split⟩ := List.append_of_mem (List.mem_finRange s)
  have nodup := List.nodup_finRange n
  rw [split, List.nodup_append, List.nodup_cons] at nodup
  obtain ⟨-, ⟨absent, -⟩, apart⟩ := nodup
  have front_nil : (front.flatMap fun t => if t = s then list else []) = [] := by
    rw [List.flatMap_eq_nil_iff]
    intro t ht
    exact if_neg (apart t ht s List.mem_cons_self)
  have back_nil : (back.flatMap fun t => if t = s then list else []) = [] := by
    rw [List.flatMap_eq_nil_iff]
    intro t ht
    exact if_neg fun (e : t = s) => absent (e ▸ ht)
  rw [split, List.flatMap_append, List.flatMap_cons, front_nil, back_nil, if_pos rfl]
  simp

/-- What is listed state by state is found again for every state. -/
theorem map_filter_finRange {β : Type} (f : Fin n → List β) (s : Fin n) :
    (((List.finRange n).flatMap fun t => (f t).map (t, ·)).filter (·.1 = s)).map (·.2) = f s := by
  rw [List.filter_flatMap, List.map_flatMap]
  refine (List.flatMap_congr fun t _ => ?_).trans (flatMap_finRange_ite s (f s))
  rw [List.filter_map, List.map_map]
  by_cases h : t = s
  · subst h
    simp [Function.comp_def]
  · simp [Function.comp_def, h]

/-- Rows that are stated one after the other are the rows. -/
theorem rowsOf_flatMap (rows : Vector (List (Edge Float n)) n) :
    rowsOf ((List.finRange n).flatMap fun s => (rows.get s).map (s, ·)) = rows := by
  refine ext_get fun s => ?_
  rw [get_rowsOf]
  exact map_filter_finRange rows.get s

/-! ## One pass over the transitions -/

namespace Tally

/-- The pass goes through if all probabilities are valid, and otherwise it stops at the first that is not. -/
theorem foldlM_check (edges : List (Fin n × Edge Float n)) (t : Tally n) : edges.foldlM check t =
    ((edges.find? fun e => !validProbability e.2.prob).map fun e =>
      ChainError.invalidProbability e.1 e.2.next e.2.prob).elim (.ok (edges.foldl add t)) .error := by
  induction edges generalizing t with
  | nil => rfl
  | cons e rest ih =>
    rw [List.foldlM_cons, check]
    cases valid : validProbability e.2.prob with
    | true =>
      rw [List.find?_cons_of_neg (by simp [valid]), if_pos rfl]
      exact ih (t.add e)
    | false =>
      rw [List.find?_cons_of_pos (by simp [valid])]
      rfl

/-- The transitions are counted. -/
theorem counts_foldl_add (edges : List (Fin n × Edge Float n)) :
    (edges.foldl add (.empty n)).counts = Sorting.counts edges :=
  (List.foldl_hom counts fun _ _ => rfl).symm

/-- The probabilities of every state are added up in their order. -/
theorem get_sums_foldl_add (edges : List (Fin n × Edge Float n)) (t : Tally n) (s : Fin n) :
    (edges.foldl add t).sums.get s =
      (Sorting.row edges s).foldl (fun sum e => sum + e.prob) (t.sums.get s) := by
  induction edges generalizing t with
  | nil => rfl
  | cons e rest ih =>
    rw [List.foldl_cons, ih, add, get_assign]
    by_cases same : e.1 = s
    · subst same
      rw [if_pos rfl, Sorting.row, Sorting.row, List.filter_cons_of_pos (by simp)]
      rfl
    · rw [if_neg (Ne.symm same), Sorting.row, Sorting.row, List.filter_cons_of_neg (by simpa using same)]

theorem get_sums (edges : List (Fin n × Edge Float n)) (s : Fin n) :
    (edges.foldl add (.empty n)).sums.get s = rowSum ((rowsOf edges).get s) := by
  rw [get_sums_foldl_add, rowsOf, get_ofFn, rowSum, empty, get_replicate]

end Tally

/-- No transition of a draft is left out. -/
theorem outgoing_eq (d : Draft) : d.outgoing = d.edges d.size := by
  have general (list : List Transition) (inside : ∀ t ∈ list, t.source < d.size ∧ t.target < d.size) :
      list.pmap (fun t (inside : t.source < d.size ∧ t.target < d.size) =>
        ((⟨t.source, inside.1⟩, ⟨⟨t.target, inside.2⟩, t.prob⟩) : Fin d.size × Edge Float d.size)) inside =
      list.filterMap fun t => (Fact.transition t.source t.prob t.target).edge? d.size := by
    induction list with
    | nil => rfl
    | cons t rest ih =>
      rw [List.pmap_cons, ih, List.filterMap_cons_some (dif_pos (inside t List.mem_cons_self))]
  exact general _ d.inside

/-- The transitions are sorted by what has been counted. -/
theorem rows_fill (edges : List (Fin n × Edge Float n)) (room : Array (Edge Float n))
    (fits : room.size = edges.length) :
    ((Sorting.Shelf.ofTable room (edges.foldl Tally.add (.empty n)).counts).fill edges).rows = rowsOf edges := by
  rw [Tally.counts_foldl_add]
  refine ext_get fun s => ?_
  rw [rowsOf, get_ofFn]
  exact Sorting.get_rowsIn fits s

/-- The rewards catch up when the draft is finished. -/
theorem map_resized (d : Draft) :
    (d.rewards.map fun r => (⟨r.name, r.resized⟩ : RewardModel Float d.size)) = d.rewardModel? d.size := by
  cases found : d.rewards with
  | none => simp [rewardModel?, model?, found]
  | some r =>
    have rewards : r.resized = .ofFn fun s => d.reward s := by
      refine ext_get fun s => ?_
      rw [PartialRewards.get_resized, get_ofFn, Draft.reward, found]
      rfl
    rw [rewardModel?, model?, found, ← rewards]
    rfl

/-- What becomes of a draft, said row by row. -/
def outcome (d : Draft) (initial : ℕ) : Except ChainError ((n : ℕ) × Chain Float n) :=
  if h : initial < d.size then
    let edges := d.edges d.size
    match edges.find? fun e => !validProbability e.2.prob with
    | some e => .error (.invalidProbability e.1 e.2.next e.2.prob)
    | none =>
      let rows := rowsOf edges
      match (List.finRange d.size).find? fun s => isOff (rowSum (rows.get s)) with
      | some s => .error (.notStochastic s (rowSum (rows.get s)))
      | none => .ok ⟨d.size, ⟨initial, h⟩, rows, d.labelling d.size, d.rewardModel? d.size⟩
  else .error (.initialOutOfBounds initial d.size)

/-- **What has been gathered in passing is what the rows say.** -/
theorem finish_eq_outcome (d : Draft) (initial : ℕ) : d.finish initial = d.outcome initial := by
  unfold finish outcome
  by_cases inside : initial < d.size
  · rw [dif_pos inside, dif_pos inside]
    simp only [Tally.foldlM_check, outgoing_eq]
    cases (d.edges d.size).find? fun e => !validProbability e.2.prob with
    | some e => rfl
    | none =>
      simp only [Option.map_none, Option.elim_none, Tally.get_sums]
      cases (List.finRange d.size).find? fun s => isOff (rowSum ((rowsOf (d.edges d.size)).get s)) with
      | some s => rfl
      | none =>
        have room : (Array.replicate d.numTransitions
            (⟨⟨0, Nat.zero_lt_of_lt inside⟩, 0⟩ : Edge Float d.size)).size =
            (d.edges d.size).length := by
          rw [Array.size_replicate, ← outgoing_eq, outgoing, List.length_pmap]
          rfl
        simp only [rows_fill _ _ room, map_resized, labelling, Labelling.widen_self]
  · rw [dif_neg inside, dif_neg inside]

/-! ## The chain that facts describe -/

/-- The facts describe the chain, and it is accepted. -/
structure Describes (d : Draft) (initial : ℕ) (c : Chain Float n) : Prop where
  size : d.size = n
  initial : c.initial.val = initial
  rows : c.rows = rowsOf (d.edges n)
  labelling : c.labelling = d.labelling n
  reward : c.reward = d.rewardModel? n
  valid : ∀ e ∈ d.edges n, validProbability e.2.prob = true
  sums : ∀ s, isOff (rowSum (c.row s)) = false

/-- **A chain is accepted iff it is the one that the facts describe.** -/
theorem finish_eq_ok_iff {initial : ℕ} {c : Chain Float n} :
    d.finish initial = .ok ⟨n, c⟩ ↔ d.Describes initial c := by
  rw [finish_eq_outcome]
  unfold outcome
  simp only
  constructor
  · intro h
    split at h
    · split at h
      · cases h
      · next valid =>
        split at h
        · cases h
        · next sums =>
          cases h
          refine ⟨rfl, rfl, rfl, rfl, rfl, fun e he => ?_, fun s => ?_⟩
          · simpa using List.find?_eq_none.mp valid e he
          · simpa [Chain.row] using List.find?_eq_none.mp sums s (List.mem_finRange s)
    · cases h
  · rintro ⟨rfl, rfl, rows, labelling, reward, valid, sums⟩
    rw [dif_pos c.initial.isLt, List.find?_eq_none.mpr, List.find?_eq_none.mpr]
    · obtain ⟨initial, crows, clabelling, creward⟩ := c
      simp only at rows labelling reward
      rw [rows, labelling, reward]
    · intro s _
      rw [← rows]
      simpa [Chain.row] using sums s
    · intro e he
      simpa using valid e he

namespace Describes

variable {initial : ℕ} {c : Chain Float n}

theorem mem_edges (h : d.Describes initial c) {e : Edge Float n} (he : e ∈ c.row s) :
    (s, e) ∈ d.edges n := by
  rw [Chain.row, h.rows, get_rowsOf] at he
  obtain ⟨⟨t, e⟩, ht, rfl⟩ := List.mem_map.mp he
  obtain ⟨mem, same⟩ := List.mem_filter.mp ht
  exact of_decide_eq_true same ▸ mem

theorem valid_row (h : d.Describes initial c) {e : Edge Float n} (he : e ∈ c.row s) :
    validProbability e.prob = true :=
  h.valid (s, e) (h.mem_edges he)

end Describes

/-- Whether a draft is accepted depends on its transitions. -/
theorem exists_finish_iff {i : ℕ} (size : d.size = n) : (∃ r, d.finish i = .ok r) ↔ i < n ∧
    (∀ e ∈ d.edges n, validProbability e.2.prob = true) ∧
      ∀ s, isOff (rowSum ((rowsOf (d.edges n)).get s)) = false := by
  constructor
  · rintro ⟨⟨m, c⟩, hr⟩
    have described := finish_eq_ok_iff.mp hr
    obtain rfl : n = m := size.symm.trans described.size
    refine ⟨described.initial ▸ c.initial.isLt, described.valid, fun s => ?_⟩
    rw [← described.rows]
    exact described.sums s
  · rintro ⟨lt, valid, sums⟩
    exact ⟨⟨n, ⟨i, lt⟩, rowsOf (d.edges n), d.labelling n, d.rewardModel? n⟩,
      finish_eq_ok_iff.mpr ⟨size, rfl, rfl, rfl, rfl, valid, sums⟩⟩

end Draft

end HoleBlame
