import Mathlib
import HoleBlame.Proofs.Drafts
import HoleBlame.Sketch

/-!
# Random chains

What is said here of random numbers and of random chains holds for every seed.  Nothing is said about how likely
a draw is.

* A number that is drawn is in its range (`Draw.satisfiesM_below`, `Draw.satisfiesM_between`), also where
  something is carried into it.
* Some of many things are different things, and as many as they should be (`Draw.satisfiesM_some`), so no more
  than two holes control a state of a random sketch (`Sketch.satisfiesM_drawState`).
* A random draft has the states that it should have, between one transition and the given number of them
  for every state, one reward model, and one label, which exists even if no state carries it
  (`Draft.satisfiesM_draw`).

The ranges have to be within that of the samplers, which know `Draw.halfRange` different numbers.
-/

namespace HoleBlame

namespace Draw

variable {β : Type} {range least most count outdegree n : ℕ}

/-! ## Numbers -/

theorem satisfiesM_half : SatisfiesM (· < halfRange) half := by
  refine SatisfiesM.trivial.bind fun w _ => .pure ?_
  have small := w.toNat_lt
  rw [UInt64.toNat_shiftRight, Nat.shiftRight_eq_div_pow, halfRange]
  exact Nat.div_lt_of_lt_mul small

theorem whole_lt {drawn : ℕ} (half : drawn < halfRange) (pos : 0 < range) :
    drawn * range / halfRange < range :=
  Nat.div_lt_of_lt_mul (Nat.mul_lt_mul_of_pos_right half pos)

/-- Where something may be carried, there is room for it. -/
theorem succ_whole_lt {drawn : ℕ} (half : drawn < halfRange) (fits : range ≤ halfRange)
    (carried : halfRange - range < drawn * range % halfRange) : drawn * range / halfRange + 1 < range := by
  have parts := Nat.div_add_mod (drawn * range) halfRange
  have most : (drawn + 1) * range ≤ halfRange * range := Nat.mul_le_mul_right range half
  rw [Nat.succ_mul] at most
  by_contra full
  have least : halfRange * range ≤ halfRange * (drawn * range / halfRange + 1) :=
    Nat.mul_le_mul_left halfRange (Nat.le_of_not_lt full)
  rw [Nat.mul_succ] at least
  omega

/-- **A number that is drawn is in its range.** -/
theorem satisfiesM_below (pos : 0 < range) (fits : range ≤ halfRange) : SatisfiesM (· < range) (below range) := by
  refine satisfiesM_half.bind fun drawn half => ?_
  simp only
  split
  · next carried =>
    have room := succ_whole_lt half fits carried
    refine SatisfiesM.trivial.bind fun next _ => .pure ?_
    split
    · exact room
    · exact Nat.lt_of_succ_lt room
  · exact .pure (whole_lt half pos)

theorem satisfiesM_between (order : least ≤ most) (fits : most - least < halfRange) :
    SatisfiesM (fun number => least ≤ number ∧ number ≤ most) (between least most) := by
  refine (satisfiesM_below (Nat.succ_pos _) fits).bind fun number below => .pure ?_
  omega

theorem satisfiesM_times {P : β → Prop} {draw : Draw β} (each : SatisfiesM P draw) (count : ℕ) :
    SatisfiesM (fun list => list.length = count ∧ ∀ b ∈ list, P b) (times count draw) := by
  induction count with
  | zero => exact .pure ⟨rfl, by simp⟩
  | succ k ih =>
    refine each.bind fun first one => ih.bind fun rest ⟨length, all⟩ => .pure ⟨?_, ?_⟩
    · rw [List.length_cons, length]
    · exact List.forall_mem_cons.mpr ⟨one, all⟩

/-! ## Some of many things -/

/-- An index gives way to a larger one when it is drawn again. -/
theorem nodup_replace {drawn : List ℕ} {first t : ℕ} (nodup : drawn.Nodup) (below : ∀ i ∈ drawn, i < first)
    (le : t ≤ first) :
    let replaced := drawn.map (fun i => if i = t then first else i) ++ [t]
    replaced.Nodup ∧ ∀ i ∈ replaced, i < first + 1 := by
  have apart : ∀ i ∈ drawn, (if i = t then first else i) = t → t = first ∧ i = t := by
    intro i hi same
    split at same
    · next own => exact ⟨same.symm, own⟩
    · next other => exact absurd same other
  have injective : ∀ i ∈ drawn, ∀ j ∈ drawn,
      (if i = t then first else i) = (if j = t then first else j) → i = j := by
    intro i hi j hj same
    have := below i hi
    have := below j hj
    split at same <;> split at same <;> omega
  constructor
  · refine List.nodup_append.mpr ⟨nodup.map_on injective, List.nodup_singleton t, ?_⟩
    rintro _ mem _ one rfl
    obtain ⟨i, hi, same⟩ := List.mem_map.mp mem
    rw [List.mem_singleton.mp one] at same
    obtain ⟨last, rfl⟩ := apart i hi same
    exact Nat.lt_irrefl i (last ▸ below i hi)
  · intro i hi
    rcases List.mem_append.mp hi with mem | one
    · obtain ⟨j, hj, rfl⟩ := List.mem_map.mp mem
      have := below j hj
      split <;> omega
    · rw [List.mem_singleton.mp one]
      exact Nat.lt_succ_of_le le

theorem satisfiesM_indices {k first : ℕ} {drawn : List ℕ} (fits : first + k ≤ halfRange)
    (nodup : drawn.Nodup) (below : ∀ i ∈ drawn, i < first) :
    SatisfiesM (fun list => list.length = drawn.length + k ∧ list.Nodup ∧ ∀ i ∈ list, i < first + k)
      (indices k first drawn) := by
  induction k generalizing first drawn with
  | zero => exact .pure ⟨rfl, nodup, below⟩
  | succ k ih =>
    refine (satisfiesM_between (Nat.zero_le first) (by omega)).bind fun t ⟨_, le⟩ => ?_
    obtain ⟨nodup', below'⟩ := nodup_replace nodup below le
    refine (ih (by omega) nodup' below').imp fun ⟨length, distinct, small⟩ => ⟨?_, distinct, ?_⟩
    · rw [length, List.length_append, List.length_map, List.length_singleton]
      omega
    · intro i hi
      have := small i hi
      omega

/-- **Some of many things are different things**, and all of them if there are no more. -/
theorem satisfiesM_some (count : ℕ) (fits : most ≤ halfRange) :
    SatisfiesM (fun list => list.length = min count most ∧ list.Nodup ∧ ∀ i ∈ list, i < most)
      (some count most) := by
  have whole : most - min count most + min count most = most := Nat.sub_add_cancel (Nat.min_le_right ..)
  refine (satisfiesM_indices (by rwa [whole]) List.nodup_nil (by simp)).imp fun ⟨length, distinct, small⟩ => ?_
  rw [whole] at small
  exact ⟨length.trans (Nat.zero_add _), distinct, small⟩

/-! ## Successors -/

/-- A state gets between one and the given number of successors, among all states. -/
theorem satisfiesM_successors (pos : 0 < n) (fits : n ≤ halfRange) (nonzero : 0 < outdegree)
    (few : outdegree ≤ halfRange) :
    SatisfiesM (fun row => 1 ≤ row.length ∧ row.length ≤ outdegree ∧ ∀ e ∈ row, e.1 < n)
      (successors n outdegree) := by
  have edge : SatisfiesM (fun e : ℕ × ℕ => e.1 < n) (do
      let target ← below n
      let weight ← between 1 4
      return (target, weight)) :=
    (satisfiesM_below pos fits).bind fun target lt => SatisfiesM.trivial.bind fun _ _ => .pure lt
  refine (satisfiesM_between nonzero (by omega)).bind fun count ⟨least, most⟩ => ?_
  refine (satisfiesM_times edge count).bind fun weighted ⟨length, targets⟩ => .pure ?_
  simp only [List.length_map, length]
  refine ⟨least, most, fun e he => ?_⟩
  obtain ⟨w, hw, rfl⟩ := List.mem_map.mp he
  exact targets w hw

end Draw

/-! ## Random drafts -/

namespace Draft

variable {n outdegree : ℕ} {d : Draft}

/-- The facts about a state of a random chain: its transitions, perhaps that it is a target, and a reward. -/
structure Drawn (n outdegree s : ℕ) (facts : List Fact) : Prop where
  split : ∃ (row : List (ℕ × Float)) (isTarget : Bool) (value : Float),
    1 ≤ row.length ∧ row.length ≤ outdegree ∧ (∀ e ∈ row, e.1 < n) ∧
      facts = row.map (fun e => .transition s e.2 e.1) ++
        ((if isTarget then [.labelled s randomTarget] else []) ++ [.reward randomModel s value])

namespace Drawn

variable {s : ℕ} {facts : List Fact} {fact : Fact}

/-- A fact about a state is a transition, its label or its reward. -/
theorem cases (drawn : Drawn n outdegree s facts) (mem : fact ∈ facts) :
    (∃ e : ℕ × Float, e.1 < n ∧ fact = .transition s e.2 e.1) ∨ fact = .labelled s randomTarget ∨
      ∃ value, fact = .reward randomModel s value := by
  obtain ⟨row, isTarget, value, -, -, targets, rfl⟩ := drawn.split
  rcases List.mem_append.mp mem with edge | mem
  · obtain ⟨e, he, rfl⟩ := List.mem_map.mp edge
    exact .inl ⟨e, targets e he, rfl⟩
  · rcases List.mem_append.mp mem with label | reward
    · split at label
      · exact .inr (.inl (List.mem_singleton.mp label))
      · cases label
    · exact .inr (.inr ⟨value, List.mem_singleton.mp reward⟩)

theorem size_le (drawn : Drawn n outdegree s facts) (inside : s < n) (mem : fact ∈ facts) : fact.size ≤ n := by
  obtain ⟨e, target, rfl⟩ | rfl | ⟨value, rfl⟩ := drawn.cases mem
  · exact Nat.succ_le_of_lt (max_lt inside target)
  · exact inside
  · exact inside

theorem exists_edges {row : List (ℕ × Float)} (inside : s < n) (targets : ∀ e ∈ row, e.1 < n) :
    ∃ edges : List (Edge Float n), edges.length = row.length ∧
      (row.map fun e => Fact.transition s e.2 e.1).filterMap (Fact.edge? n) =
        edges.map ((⟨s, inside⟩ : Fin n), ·) := by
  induction row with
  | nil => exact ⟨[], rfl, rfl⟩
  | cons e row ih =>
    obtain ⟨target, others⟩ := List.forall_mem_cons.mp targets
    obtain ⟨edges, length, same⟩ := ih others
    refine ⟨⟨⟨e.1, target⟩, e.2⟩ :: edges, congrArg (· + 1) length, ?_⟩
    rw [List.map_cons, List.filterMap_cons_some (dif_pos ⟨inside, target⟩), same]
    rfl

/-- The transitions among the facts are those of the state. -/
theorem exists_row (drawn : Drawn n outdegree s facts) (inside : s < n) :
    ∃ row : List (Edge Float n), 1 ≤ row.length ∧ row.length ≤ outdegree ∧
      facts.filterMap (Fact.edge? n) = row.map ((⟨s, inside⟩ : Fin n), ·) := by
  obtain ⟨row, isTarget, value, least, most, targets, rfl⟩ := drawn.split
  have rest : ((if isTarget then [Fact.labelled s randomTarget] else []) ++
      [Fact.reward randomModel s value]).filterMap (Fact.edge? n) = [] := by
    cases isTarget <;> rfl
  obtain ⟨edges, length, same⟩ := exists_edges inside targets
  refine ⟨edges, length ▸ least, length ▸ most, ?_⟩
  rw [List.filterMap_append, rest, List.append_nil, same]

theorem exists_reward (drawn : Drawn n outdegree s facts) : ∃ value, .reward randomModel s value ∈ facts := by
  obtain ⟨row, isTarget, value, -, -, -, rfl⟩ := drawn.split
  exact ⟨value, List.mem_append_right _ (List.mem_append_right _ List.mem_cons_self)⟩

theorem model?_eq (drawn : Drawn n outdegree s facts) (mem : fact ∈ facts) :
    ∀ model ∈ fact.model?, model = randomModel := by
  obtain ⟨e, -, rfl⟩ | rfl | ⟨value, rfl⟩ := drawn.cases mem
  · rintro _ ⟨⟩
  · rintro _ ⟨⟩
  · rintro _ ⟨⟩
    rfl

end Drawn

/-- A draft of a random chain. -/
structure IsRandom (d : Draft) (n outdegree : ℕ) : Prop where
  size : d.size = n
  row : ∀ s : Fin n, ((rowsOf (d.edges n)).get s).length ∈ Set.Icc 1 outdegree
  model : d.model? = some randomModel
  /-- The label of the targets exists, even if there are none. -/
  known : ((d.labelling n).get? randomTarget).isSome = true
  only : ∀ s label, (d.labelling n).has s label = true → label = randomTarget

/-- The facts about all states make a draft random. -/
theorem Records.isRandom {block : ℕ → List Fact} (pos : 0 < n)
    (drawn : ∀ s ∈ List.range n, Drawn n outdegree s (block s))
    (records : d.Records (.states n :: (List.range n).flatMap block ++ [.named randomTarget])) :
    d.IsRandom n outdegree := by
  have own (s : Fin n) : Drawn n outdegree s (block s) := drawn s (List.mem_range.mpr s.isLt)
  have mem {fact : Fact} : fact ∈ .states n :: (List.range n).flatMap block ++ [.named randomTarget] ↔
      fact = .states n ∨ fact = .named randomTarget ∨ ∃ s : Fin n, fact ∈ block s := by
    simp only [List.mem_append, List.mem_cons, List.mem_flatMap, List.mem_range, List.not_mem_nil, or_false,
      or_assoc, Fin.exists_iff, exists_prop]
    rw [or_comm (b := fact = .named randomTarget)]
  have size : d.size = n := by
    refine records.size_eq (fun fact hf => ?_) (mem.mpr (.inl rfl)) rfl
    rcases mem.mp hf with rfl | rfl | ⟨s, hs⟩
    · exact Nat.le_refl n
    · exact Nat.zero_le n
    · exact (own s).size_le s.isLt hs
  choose row least most same using fun s : Fin n => (own s).exists_row s.isLt
  have edges : d.edges n = (List.finRange n).flatMap fun s => (row s).map (s, ·) := by
    rw [records.edges, List.filterMap_append, List.filterMap_cons_none rfl, List.filterMap_flatMap,
      ← List.map_coe_finRange_eq_range, List.flatMap_map]
    simp only [same]
    exact List.append_nil _
  constructor
  case size => exact size
  case row =>
    intro s
    rw [get_rowsOf, edges, map_filter_finRange]
    exact ⟨least s, most s⟩
  case model =>
    obtain ⟨value, reward⟩ := (own ⟨0, pos⟩).exists_reward
    refine records.model?_eq_some (mem.mpr (.inr (.inr ⟨_, reward⟩))) rfl fun fact hf => ?_
    obtain rfl | rfl | ⟨s, hs⟩ := mem.mp hf
    · rintro _ ⟨⟩
    · rintro _ ⟨⟩
    · exact (own s).model?_eq hs
  case known =>
    rw [records.labelling n (Nat.le_of_eq size), List.foldl_append]
    show ((Labelling.update _ randomTarget id).get? randomTarget).isSome = true
    rw [Labelling.get?_update, if_pos rfl]
    rfl
  case only =>
    intro s label has
    rw [records.has_labelling (Nat.le_of_eq size), mem] at has
    obtain ⟨⟨⟩⟩ | ⟨⟨⟩⟩ | ⟨t, ht⟩ := has
    obtain ⟨_, _, ⟨⟩⟩ | other | ⟨_, ⟨⟩⟩ := (own t).cases ht
    exact (Fact.labelled.inj other).2

section Draws

variable (pos : 0 < n) (fits : n ≤ Draw.halfRange) (nonzero : 0 < outdegree)
  (few : outdegree ≤ Draw.halfRange)
include pos fits nonzero few

theorem satisfiesM_drawState (s : ℕ) :
    SatisfiesM (fun d' => ∃ facts, Drawn n outdegree s facts ∧ d' = facts.foldl Draft.state d)
      (d.drawState n outdegree s) := by
  refine (Draw.satisfiesM_successors pos fits nonzero few).bind fun row ⟨least, most, targets⟩ => ?_
  refine SatisfiesM.trivial.bind fun isTarget _ => SatisfiesM.trivial.bind fun value _ => .pure ?_
  refine ⟨_, ⟨row, isTarget, value, least, most, targets, rfl⟩, ?_⟩
  rw [List.foldl_append, List.foldl_append, List.foldl_map]
  cases isTarget <;> rfl

/-- The states are drawn one after the other. -/
theorem satisfiesM_foldlM_drawState {states : List ℕ} {facts : List Fact} (records : d.Records facts)
    (nodup : states.Nodup) :
    SatisfiesM (fun d' => ∃ block : ℕ → List Fact, (∀ s ∈ states, Drawn n outdegree s (block s)) ∧
        d'.Records (facts ++ states.flatMap block))
      (states.foldlM (fun d s => d.drawState n outdegree s) d) := by
  induction states generalizing d facts with
  | nil => exact .pure ⟨fun _ => [], by simp, by simpa using records⟩
  | cons s rest ih =>
    obtain ⟨absent, nodup⟩ := List.nodup_cons.mp nodup
    rw [List.foldlM_cons]
    refine (satisfiesM_drawState pos fits nonzero few s).bind ?_
    rintro _ ⟨first, drawn, rfl⟩
    refine (ih (records.foldl_state first) nodup).imp ?_
    rintro d' ⟨block, others, recorded⟩
    have later : ∀ t ∈ rest, Function.update block s first t = block t := fun t ht =>
      Function.update_of_ne (fun same : t = s => absent (same ▸ ht)) ..
    refine ⟨Function.update block s first, List.forall_mem_cons.mpr ⟨?_, fun t ht => ?_⟩, ?_⟩
    · rwa [Function.update_self]
    · rw [later t ht]
      exact others t ht
    · rwa [List.flatMap_cons, Function.update_self, List.flatMap_congr later, ← List.append_assoc]

/-- **A random draft is what it should be**, whatever the seed. -/
theorem satisfiesM_draw : SatisfiesM (fun d => d.IsRandom n outdegree) (draw n outdegree) := by
  refine (satisfiesM_foldlM_drawState pos fits nonzero few (records_ofSize n) List.nodup_range).bind ?_
  rintro d ⟨block, drawn, records⟩
  exact .pure ((records.state (.named randomTarget)).isRandom pos drawn)

end Draws

end Draft

namespace Sketch

variable {n h outdegree : ℕ}

/-- Up to two holes are drawn, all of which exist. -/
theorem satisfiesM_controllers {count : ℕ} (le : count ≤ 2) (fits : h ≤ Draw.halfRange) :
    SatisfiesM (fun controllers => (HoleSet.ofList (HoleTable.within h controllers)).toList.length ≤ 2)
      (Draw.some count h) := by
  refine (Draw.satisfiesM_some count fits).imp fun {controllers} ⟨length, _, _⟩ => ?_
  let S := HoleSet.ofList (HoleTable.within h controllers)
  have distinct : S.toList.Nodup := S.ascending.imp fun lt => Fin.ne_of_lt lt
  have drawn : S.toList ⊆ HoleTable.within h controllers := fun x hx => HoleSet.mem_ofList.mp hx
  calc S.toList.length ≤ (HoleTable.within h controllers).length := (distinct.subperm drawn).length_le
    _ ≤ controllers.length := List.length_filterMap_le ..
    _ = min count h := length
    _ ≤ 2 := Nat.le_trans (Nat.min_le_left ..) le

/-- **No more than two holes control a state** of a random sketch. -/
theorem satisfiesM_drawState (hn : 0 < n) (fits : h ≤ Draw.halfRange) :
    SatisfiesM (fun q => q.controllers.toList.length ≤ 2) (drawState n h hn outdegree) := by
  unfold drawState
  split
  · refine (SatisfiesM.pure (p := (· ≤ 2)) (Nat.zero_le 2)).bind fun count le => ?_
    exact (satisfiesM_controllers le fits).bind fun _ few => SatisfiesM.trivial.bind fun _ _ =>
      SatisfiesM.trivial.bind fun _ _ => SatisfiesM.trivial.bind fun _ _ => .pure few
  · refine (Draw.satisfiesM_below (by decide) (by decide)).bind fun count lt => ?_
    exact (satisfiesM_controllers (Nat.le_of_lt_succ lt) fits).bind fun _ few => SatisfiesM.trivial.bind fun _ _ =>
      SatisfiesM.trivial.bind fun _ _ => SatisfiesM.trivial.bind fun _ _ => .pure few

end Sketch

end HoleBlame
