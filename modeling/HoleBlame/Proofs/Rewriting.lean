import HoleBlame.Proofs.Accepted

/-!
# Rewriting a text

The reader accepts more than the writer writes, so a chain that has been read need not be the same after
it has been written and read again.  Three things get lost, and these are all (`Drn.survives_iff`).

* A label that was nothing but quotes is empty, and nothing is seen of it on a line.
* Labels that follow a reward in brackets may look like a reward themselves.  If the header has named no
  reward model, nothing is written before them, and they are taken for one.
* Of several states that are marked as initial the reader takes the last in the text, and the writer
  puts them in the order of their numbers (`Drn.not_survives_twice`).

In the first two cases a label is lost: in the second the one with the closing bracket, since what is
left of it is shorter, and no label occurs twice (`Drn.exists_lost_label`).
-/

namespace HoleBlame

namespace Drn

open Text

variable {n : ℕ} {c : Chain Float n} {s : Fin n}

/-- What is read back from the text of the chain runs like it and has the same labels. -/
def Survives (c : Chain Float n) : Prop :=
  ∃ c' : Chain Float n, read (write c).toUTF8.toList = .ok ⟨n, c'⟩ ∧ c'.RunsLike c ∧
    ∀ s label, c'.labelling.has s label = c.labelling.has s label

/-- No label is empty, no state after the initial one carries the label that marks it, and no labels are in
the place of a reward and look like one. -/
structure Unambiguous (c : Chain Float n) : Prop where
  visible : ∀ s, c.labelling.has s "" = false
  marked : ∀ s, c.labelling.has s initLabel = true → s ≤ c.initial
  apart : c.reward = none → ∀ s, ¬ Bracketed (c.labelling.labelsOf s)

namespace Accepted

/-- The initial state need not be marked by the writer. -/
theorem writtenLabels_eq (h : Accepted c) (s : Fin n) : writtenLabels c s = c.labelling.labelsOf s := by
  unfold writtenLabels
  simp only
  rw [if_neg]
  rintro ⟨rfl, missing⟩
  exact missing h.initial

theorem legible (h : Accepted c) (clear : Unambiguous c) (defined : c.RewardsDefined) : Legible c := by
  have carried {s : Fin n} {label : String} :
      label ∈ writtenLabels c s ↔ c.labelling.has s label = true := by
    rw [h.writtenLabels_eq, Labelling.mem_labelsOf]
  refine { h with bare := ?_, visible := ?_, apart := ?_, marked := ?_, defined := defined }
  · intro s label hl
    rw [h.writtenLabels_eq] at hl
    exact h.bare s label hl
  · intro s empty
    rw [carried, clear.visible s] at empty
    cases empty
  · intro none s
    rw [h.writtenLabels_eq]
    exact clear.apart none s
  · intro s marked
    exact clear.marked s (carried.mp marked)

theorem survives (h : Accepted c) (clear : Unambiguous c) (defined : c.RewardsDefined) : Survives c := by
  have legible := h.legible clear defined
  refine ⟨reread c c.initial, legible.read_write, legible.runsLike, fun s label => ?_⟩
  rw [Bool.eq_iff_iff, legible.has_reread_iff]
  refine or_iff_left_of_imp ?_
  rintro ⟨rfl, rfl⟩
  exact Labelling.mem_labelsOf.mp h.initial

/-! ## What is lost -/

/-- If something is found in brackets, then only what follows it is taken for labels. -/
theorem exists_of_group (h : Accepted c) (hr : c.reward = none)
    (group : bracketGroup? (labelChars c s) ≠ none) : ∃ first front back later,
      (c.labelling.labelsOf s).map String.toList = first ++ (front ++ ']' :: back) :: later ∧
        (recognised c s).2 = (back :: later).filter (· ≠ []) := by
  obtain ⟨⟨reward, rest⟩, found⟩ := Option.ne_none_iff_exists'.mp group
  obtain ⟨before, text⟩ := exists_of_bracketGroup? found
  have solid := solid_writtenLabels h.toWritable s
  rw [labelChars] at text
  obtain ⟨front, label, back, first, later, split, rfl, rfl⟩ := exists_of_spaced_eq (by decide) text
  rw [split] at solid
  rw [h.writtenLabels_eq] at split
  refine ⟨first, front, back, later, split, ?_⟩
  have rest : Solid back := by
    intro d hd
    exact solid (front ++ ']' :: back) (by simp) d (by simp [hd])
  rw [recognised, hr]
  simp only [found]
  exact words_append_spaced rest fun label hl => solid label (by simp [hl])

theorem bare_of_mem (h : Accepted c) {word : List Char}
    (hw : word ∈ (c.labelling.labelsOf s).map String.toList) : Bare word := by
  obtain ⟨label, hl, rfl⟩ := List.mem_map.mp hw
  exact h.bare s label hl

/-- Nothing is taken for an empty label. -/
theorem empty_not_mem_rereadLabels (h : Accepted c) (s : Fin n) : "" ∉ rereadLabels c s := by
  have seen {word : List Char} (hw : word ∈ (recognised c s).2) :
      word ≠ [] ∧ word.getLast? ≠ some '"' := by
    by_cases group : c.reward = none ∧ bracketGroup? (labelChars c s) ≠ none
    · obtain ⟨first, front, back, later, split, words⟩ := h.exists_of_group group.1 group.2
      rw [words, List.mem_filter, decide_eq_true_eq] at hw
      obtain ⟨hw, ne⟩ := hw
      refine ⟨ne, ?_⟩
      rcases List.mem_cons.mp hw with rfl | hw
      · have bare : Bare (front ++ ']' :: word) := h.bare_of_mem (s := s) (by simp [split])
        have last := bare.2
        rwa [List.getLast?_append_cons, List.getLast?_cons_of_ne_nil ne] at last
      · exact (h.bare_of_mem (s := s) (by simp [split, hw])).2
    · have apart : c.reward = none → bracketGroup? (labelChars c s) = none :=
        fun none => Decidable.not_not.mp fun some => group ⟨none, some⟩
      rw [recognised_labels apart, words_labelChars h.toWritable, h.writtenLabels_eq, List.mem_filter,
        decide_eq_true_eq] at hw
      exact ⟨hw.2, (h.bare_of_mem hw.1).2⟩
  intro empty
  obtain ⟨word, hw, same⟩ := List.mem_map.mp empty
  obtain ⟨ne, last⟩ := seen hw
  apply unquoted_ne_nil ne last
  simpa using same

/-- **Labels in brackets are not all read back.** -/
theorem exists_lost_label (h : Accepted c) (hr : c.reward = none)
    (group : bracketGroup? (labelChars c s) ≠ none) :
    ∃ label ∈ c.labelling.labelsOf s, label ∉ rereadLabels c s := by
  obtain ⟨first, front, back, later, split, words⟩ := h.exists_of_group hr group
  have nodup : ((c.labelling.labelsOf s).map String.toList).Nodup :=
    Labelling.nodup_labelsOf.map fun _ _ same => String.toList_inj.mp same
  obtain ⟨label, hl, text⟩ := List.mem_map.mp
    (show front ++ ']' :: back ∈ (c.labelling.labelsOf s).map String.toList by simp [split])
  refine ⟨label, hl, fun again => ?_⟩
  obtain ⟨word, hw, same⟩ := List.mem_map.mp again
  have same : unquoted word = front ++ ']' :: back := by
    rw [← text, ← same, String.toList_ofList]
  rw [words] at hw
  rcases List.mem_cons.mp (List.mem_of_mem_filter hw) with rfl | hw
  · -- What is left of the label behind the bracket is shorter than the label.
    have shorter := length_unquoted_le word
    rw [same, List.length_append, List.length_cons] at shorter
    omega
  · -- Every other word is another label as a whole.
    have bare : Bare word := h.bare_of_mem (s := s) (by simp [split, hw])
    rw [unquoted_of_bare bare] at same
    rw [split, List.nodup_append, List.nodup_cons] at nodup
    exact nodup.2.1.1 (same ▸ hw)

/-- **What survives is unambiguous.** -/
theorem unambiguous (h : Accepted c) (survives : Survives c) : Unambiguous c := by
  obtain ⟨c', read, alike, labels⟩ := survives
  obtain ⟨-, initial, marked, same⟩ := (read_write_iff h.toWritable).mp read
  cases same
  obtain rfl : initial = c.initial := alike.initial
  have labels {s : Fin n} {label : String} :
      label ∈ rereadLabels c s ↔ c.labelling.has s label = true := by
    rw [← labels s label, has_reread]
  have visible (s : Fin n) : c.labelling.has s "" = false :=
    Bool.eq_false_of_not_eq_true fun empty => h.empty_not_mem_rereadLabels s (labels.mpr empty)
  refine ⟨visible, fun s hs => ?_, fun hr s bracketed => ?_⟩
  · obtain ⟨t, -, same, -, largest⟩ := (lastMarked_eq_some (List.pairwise_lt_finRange n)).mp marked
    exact Fin.ext same ▸ largest s (List.mem_finRange s) (labels.mpr hs)
  · have seen : "" ∉ writtenLabels c s := by
      intro empty
      rw [h.writtenLabels_eq, Labelling.mem_labelsOf, visible s] at empty
      cases empty
    have group : bracketGroup? (labelChars c s) ≠ none := by
      intro none
      apply (bracketGroup?_labelChars h.toWritable seen).mp none
      rw [h.writtenLabels_eq]
      exact bracketed
    obtain ⟨label, hl, lost⟩ := h.exists_lost_label hr group
    exact lost (labels.mpr (Labelling.mem_labelsOf.mp hl))

end Accepted

/-- **What has been read survives being written iff it is unambiguous.** -/
theorem survives_iff {bytes : List UInt8} (h : read bytes = .ok ⟨n, c⟩) (defined : c.RewardsDefined) :
    Survives c ↔ Unambiguous c := by
  have accepted := accepted_of_read h
  constructor
  · intro survives
    exact accepted.unambiguous survives
  · intro clear
    exact accepted.survives clear defined

/-- A text with labels that are quoted, or look like a reward, and with the last state first. -/
def quoted : String :=
  "@type: DTMC\n@nr_states\n2\n@model\n" ++
    "state 1 \"heads\" [x]\naction 0\n1 : 1\nstate 0 \"init\"\naction 0\n1 : 1\n"

/-- The labels survive. -/
theorem survives_quoted : ∃ c : Chain Float 2, read quoted.toUTF8.toList = .ok ⟨2, c⟩ ∧
    c.RewardsDefined ∧ Unambiguous c ∧ Survives c := by
  have result : (read quoted.toUTF8.toList).toOption = some ⟨2, 0, #v[[⟨1, 1⟩], [⟨1, 1⟩]],
      (((Labelling.empty 2).set "heads" (.ofList [1])).set "[x]" (.ofList [1])).set "init" (.ofList [0]), none⟩ := by
    decide +kernel
  have accepted := eq_ok_of_toOption result
  refine ⟨_, accepted, nofun, ?clear, (survives_iff accepted nofun).mpr ?clear⟩
  exact ⟨by decide +kernel, by decide +kernel, by decide +kernel⟩

/-- A text in which two states are marked as initial, the last state first. -/
def twice : String :=
  "@type: DTMC\n@nr_states\n2\n@model\n" ++
    "state 1 init\naction 0\n1 : 1\nstate 0 init\naction 0\n0 : 1\n"

/-- **The initial state need not survive.**  It is state 0 of the text, but state 1 of what is written. -/
theorem not_survives_twice : ∃ c : Chain Float 2, read twice.toUTF8.toList = .ok ⟨2, c⟩ ∧
    c.RewardsDefined ∧ ¬ Survives c := by
  have result : (read twice.toUTF8.toList).toOption =
      some ⟨2, 0, #v[[⟨0, 1⟩], [⟨1, 1⟩]], (Labelling.empty 2).set "init" (.ofList [1, 0]), none⟩ := by
    decide +kernel
  have accepted := eq_ok_of_toOption result
  refine ⟨_, accepted, nofun, fun survives => ?_⟩
  have later := ((accepted_of_read accepted).unambiguous survives).marked 1 (by decide +kernel)
  exact absurd later (by decide)

end Drn

end HoleBlame
