import HoleBlame.Drn.Reader
import HoleBlame.Proofs.Results
import HoleBlame.Proofs.Restoring

/-!
# Constraints of shortened chains

A shortened chain has all labels of its member and three of its own, and any of these names may be in use
in the member already.

* The labels of the sinks do no harm under such a name.  Each adds a sink to the states that carry it, and
  no state of the member.
* The label of the states that count as target takes the place of a label of that name.  What the member
  says about it is lost, unless it says of every state whether it counts as target
  (`Shortcut.Shortens.keepsLabel_iff`).

Nothing keeps the constraint of a property from having the second name, and then the shortened chain is
checked against another constraint than the member (`Shortcut.not_keepsLabel_lent`).  Under any other name
it is kept, whatever is expanded (`Shortcut.keepsLabel_constraint_iff`).
-/

namespace HoleBlame

namespace Shortcut

section Labels

variable {α : Type} {n : ℕ} [Scalar α] {m : Member α n} {priors : Priors α} {p : Property α}
  {target : StateSet n} {x : Shortcut α n} {c : Chain α n} {name : String}

/-- The states of a chain that carry a label are those that carry it in the shortened chain. -/
def KeepsLabel (x : Shortcut α n) (c : Chain α n) (name : String) : Prop :=
  ∀ s, x.chain.labelling.has (lift s) name = c.labelling.has s name

instance : Decidable (x.KeepsLabel c name) :=
  inferInstanceAs (Decidable (∀ s, x.chain.labelling.has (lift s) name = c.labelling.has s name))

/-- The state counts as target: it is a target, or it is known to be one. -/
def CountsAsTarget (m : Member α n) (priors : Priors α) (p : Property α) (s : Fin n) : Prop :=
  m.chain.labelling.has s p.formula.target = true ∨ priors.isTarget (m.quotientState.get s) = true

theorem Shortens.has_targetLabel_iff (h : x.Shortens m priors p target) (s : Fin n) :
    x.chain.labelling.has (lift s) targetLabel = true ↔ CountsAsTarget m priors p s := by
  rw [h.labelling, has_targetLabel, mem_targets_lift, CountsAsTarget,
    Labelling.has_of_get? h.target_eq]

/-- **A label is kept, unless its name is taken for the states that count as target.** -/
theorem Shortens.keepsLabel_iff (h : x.Shortens m priors p target) : x.KeepsLabel m.chain name ↔
    name ≠ targetLabel ∨
      ∀ s, m.chain.labelling.has s targetLabel = true ↔ CountsAsTarget m priors p s := by
  by_cases taken : name = targetLabel
  · subst taken
    rw [or_iff_right fun ne => ne rfl]
    refine forall_congr' fun s => ?_
    rw [Bool.eq_iff_iff, h.has_targetLabel_iff]
    exact iff_comm
  · have kept : x.KeepsLabel m.chain name := by
      intro s
      rw [h.labelling, has_lift taken]
    exact iff_of_true kept (.inl taken)

/-- **The constraint of a property is kept, unless its name is taken for the states that count as
target.**  Whatever is expanded, the states of the member that carry it are the same. -/
theorem keepsLabel_constraint_iff {constraint label : String} {b : Bound α}
    (hx : ofMember m priors ⟨.probability (some constraint) label, b⟩ = .ok x)
    (calls : List (List (Fin n))) : (calls.foldl expand x).KeepsLabel m.chain constraint ↔
      constraint ≠ targetLabel ∨ ∀ s, m.chain.labelling.has s targetLabel = true ↔
        CountsAsTarget m priors ⟨.probability (some constraint) label, b⟩ s := by
  obtain ⟨target, shortens, -⟩ := shortens_of_ofMember hx
  rw [foldl_expand]
  exact (shortens.expand calls.flatten).keepsLabel_iff

end Labels

/-! ### Names in use -/

/-- A road of three states whose first two carry a label that names a sink. -/
def borrowed : String :=
  "@type: DTMC\n@nr_states\n3\n@model\nstate 0 sink_true init\naction 0\n1 : 1\n" ++
    "state 1 sink_true\naction 0\n2 : 1\nstate 2 goal\naction 0\n2 : 1\n"

/-- What is known in advance of the road: a bound for its first state, and that its second one is a
target. -/
def roadSign : Priors Float :=
  ⟨#[⟨some 0.5, false⟩, ⟨none, true⟩]⟩

/-- A constraint that is called like a sink is kept. -/
theorem keepsLabel_borrowed : ∃ (c : Chain Float 3) (x : Shortcut Float 3),
    Drn.read borrowed.toUTF8.toList = .ok ⟨3, c⟩ ∧
      ofMember (.identity c) roadSign
        ⟨.probability (some sinkTrueLabel) "goal", ⟨.lessEqual, 0⟩⟩ = .ok x ∧
      ([[1], [0, 1]].foldl expand x).KeepsLabel c sinkTrueLabel := by
  have computed : ((Drn.read borrowed.toUTF8.toList).toOption.bind fun r =>
      (ofMember (.identity r.2) roadSign
        ⟨.probability (some sinkTrueLabel) "goal", ⟨.lessEqual, 0⟩⟩).toOption.map fun _ => r.1) =
      some 3 := by
    decide +kernel
  obtain ⟨⟨n, c⟩, read, built⟩ := Option.bind_eq_some_iff.mp computed
  obtain ⟨x, hx, size⟩ := Option.map_eq_some_iff.mp built
  obtain rfl : n = 3 := size
  exact ⟨c, x, eq_ok_of_toOption read, eq_ok_of_toOption hx,
    (keepsLabel_constraint_iff (m := .identity _) (eq_ok_of_toOption hx) _).mpr (.inl (by decide))⟩

/-- A road of three states whose first two carry the label of the states that count as target. -/
def lent : String :=
  "@type: DTMC\n@nr_states\n3\n@model\nstate 0 shortcut_target init\naction 0\n1 : 1\n" ++
    "state 1 shortcut_target\naction 0\n2 : 1\nstate 2 goal\naction 0\n2 : 1\n"

/-- **A constraint that is called like the states that count as target is lost.**  The first two states of
the road carry it, and in the shortened chain they do not. -/
theorem not_keepsLabel_lent : ∃ (c : Chain Float 3) (x : Shortcut Float 3),
    Drn.read lent.toUTF8.toList = .ok ⟨3, c⟩ ∧
      ofMember (.identity c) .unknown
        ⟨.probability (some targetLabel) "goal", ⟨.greaterEqual, 0⟩⟩ = .ok x ∧
      ¬ x.KeepsLabel c targetLabel := by
  have computed : ((Drn.read lent.toUTF8.toList).toOption.bind fun r =>
      (ofMember (.identity r.2) .unknown
        ⟨.probability (some targetLabel) "goal", ⟨.greaterEqual, 0⟩⟩).toOption.map fun x =>
          (r.1, decide (x.KeepsLabel r.2 targetLabel))) = some (3, false) := by
    decide +kernel
  obtain ⟨⟨n, c⟩, read, built⟩ := Option.bind_eq_some_iff.mp computed
  obtain ⟨x, hx, result⟩ := Option.map_eq_some_iff.mp built
  obtain ⟨size, lost⟩ := Prod.mk.inj result
  obtain rfl : n = 3 := size
  exact ⟨c, x, eq_ok_of_toOption read, eq_ok_of_toOption hx, of_decide_eq_false lost⟩

end Shortcut

end HoleBlame
