import HoleBlame.Proofs.Partition
import HoleBlame.Proofs.Search
import HoleBlame.Proofs.Verdicts

/-!
# Violations are explained, and nothing else is

Suppose that nothing is known in advance and that the threshold of a property is zero or one.  Then the
checker answers every shortened chain, and the search ends in one of two ways.

It stops at a shortened chain that violates the property, and so does the member, which looks like the
shortened chain where it is expanded.  Or the last shortened chain satisfies the property.  In this one
all reachable states are expanded; the others still take their shortcuts, but no run gets there, so the
member satisfies the property as well.  An explanation is therefore found exactly when the member
violates the property (`Explanation.explain_outcome`).
-/

namespace HoleBlame

variable {α : Type} {n h : Nat}

/-- A chain looks like itself where it can be reached. -/
theorem Likeness.reachable (c : Chain α n) (g : Goal n) (known : Fin n → Prop) :
    Likeness c c g g known fun s s' => s = s' ∧ s ∈ Graph.reachable c where
  target := by
    rintro s s' ⟨rfl, -⟩
    rfl
  allowed := by
    rintro s s' ⟨rfl, -⟩
    rfl
  forth := by
    rintro s s' ⟨rfl, hs⟩ - t ht
    exact ⟨t, ht, rfl, Graph.mem_reachable.mpr ((Graph.mem_reachable.mp hs).tail trivial ht)⟩
  back := by
    rintro s s' ⟨rfl, hs⟩ - t ht
    exact ⟨t, ht, rfl, Graph.mem_reachable.mpr ((Graph.mem_reachable.mp hs).tail trivial ht)⟩

namespace Explanation

variable {m : Member Float n} {table : HoleTable h} {k : Checker Float} {o : SearchOptions}
  {constraint : Option String} {target : String} {b : Bound Float}

/-- **A member that violates a property is explained, and one that satisfies it is not.**  The search
has no other outcome. -/
theorem explain_outcome (covered : ∀ s, m.choice.get s < table.numChoices)
    (known : (Formula.probability constraint target).Known m.chain.labelling)
    (extreme : (b.threshold == 0 || b.threshold == 1) = true)
    (hc : constraint ≠ some Shortcut.targetLabel) :
    (k.Violates m.chain ⟨.probability constraint target, b⟩ ∧
        ∃ e, explain k o ⟨m, table, .unknown⟩ ⟨.probability constraint target, b⟩ = .ok e ∧
          e.conservative = false) ∨
      (k.Satisfies m.chain ⟨.probability constraint target, b⟩ ∧
        explain k o ⟨m, table, .unknown⟩ ⟨.probability constraint target, b⟩
          = .error (.satisfied ⟨.probability constraint target, b⟩)) := by
  obtain ⟨w, hw⟩ : ∃ w, Waves.ofAnnotated (⟨m, table, .unknown⟩ : Annotated Float n h) = .ok w :=
    ⟨_, Waves.ofAnnotated_eq_ok.mpr ⟨covered, rfl⟩⟩
  obtain ⟨x, hx⟩ : ∃ x, Shortcut.ofMember m .unknown ⟨.probability constraint target, b⟩ = .ok x :=
    Shortcut.exists_ofMember known (fun _ h => by cases h) (by simp)
  obtain ⟨targets, shortens, fresh⟩ := Shortcut.shortens_of_ofMember hx
  have initial : m.chain.initial ∈ Graph.reachable m.chain := Graph.mem_reachable.mpr .refl
  rcases explain_cases (k := k) (o := o) hw (Waves.states_ne_nil hw) hx
      fun states => (shortens.expand states).answers known extreme with
    ⟨he, hs⟩ | ⟨stop, calls, he, hv⟩
  · refine .inr ⟨?_, he⟩
    refine (shortens.expand _).satisfies known extreme hc known (Likeness.reachable _ _ _)
      ⟨rfl, initial⟩ ?_ hs
    -- All waves have been expanded, which are the reachable states.
    rintro s _ ⟨rfl, hr⟩
    exact Shortcut.mem_expanded_expand.mpr (.inl ((Waves.mem_flatten_of_ofAnnotated hw).mpr hr))
  · refine .inl ⟨?_, _, he, rfl⟩
    exact (shortens.expand _).violates known extreme hc known (Likeness.reachable _ _ _)
      ⟨rfl, initial⟩ hv

/-- A fork of two ways, both of which end badly.  The upper one depends on hole 0, the lower one on
hole 1. -/
def fork : Annotated Float 5 2 where
  member :=
    { chain :=
        { initial := 0
          rows := #v[[⟨1, 0.5⟩, ⟨2, 0.5⟩], [⟨3, 1⟩], [⟨4, 1⟩], [⟨3, 1⟩], [⟨4, 1⟩]]
          labelling := (Labelling.empty 5).set "bad" (.ofList [3, 4])
          reward := none }
      quotientState := #v[0, 1, 2, 3, 4]
      choice := #v[0, 1, 2, 4, 5] }
  table :=
    .ofSets [.empty 2, .ofFn (·.val == 0), .ofFn (·.val == 1), .ofFn (·.val == 1), .empty 2, .empty 2,
      .empty 2]
  priors := .unknown

/-- The fork must not end badly, but it does, and this is explained. -/
theorem explain_fork :
    Checker.standard.Violates fork.member.chain ⟨.probability none "bad", ⟨.lessEqual, 0⟩⟩ ∧
      ∃ e, explain .standard ⟨1, .fail, by decide⟩ fork
        ⟨.probability none "bad", ⟨.lessEqual, 0⟩⟩ = .ok e ∧ e.conservative = false := by
  have covered : ∀ s, fork.member.choice.get s < fork.table.numChoices := by decide +kernel
  have known : (Formula.probability none "bad").Known fork.member.chain.labelling :=
    ⟨by decide +kernel, by rintro _ ⟨⟩⟩
  have extreme : ((0 : Float) == 0 || (0 : Float) == 1) = true := by decide +kernel
  rcases explain_outcome (k := .standard) (o := ⟨1, .fail, by decide⟩)
    (b := ⟨.lessEqual, 0⟩) covered known extreme (by decide) with h | ⟨⟨r, hr, hs⟩, -⟩
  · exact h
  · have violated : (Checker.standard.check fork.member.chain
        ⟨.probability none "bad", ⟨.lessEqual, 0⟩⟩).toOption.any
          (·.satisfies 0 ⟨.lessEqual, 0⟩) = false := by decide +kernel
    rw [hr] at violated
    exact absurd hs (Bool.eq_false_iff.mp violated)

end Explanation

end HoleBlame
