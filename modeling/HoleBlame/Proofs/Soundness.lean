import HoleBlame.Proofs.Outcome
import HoleBlame.Proofs.Results

/-!
# Critical holes are critical

An explanation of why a member violates a property speaks for every member of the family that agrees on
the critical holes (`Explanation.violates_of_agreesOn`).  The members of a family have their own states,
and as many as they need; what they share is the quotient model (`Member.SameFamily`).

A label may exist in one member and not in the other, as long as no related states carry it.  Then there
is no verdict on the member without it, and so it has to have the labels that the property speaks of
(`Explanation.not_violates_solitude`).

The search stops at a shortened chain that violates the property.  The states that are expanded by then
depend on critical holes alone (`Waves.mem_criticalHoles_of_ofAnnotated`), so another member that agrees
on these takes the same choices there and looks alike (`Member.SameFamily.likeness`).  Whatever it looks
like elsewhere, the shortened chain has erred in favour of the property in those states.
-/

namespace HoleBlame

variable {α : Type} {n n' h : Nat}

/-- The labels that a formula speaks of. -/
def Formula.labels (f : Formula) : List String :=
  f.target :: f.constraint?.toList

/-- The transitions of a state of a member, whose successors are read as states of the quotient
model. -/
def Member.quotientRow (m : Member α n) (s : Fin n) : List (Nat × α) :=
  (m.chain.row s).map fun e => (m.quotientState.get e.next, e.prob)

/-- Two members of a family, as far as a formula can tell.  The order of the transitions of a state does
not matter, and a label that no state carries may exist in one member and not in the other. -/
structure Member.SameFamily (m : Member α n) (m' : Member α n') (f : Formula) : Prop where
  initial : m.quotientState.get m.chain.initial = m'.quotientState.get m'.chain.initial
  labels : ∀ s s', m.quotientState.get s = m'.quotientState.get s' → ∀ name ∈ f.labels,
    m.chain.labelling.has s name = m'.chain.labelling.has s' name
  rows : ∀ s s', m.quotientState.get s = m'.quotientState.get s' → m.choice.get s = m'.choice.get s' →
    (m.quotientRow s).Perm (m'.quotientRow s')

/-- Where all holes that a state depends on are among the given ones, another member takes the same
choice. -/
def Annotated.AgreesOn (a : Annotated α n h) (m' : Member α n') (holes : HoleSet h) : Prop :=
  ∀ s s', a.member.quotientState.get s = m'.quotientState.get s' → (∀ y ∈ a.holes s, y ∈ holes) →
    m'.choice.get s' = a.member.choice.get s

/-! ## Members of one family -/

namespace Member.SameFamily

variable {m : Member α n} {m' : Member α n'} {f : Formula}

/-- **Members of a family look alike where they take the same choices.** -/
theorem likeness (family : m.SameFamily m' f) {expanded : Fin n → Prop}
    (agree : ∀ s s', expanded s → m.quotientState.get s = m'.quotientState.get s' →
      m'.choice.get s' = m.choice.get s) :
    Likeness m.chain m'.chain (f.goal m.chain.labelling) (f.goal m'.chain.labelling) expanded
      fun s s' => m.quotientState.get s = m'.quotientState.get s' where
  target := by
    intro s s' same
    simp only [Formula.goal]
    rw [family.labels s s' same _ List.mem_cons_self]
  allowed := by
    intro s s' same
    have carried {name : String} (hn : f.constraint? = some name) :=
      family.labels s s' same name (List.mem_cons_of_mem f.target (Option.mem_toList.mpr hn))
    constructor
    · intro hs name hn
      rw [← carried hn]
      exact hs name hn
    · intro hs name hn
      rw [carried hn]
      exact hs name hn
  forth := by
    intro s s' same hs t ht
    have perm := family.rows s s' same (agree s s' hs same).symm
    obtain ⟨e, he, rfl⟩ := List.mem_map.mp ht
    obtain ⟨e', he', eq⟩ := List.mem_map.mp (perm.mem_iff.mp (List.mem_map_of_mem he))
    exact ⟨e'.next, List.mem_map_of_mem he', (Prod.mk.inj eq).1.symm⟩
  back := by
    intro s s' same hs t' ht'
    have perm := family.rows s s' same (agree s s' hs same).symm
    obtain ⟨e', he', rfl⟩ := List.mem_map.mp ht'
    obtain ⟨e, he, eq⟩ := List.mem_map.mp (perm.mem_iff.mpr (List.mem_map_of_mem he'))
    exact ⟨e.next, List.mem_map_of_mem he, (Prod.mk.inj eq).1⟩

end Member.SameFamily

namespace Explanation

variable {m : Member Float n} {table : HoleTable h} {k : Checker Float} {o : SearchOptions}
  {constraint : Option String} {target : String} {b : Bound Float}

/-- **The critical holes of an explanation are critical.**  Whatever the values of the other holes, a
member of the family that agrees on the critical holes violates the property, if it has the labels that
the property speaks of. -/
theorem violates_of_agreesOn {e : Explanation h} {m' : Member Float n'}
    (he : explain k o ⟨m, table, .unknown⟩ ⟨.probability constraint target, b⟩ = .ok e)
    (extreme : (b.threshold == 0 || b.threshold == 1) = true)
    (hc : constraint ≠ some Shortcut.targetLabel)
    (family : m.SameFamily m' (.probability constraint target))
    (exist : (Formula.probability constraint target).Known m'.chain.labelling)
    (agree : (⟨m, table, .unknown⟩ : Annotated Float n h).AgreesOn m' e.criticalHoles) :
    k.Violates m'.chain ⟨.probability constraint target, b⟩ := by
  obtain ⟨w, x, hw, hx⟩ := exists_of_explain_ok he
  obtain ⟨known, -⟩ := Shortcut.known_of_ofMember hx
  obtain ⟨targets, shortens, fresh⟩ := Shortcut.shortens_of_ofMember hx
  rcases explain_cases (k := k) (o := o) hw (Waves.states_ne_nil hw) hx
      fun states => (shortens.expand states).answers known extreme with
    ⟨he', -⟩ | ⟨stop, calls, he', hv⟩
  · rw [he'] at he
    cases he
  · rw [he'] at he
    cases he
    refine (shortens.expand _).violates known extreme hc exist (family.likeness ?_) family.initial hv
    -- What is expanded when the search stops depends on critical holes alone.
    intro s s' hs same
    refine agree s s' same fun y hy => Waves.mem_criticalHoles_of_ofAnnotated hw ?_ hy
    rcases Shortcut.mem_expanded_expand.mp hs with hs | hs
    · exact hs
    · rw [fresh] at hs
      exact absurd hs StateSet.not_mem_empty

/-- The fork with another value of hole 1, where the lower way ends well in a state of its own. -/
def safeFork : Member Float 6 where
  chain :=
    { initial := 0
      rows := #v[[⟨1, 0.5⟩, ⟨2, 0.5⟩], [⟨3, 1⟩], [⟨5, 1⟩], [⟨3, 1⟩], [⟨4, 1⟩], [⟨5, 1⟩]]
      labelling := (Labelling.empty 6).set "bad" (.ofList [3, 4])
      reward := none }
  quotientState := #v[0, 1, 2, 3, 4, 5]
  choice := #v[0, 1, 3, 4, 5, 6]

/-- The fork ends badly because of hole 0 alone, and so does any fork with the same value of it. -/
theorem violates_safeFork :
    explain .standard ⟨1, .fail, by decide⟩ fork ⟨.probability none "bad", ⟨.lessEqual, 0⟩⟩
        = .ok ⟨.ofList [0], 1, 3, 2, false⟩ ∧
      Checker.standard.Violates safeFork.chain ⟨.probability none "bad", ⟨.lessEqual, 0⟩⟩ := by
  have he : explain .standard ⟨1, .fail, by decide⟩ fork
      ⟨.probability none "bad", ⟨.lessEqual, 0⟩⟩ = .ok ⟨.ofList [0], 1, 3, 2, false⟩ :=
    eq_ok_of_toOption (by decide +kernel)
  have family : fork.member.SameFamily safeFork (.probability none "bad") :=
    ⟨rfl, by decide +kernel, by decide +kernel⟩
  have agree : fork.AgreesOn safeFork (.ofList [0]) := by
    unfold Annotated.AgreesOn
    decide +kernel
  have exist : (Formula.probability none "bad").Known safeFork.chain.labelling :=
    ⟨by decide +kernel, by rintro _ ⟨⟩⟩
  exact ⟨he, violates_of_agreesOn he (by decide +kernel) (by decide) family exist agree⟩

/-- A state that keeps to itself, and a goal that it does not get to. -/
def seclusion : Annotated Float 2 1 where
  member := .identity
    { initial := ⟨0, by decide⟩
      rows := .ofFn fun s => [⟨s, 1⟩]
      labelling := (Labelling.empty 2).set "goal" (.ofFn (·.val == 1))
      reward := none }
  table := .ofSets [.empty 1, .ofFn (·.val == 0)]
  priors := .unknown

/-- The state that keeps to itself, without a goal. -/
def solitude : Member Float 1 :=
  .identity ⟨0, .ofFn fun s => [⟨s, 1⟩], .empty 1, none⟩

/-- **A member without the label of the targets does not violate a property.**  The seclusion violates the
property that the goal is reached with some probability, and no hole is to blame.  The solitude belongs to
the same family, but the checker does not know the label there. -/
theorem not_violates_solitude :
    explain .standard ⟨1, .fail, by decide⟩ seclusion ⟨.probability none "goal", ⟨.greater, 0⟩⟩
        = .ok ⟨.empty 1, 0, 1, 1, false⟩ ∧
      seclusion.member.SameFamily solitude (.probability none "goal") ∧
      seclusion.AgreesOn solitude (.empty 1) ∧
      Checker.standard.check solitude.chain ⟨.probability none "goal", ⟨.greater, 0⟩⟩
        = .error (.unknownLabel "goal") ∧
      ¬ Checker.standard.Violates solitude.chain ⟨.probability none "goal", ⟨.greater, 0⟩⟩ := by
  have unknown : Checker.standard.check solitude.chain ⟨.probability none "goal", ⟨.greater, 0⟩⟩
      = .error (.unknownLabel "goal") := rfl
  refine ⟨eq_ok_of_toOption (by decide +kernel), ⟨rfl, by decide +kernel, by decide +kernel⟩, ?_, unknown, ?_⟩
  · unfold Annotated.AgreesOn
    decide +kernel
  · rintro ⟨r, found, -⟩
    rw [unknown] at found
    cases found

end Explanation

end HoleBlame
