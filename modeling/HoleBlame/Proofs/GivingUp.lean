import Mathlib
import HoleBlame.Proofs.Revelation
import HoleBlame.Proofs.Soundness

/-!
# A search that is given up still pins the verdict

When the oracle fails or time runs out, all holes that have been revealed by the last wave are reported.
This answer does not depend on how the search has gone so far: whatever the oracle does, and whatever
the clock says, the result of a search is what its end amounts to (`Explanation.satisfiesM_findWithin`).

The last wave reveals the holes of all reachable states.  A member of the family that agrees on them
takes the same choices wherever it is related to a reachable state, and so the two chains look alike as
far as either can be seen from its initial state (`Likeness.onReachable`).  The checker, which answers
from the graph if the threshold is zero or one, judges both alike (`Checker.judge_eq`).  So a
conservative explanation pins the verdict on every such property, not only on the one that was asked
about (`Explanation.pins_of_conservative`).

There is a verdict only where the labels exist that the property speaks of.  The two members have to have
the same of them (`Formula.NamedAlike`): a label that no reachable state carries may exist in one member
alone, and then the other one is not judged at all (`Explanation.judge_solitude_ne`).
-/

namespace HoleBlame

variable {α : Type} {n n' h : Nat}

/-! ## Chains that look alike where they can be reached -/

/-- Chains that look alike wherever the first one is known look alike on its reachable states, if all of
these are known. -/
theorem Likeness.onReachable {c : Chain α n} {c' : Chain α n'} {g : Goal n} {g' : Goal n'}
    {known : Fin n → Prop} {related : Fin n → Fin n' → Prop} (like : Likeness c c' g g' known related)
    (covered : ∀ s ∈ Graph.reachable c, known s) :
    Likeness c c' g g' (· ∈ Graph.reachable c) fun s s' => s ∈ Graph.reachable c ∧ related s s' where
  target := by
    rintro s s' ⟨-, hr⟩
    exact like.target hr
  allowed := by
    rintro s s' ⟨-, hr⟩
    exact like.allowed hr
  forth := by
    rintro s s' ⟨-, hr⟩ hs t ht
    obtain ⟨t', ht', hr'⟩ := like.forth hr (covered s hs) t ht
    exact ⟨t', ht', Graph.mem_reachable.mpr ((Graph.mem_reachable.mp hs).tail trivial ht), hr'⟩
  back := by
    rintro s s' ⟨-, hr⟩ hs t' ht'
    obtain ⟨t, ht, hr'⟩ := like.back hr (covered s hs) t' ht'
    exact ⟨t, ht, Graph.mem_reachable.mpr ((Graph.mem_reachable.mp hs).tail trivial ht), hr'⟩

/-! ## Verdicts that are alike -/

/-- Of the labels that a formula speaks of, the same exist in two labellings. -/
def Formula.NamedAlike (f : Formula) (L : Labelling n) (L' : Labelling n') : Prop :=
  ∀ name ∈ f.labels, (L.get? name).isSome = (L'.get? name).isSome

/-- The first label that a formula speaks of and that does not exist. -/
def Formula.unknown? (f : Formula) (L : Labelling n) : Option String :=
  f.labels.find? fun name => (L.get? name).isNone

section Unknown

variable {f : Formula} {L : Labelling n} {L' : Labelling n'}

theorem Formula.known_of_unknown? (h : f.unknown? L = none) : f.Known L := by
  have exist (name : String) (hn : name ∈ f.labels) : (L.get? name).isSome = true := by
    have present := List.find?_eq_none.mp h name hn
    rwa [Option.isNone_iff_eq_none, ← ne_eq, Option.ne_none_iff_isSome] at present
  constructor
  · exact exist _ List.mem_cons_self
  · intro name hn
    exact exist name (List.mem_cons_of_mem _ (Option.mem_toList.mpr hn))

theorem Formula.unknown?_congr (named : f.NamedAlike L L') : f.unknown? L = f.unknown? L' := by
  refine List.find?_congr fun name hn => ?_
  rw [← Option.not_isSome, ← Option.not_isSome, named name hn]

end Unknown

namespace Checker

variable [Scalar α] {c : Chain α n} {c' : Chain α n'} {constraint : Option String} {target : String}
  {b : Bound α}

/-- What the checker finds of the initial state of a chain: whether it satisfies the property, or why
nothing can be said. -/
def judge (k : Checker α) (c : Chain α n) (p : Property α) : Except CheckError Bool :=
  (k.check c p).map fun r => r.satisfies c.initial p.bound

/-- The checker reports the first label that does not exist. -/
theorem check_unknown (k : Checker α) {name : String}
    (h : (Formula.probability constraint target).unknown? c.labelling = some name) :
    k.check c ⟨.probability constraint target, b⟩ = .error (.unknownLabel name) := by
  unfold Formula.unknown? Formula.labels at h
  cases ht : c.labelling.get? target with
  | none =>
    obtain rfl : target = name := by simpa [Formula.target, ht] using h
    simp [check, label, ht, bind, Except.bind]
  | some states =>
    cases constraint with
    | none => simp [Formula.target, Formula.constraint?, ht] at h
    | some through =>
      simp only [Formula.target, ht, Formula.constraint?, Option.toList_some, List.find?_cons,
        Option.isNone_some, List.find?_nil] at h
      cases hc : c.labelling.get? through with
      | none =>
        obtain rfl : through = name := by simpa [hc] using h
        simp [check, label, label?, ht, hc, bind, Except.bind, Except.map]
      | some allowed => simp [hc] at h

/-- **Chains with the same labels whose initial states have the same chance are judged alike.** -/
theorem judge_eq (k : Checker α)
    (named : (Formula.probability constraint target).NamedAlike c.labelling c'.labelling)
    (extreme : (b.threshold == 0 || b.threshold == 1) = true)
    (chance : (c.chance ((Formula.probability constraint target).goal c.labelling) c.initial : α) =
      c'.chance ((Formula.probability constraint target).goal c'.labelling) c'.initial) :
    k.judge c ⟨.probability constraint target, b⟩ = k.judge c' ⟨.probability constraint target, b⟩ := by
  have same := Formula.unknown?_congr named
  unfold judge
  cases unknown : (Formula.probability constraint target).unknown? c.labelling with
  | some name =>
    rw [check_unknown k unknown, check_unknown k (same ▸ unknown)]
    rfl
  | none =>
    have known := Formula.known_of_unknown? unknown
    have known' := Formula.known_of_unknown? (same ▸ unknown)
    rw [check_eq_qualitative k known extreme, check_eq_qualitative k known' extreme]
    simp [Except.map, CheckResult.satisfies, chance]

end Checker

namespace Explanation

/-! ## The result of a search is what its end amounts to -/

section Results

variable [Scalar α] {m : Type → Type} [Monad m] [LawfulMonad m] {β : Type}

theorem Returns.satisfiesM {run : m β} {value : β} (returns : Returns run value) :
    SatisfiesM (· = value) run := by
  obtain ⟨noted, rfl⟩ := returns
  exact (SatisfiesM.of_true fun _ => trivial).bind fun _ _ => .pure rfl

/-- **Whatever the oracle and the clock do**, a search fails before it begins, or its result is what some
end of it amounts to. -/
theorem satisfiesM_findWithin (watch : Stopwatch m) (oracle : Nat → Shortcut α n → m (Answer α))
    (budget : Option Nat) (o : SearchOptions) (a : Annotated α n h) (p : Property α) :
    SatisfiesM (fun result => (∃ error, result = .error error) ∨
        ∃ w verdict, Waves.ofAnnotated a = .ok w ∧ result = conclude w p verdict)
      (findWithin watch oracle budget o a p) := by
  unfold findWithin find
  refine (SatisfiesM.of_true fun _ => trivial).bind fun start _ => ?_
  refine (returns_measure watch "waves" (Waves.ofAnnotated a)).satisfiesM.bind ?_
  rintro _ rfl
  cases hw : Waves.ofAnnotated a with
  | error error => exact .pure (.inl ⟨_, rfl⟩)
  | ok w =>
    refine (returns_measure watch "shortcut" (Shortcut.ofMember a.member a.priors p)).satisfiesM.bind ?_
    rintro _ rfl
    cases Shortcut.ofMember a.member a.priors p with
    | error error => exact .pure (.inl ⟨_, rfl⟩)
    | ok x =>
      refine (SatisfiesM.of_true fun _ => trivial).bind fun verdict _ => ?_
      exact .pure (.inr ⟨w, verdict, rfl, rfl⟩)

end Results

/-! ## Conservative explanations -/

/-- An explanation that names the holes of all reachable states, and so pins the verdict on a member. -/
structure Pins (e : Explanation h) (a : Annotated Float n h) : Prop where
  /-- The search stopped at the last wave. -/
  last : ∃ w, Waves.ofAnnotated a = .ok w ∧ e.stoppingWave = w.last ∧ e.stoppingWave + 1 = w.count
  /-- The critical holes are those that some reachable state depends on. -/
  holes : ∀ y, y ∈ e.criticalHoles ↔ ∃ s ∈ Graph.reachable a.member.chain, y ∈ a.holes s
  /-- Every member that has the same labels and agrees on the critical holes is judged alike. -/
  verdict : ∀ {n' : Nat} (m' : Member Float n') (constraint : Option String) (target : String)
    (b : Bound Float), (b.threshold == 0 || b.threshold == 1) = true →
    a.member.SameFamily m' (.probability constraint target) →
    (Formula.probability constraint target).NamedAlike a.member.chain.labelling m'.chain.labelling →
    a.AgreesOn m' e.criticalHoles →
    ∀ k : Checker Float, k.judge a.member.chain ⟨.probability constraint target, b⟩ =
      k.judge m'.chain ⟨.probability constraint target, b⟩

/-- **All revealed holes together pin the verdict.** -/
theorem pins_ofWave {a : Annotated Float n h} {w : Waves n h} (hw : Waves.ofAnnotated a = .ok w)
    (calls : Nat) : (ofWave w w.last calls true).Pins a := by
  have pos := Waves.count_pos hw
  have holes (y : Fin h) : y ∈ w.criticalHoles w.last ↔
      ∃ s ∈ Graph.reachable a.member.chain, y ∈ a.holes s := by
    simp only [Waves.mem_criticalHoles_iff hw, Waves.take_last hw, Waves.mem_flatten_of_ofAnnotated hw]
  refine ⟨⟨w, hw, rfl, ?last⟩, holes, ?verdict⟩
  case last =>
    change w.count - 1 + 1 = w.count
    omega
  case verdict =>
    intro n' m' constraint target b extreme family named agree k
    -- The other member is looked at where all holes of a state are critical, as those of reachable ones are.
    let expanded (s : Fin n) : Prop := ∀ y ∈ a.holes s, y ∈ w.criticalHoles w.last
    have like := family.likeness fun s s' (critical : expanded s) same => agree s s' same critical
    have reachable := like.onReachable fun s hs y hy => (holes y).mpr ⟨s, hs, hy⟩
    exact Checker.judge_eq k named extreme (reachable.chance_eq And.left
      ⟨Graph.mem_reachable.mpr .refl, family.initial⟩)

/-- **A search that is given up pins the verdict.**  Whatever the oracle answers, whenever it fails and
whatever the clock says, a conservative explanation stops at the last wave and names the holes of all
reachable states, and every member of the family that agrees on them is judged alike, if of the labels that
a property speaks of it has the same. -/
theorem pins_of_conservative {m : Type → Type} [Monad m] [LawfulMonad m] (watch : Stopwatch m)
    (oracle : Nat → Shortcut Float n → m (Answer Float)) (budget : Option Nat) (o : SearchOptions)
    (a : Annotated Float n h) (p : Property Float) :
    SatisfiesM (fun result => ∀ e, result = .ok e → e.conservative = true → e.Pins a)
      (findWithin watch oracle budget o a p) := by
  refine (satisfiesM_findWithin watch oracle budget o a p).imp ?_
  rintro _ (⟨error, rfl⟩ | ⟨w, verdict, hw, rfl⟩) e he conservative
  · cases he
  · cases verdict with
    | violated wave calls =>
      cases he
      cases conservative
    | gaveUp calls =>
      cases he
      exact pins_ofWave hw calls
    | satisfied | failed | incomplete => cases he

/-- The fork where either way may go on in circles, and with a corner that cannot be reached. -/
def windingFork : Member Float 10 where
  chain :=
    { initial := 9
      rows := #v[[⟨4, 1⟩], [⟨5, 1⟩], [⟨3, 1⟩], [⟨2, 1⟩], [⟨2, 1⟩], [⟨6, 1⟩], [⟨5, 1⟩], [⟨8, 1⟩], [⟨8, 1⟩],
        [⟨1, 0.5⟩, ⟨0, 0.5⟩]]
      labelling := (Labelling.empty 10).set "bad" (.ofList [2, 3, 4, 5, 6, 8])
      reward := none }
  quotientState := #v[1, 2, 3, 3, 3, 4, 4, 5, 6, 0]
  choice := #v[1, 2, 4, 4, 4, 5, 5, 3, 6, 0]

/-- An oracle that fails at the second question leaves nothing open about the fork. -/
theorem pins_fork : ∃ e, Id.run (findWithin .idle
      (fun call x => if call = 0 then answerOf .standard x else .error (.noConvergence call)) none
      ⟨1, .conservative, by decide⟩ fork ⟨.probability none "bad", ⟨.lessEqual, 0⟩⟩) = .ok e ∧
    e.conservative = true ∧ e.criticalHoles = .ofList [0, 1] ∧
    Checker.standard.judge fork.member.chain ⟨.probability none "bad", ⟨.greaterEqual, 1⟩⟩ =
      Checker.standard.judge windingFork.chain ⟨.probability none "bad", ⟨.greaterEqual, 1⟩⟩ := by
  have he : Id.run (findWithin .idle
      (fun call x => if call = 0 then answerOf .standard x else .error (.noConvergence call)) none
      ⟨1, .conservative, by decide⟩ fork ⟨.probability none "bad", ⟨.lessEqual, 0⟩⟩)
        = .ok ⟨.ofList [0, 1], 2, 3, 2, true⟩ :=
    eq_ok_of_toOption (by decide +kernel)
  have pinned := SatisfiesM_Id_eq.mp (pins_of_conservative (m := Id) .idle
    (fun call x => if call = 0 then answerOf .standard x else .error (.noConvergence call)) none
    ⟨1, .conservative, by decide⟩ fork ⟨.probability none "bad", ⟨.lessEqual, 0⟩⟩) _ he rfl
  have family : fork.member.SameFamily windingFork (.probability none "bad") :=
    ⟨rfl, by decide +kernel, by decide +kernel⟩
  have named : (Formula.probability none "bad").NamedAlike fork.member.chain.labelling
      windingFork.chain.labelling := by
    unfold Formula.NamedAlike
    decide +kernel
  have agree : fork.AgreesOn windingFork (.ofList [0, 1]) := by
    unfold Annotated.AgreesOn
    decide +kernel
  exact ⟨_, he, rfl, rfl, pinned.verdict windingFork none "bad" ⟨.greaterEqual, 1⟩ (by decide +kernel)
    family named agree .standard⟩

/-- **A member without the label of the targets is not judged alike.**  An oracle that fails at once leaves
nothing open about the seclusion, which violates the property that the goal is reached with some
probability.  The solitude belongs to the same family, but there is no verdict on it. -/
theorem judge_solitude_ne :
    Id.run (findWithin .idle (fun call _ => .error (.noConvergence call)) none
        ⟨1, .conservative, by decide⟩ seclusion ⟨.probability none "goal", ⟨.greater, 0⟩⟩)
        = .ok ⟨.empty 1, 0, 1, 1, true⟩ ∧
      seclusion.member.SameFamily solitude (.probability none "goal") ∧
      seclusion.AgreesOn solitude (.empty 1) ∧
      Checker.standard.judge seclusion.member.chain ⟨.probability none "goal", ⟨.greater, 0⟩⟩ = .ok false ∧
      Checker.standard.judge solitude.chain ⟨.probability none "goal", ⟨.greater, 0⟩⟩
        = .error (.unknownLabel "goal") := by
  refine ⟨eq_ok_of_toOption (by decide +kernel), ⟨rfl, by decide +kernel, by decide +kernel⟩, ?_,
    eq_ok_of_toOption (by decide +kernel), rfl⟩
  unfold Annotated.AgreesOn
  decide +kernel

end Explanation

end HoleBlame
