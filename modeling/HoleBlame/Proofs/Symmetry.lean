import HoleBlame.Proofs.Binary64
import HoleBlame.Proofs.CheckerSymmetry
import HoleBlame.Proofs.Search
import HoleBlame.Proofs.ShortcutSymmetry
import HoleBlame.Proofs.WaveSymmetry

/-!
# Explanations do not depend on the numbers of states and holes

Under new numbers of the states and holes of a member the search for an explanation ends as before, after
the same wave and the same number of questions, and the critical holes are the old ones under new numbers
(`Explanation.explain_renumber`).  For the waves are the old ones, what is shortened and expanded is the old
chain, and the checker answers it as before, so that at every wave the search takes the same turn
(`Explanation.verdict_renumber`).

Two errors name the state with the smallest number to which they apply, and this may be another one under new
numbers.  Errors are therefore compared up to that (`ExplanationError.Alike`).
-/

namespace HoleBlame

variable {α : Type} {n h : Nat} {σ : Equiv.Perm (Fin n)} {τ : Equiv.Perm (Fin h)}

/-- The errors agree but for a state that they name. -/
inductive ExplanationError.Alike : ExplanationError α → ExplanationError α → Prop where
  | refl (error : ExplanationError α) : Alike error error
  | waves {error error' : WavesError} (h : error.Alike error') : Alike (.waves error) (.waves error')
  | shortcut {error error' : ShortcutError α} (h : error.Alike error') :
    Alike (.shortcut error) (.shortcut error')

namespace Explanation

/-- The same explanation under new numbers of the holes. -/
def renumber (τ : Equiv.Perm (Fin h)) (e : Explanation h) : Explanation h :=
  { e with criticalHoles := e.criticalHoles.renumber τ }

theorem conclude_renumber (w : Waves n h) (p : Property α) (v : Verdict) :
    Likewise ExplanationError.Alike (renumber τ) (conclude w p v)
      (conclude (w.renumber σ τ) p v) := by
  have ofWave_renumber (wave calls : Nat) (conservative : Bool) :
      ofWave (w.renumber σ τ) wave calls conservative =
        (ofWave w wave calls conservative).renumber τ := by
    rw [ofWave, Waves.criticalHoles_renumber, Waves.count_renumber]
    rfl
  cases v with
  | violated wave calls => exact .ok_of_eq (ofWave_renumber wave calls false)
  | gaveUp calls =>
    refine .ok_of_eq ?_
    rw [Waves.last_renumber, ofWave_renumber]
  | satisfied => exact .error (.refl _)
  | failed error => exact .error (.refl _)
  | incomplete found => exact .error (.refl _)

/-- **The search goes the same way under new numbers.** -/
theorem verdict_renumber [Scalar α] [Scalar.Monotone α] {k : Checker α} {o : SearchOptions} {wave calls : Nat}
    {x : Shortcut α n} {waves : List (List (Fin n))} :
    verdict k o wave calls (x.renumber σ) (waves.map (·.map σ)) = verdict k o wave calls x waves := by
  induction waves generalizing wave calls x with
  | nil => rfl
  | cons states rest ih =>
    have check (x : Shortcut α n) : k.check (x.renumber σ).chain (x.renumber σ).property =
        (k.check x.chain x.property).map (·.renumber (Shortcut.withSinks σ)) :=
      Checker.check_renumber k x.property
    have satisfies (x : Shortcut α n) (r : CheckResult α (n + 2)) :
        (r.renumber (Shortcut.withSinks σ)).satisfies (x.renumber σ).chain.initial
          (x.renumber σ).property.bound = r.satisfies x.chain.initial x.property.bound :=
      CheckResult.satisfies_renumber
    rw [List.map_cons, verdict_cons, verdict_cons, Shortcut.expand_renumber, ih, ih, check,
      List.isEmpty_map]
    cases k.check (x.expand states).chain (x.expand states).property with
    | error error => rfl
    | ok r =>
      simp only [Except.map, satisfies]

/-- **The outcome of a search does not depend on the numbers of states and holes.** -/
theorem explain_renumber (k : Checker Float) (o : SearchOptions) (a : Annotated Float n h)
    (p : Property Float) (σ : Equiv.Perm (Fin n)) (τ : Equiv.Perm (Fin h)) :
    Likewise ExplanationError.Alike (renumber τ) (explain k o a p)
      (explain k o (a.renumber σ τ) p) := by
  have waves : Likewise WavesError.Alike (Waves.renumber σ τ) (Waves.ofAnnotated a)
      (Waves.ofAnnotated (a.renumber σ τ)) := Waves.ofAnnotated_renumber a
  have shortcut : Likewise ShortcutError.Alike (Shortcut.renumber σ)
      (Shortcut.ofMember a.member a.priors p)
      (Shortcut.ofMember (a.renumber σ τ).member (a.renumber σ τ).priors p) :=
    Shortcut.ofMember_renumber
  rw [explain_eq, explain_eq]
  generalize Waves.ofAnnotated a = w, Waves.ofAnnotated (a.renumber σ τ) = w' at waves
  generalize Shortcut.ofMember a.member a.priors p = x,
    Shortcut.ofMember (a.renumber σ τ).member (a.renumber σ τ).priors p = x' at shortcut
  cases waves with
  | error h => exact .error (.waves h)
  | ok w =>
    cases shortcut with
    | error h => exact .error (.shortcut h)
    | ok x =>
      have verdict : verdict k o 0 0 (x.renumber σ) (w.renumber σ τ).states =
          verdict k o 0 0 x w.states := verdict_renumber
      simp only [verdict]
      exact conclude_renumber w p _

end Explanation

end HoleBlame
