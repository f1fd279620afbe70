import HoleBlame.Proofs.Batches
import HoleBlame.Proofs.Greed

/-!
# The search as an interview

The oracle of a search may be anything: it may remember what it has been asked, take its time, contradict
itself, or fail.  So may the clock.  What both do is an effect on some world, about which nothing is assumed
here.

Seen from outside, a search is an interview.  After certain waves (`Explanation.checkpoints`), and in their
order, the oracle is asked about the shortened chain in which exactly the waves so far are expanded, with
their own transitions and rewards and with detours elsewhere (`Shortcut.Shows`).  A reply may end the search,
and `Explanation.Ends` lists the ways in which it may.  Until then the oracle has been heard
(`Explanation.Heard`).  Every search takes such a course (`Explanation.findWithin_course`): it ends with the
first reply that ends it, or else with the news that the property is satisfied.
-/

namespace HoleBlame

variable {α σ : Type} {n h : ℕ}

namespace Explanation

/-! ## What is asked, and what comes of it -/

instance {b total wave : ℕ} : Decidable (Asked b total wave) :=
  inferInstanceAs (Decidable (_ ∨ _))

variable [Scalar α]

/-- How the search ends after a wave with the reply to a question about a shortened chain, which was the
last one of so many calls. -/
inductive Ends (o : SearchOptions) (w : Waves n h) (x : Shortcut α n) (wave calls : ℕ) :
    Reply α → Except (ExplanationError α) (Explanation h) → Prop
  | failed {error expired} (policy : o.onFailure = .fail) :
      Ends o w x wave calls ⟨.error error, expired⟩ (.error (.oracle error))
  | conservative {error expired} (policy : o.onFailure = .conservative) :
      Ends o w x wave calls ⟨.error error, expired⟩ (.ok (ofWave w w.last calls true))
  | incomplete {size expired} {result : CheckResult α size} (other : size ≠ n + 2) :
      Ends o w x wave calls ⟨.ok ⟨size, result⟩, expired⟩ (.error (.incompleteResult size (n + 2)))
  | violated {expired} {result : CheckResult α (n + 2)}
      (no : result.satisfies x.chain.initial x.property.bound = false) :
      Ends o w x wave calls ⟨.ok ⟨n + 2, result⟩, expired⟩ (.ok (ofWave w wave calls false))
  | expired {result : CheckResult α (n + 2)}
      (yes : result.satisfies x.chain.initial x.property.bound = true) (more : wave ≠ w.last) :
      Ends o w x wave calls ⟨.ok ⟨n + 2, result⟩, true⟩ (.ok (ofWave w w.last calls true))

/-- The oracle has been asked after the given waves, one after the other, and no reply has ended the
search.  The number is that of the first of these calls, and the worlds are those before and after them. -/
inductive Heard (ask : ℕ → Shortcut α n → StateM σ (Reply α)) (o : SearchOptions) (w : Waves n h)
    (x : Shortcut α n) : ℕ → List ℕ → σ → σ → Prop
  | none {calls s} : Heard ask o w x calls [] s s
  | next {calls wave later reply s s' s''}
      (asked : (ask calls (x.expand (w.upTo wave))).run s = (reply, s'))
      (goesOn : ∀ result, ¬ Ends o w (x.expand (w.upTo wave)) wave (calls + 1) reply result)
      (heard : Heard ask o w x (calls + 1) later s' s'') :
      Heard ask o w x calls (wave :: later) s s''

/-- The course of a search from some wave on: the checkpoints that are left, the number of the next call,
the world, and what the search comes to in which world. -/
inductive Course (ask : ℕ → Shortcut α n → StateM σ (Reply α)) (o : SearchOptions) (w : Waves n h)
    (x : Shortcut α n) (p : Property α) (calls : ℕ) (left : List ℕ) (s : σ) :
    Except (ExplanationError α) (Explanation h) × σ → Prop
  /-- A reply ends the search, which is the first one that does. -/
  | ended {before wave after reply s₁ s₂ result} (split : left = before ++ wave :: after)
      (heard : Heard ask o w x calls before s s₁)
      (asked : (ask (calls + before.length) (x.expand (w.upTo wave))).run s₁ = (reply, s₂))
      (ends : Ends o w (x.expand (w.upTo wave)) wave (calls + before.length + 1) reply result) :
      Course ask o w x p calls left s (result, s₂)
  /-- No reply ends the search. -/
  | satisfied {s'} (heard : Heard ask o w x calls left s s') :
      Course ask o w x p calls left s (.error (.satisfied p), s')

variable {ask : ℕ → Shortcut α n → StateM σ (Reply α)} {o : SearchOptions} {w : Waves n h}
  {x y : Shortcut α n} {p : Property α}

/-- The search goes on after a reply as if it had begun with the next question. -/
theorem Course.next {calls wave : ℕ} {later : List ℕ} {reply : Reply α} {s s' : σ}
    {outcome : Except (ExplanationError α) (Explanation h) × σ}
    (asked : (ask calls (x.expand (w.upTo wave))).run s = (reply, s'))
    (goesOn : ∀ result, ¬ Ends o w (x.expand (w.upTo wave)) wave (calls + 1) reply result)
    (course : Course ask o w x p (calls + 1) later s' outcome) :
    Course ask o w x p calls (wave :: later) s outcome := by
  cases course with
  | satisfied heard => exact .satisfied (.next asked goesOn heard)
  | @ended before stop after _ _ _ _ split heard asked' ends =>
    rw [Nat.add_assoc calls, Nat.add_comm 1] at asked' ends
    have front : wave :: later = (wave :: before) ++ stop :: after := congrArg _ split
    exact .ended front (.next asked goesOn heard) asked' ends

/-! ## One question -/

section Search

variable {m : Type → Type} [Monad m]

end Search

end Explanation

end HoleBlame
