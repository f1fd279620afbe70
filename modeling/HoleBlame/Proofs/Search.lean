import Mathlib.Tactic.Choose
import HoleBlame.Explanation
import HoleBlame.Proofs.Chances
import HoleBlame.Proofs.Shortening

/-!
# The search for an explanation

A search without a time limit whose oracle gives the same answer to the same question is a function of what
it is given (`Explanation.consult`), in particular with a checker for an oracle (`Explanation.explain`): the
clock is read all the same, but nothing depends on it (`Explanation.returns_explain`).

A search with a checker expands wave after wave and stops at a shortened chain that violates the property
(`Explanation.search_violated`).  If it finds none, the chain with all waves expanded satisfies the
property (`Explanation.search_satisfied`).  As long as the checker answers there is no third way
(`Explanation.search_answered`), so an explanation is found in the first case and none in the second
(`Explanation.explain_cases`).
-/

namespace HoleBlame

variable {α : Type} {n h : Nat} [Scalar α]

namespace Explanation

/-- The outcome of a search with a checker for an oracle and without a time limit. -/
def explain (k : Checker α) (o : SearchOptions) (a : Annotated α n h) (p : Property α) :
    Except (ExplanationError α) (Explanation h) :=
  Id.run (findWithin .idle (fun _ x => pure (answerOf k x)) none o a p)

/-- The answer of a checker whenever it is asked, in time. -/
def reply (k : Checker α) (_ : Nat) (x : Shortcut α n) : Id (Reply α) :=
  pure ⟨answerOf k x, false⟩

/-- The end of a search with a checker for an oracle and without a time limit. -/
def verdict (k : Checker α) (o : SearchOptions) (wave calls : Nat) (x : Shortcut α n)
    (waves : List (List (Fin n))) : Verdict :=
  Id.run (search (reply k) o wave calls x waves)

/-- The outcome of a search with an oracle that gives the same answer whenever it is asked about the same
shortened chain, without a time limit. -/
def consult (oracle : Shortcut α n → Answer α) (o : SearchOptions) (a : Annotated α n h)
    (p : Property α) : Except (ExplanationError α) (Explanation h) :=
  Id.run (findWithin .idle (fun _ x => pure (oracle x)) none o a p)

/-- The end of a search with an oracle that gives the same answer whenever it is asked about the same
shortened chain, without a time limit. -/
def consultation (oracle : Shortcut α n → Answer α) (o : SearchOptions) (wave calls : Nat)
    (x : Shortcut α n) (waves : List (List (Fin n))) : Verdict :=
  Id.run (search (fun _ x => pure ⟨oracle x, false⟩) o wave calls x waves)

variable {k : Checker α} {oracle : Shortcut α n → Answer α} {o : SearchOptions}
  {a : Annotated α n h} {p : Property α} {x : Shortcut α n}

theorem consult_eq : consult oracle o a p =
    match Waves.ofAnnotated a with
    | .error error => .error (.waves error)
    | .ok w =>
      match Shortcut.ofMember a.member a.priors p with
      | .error error => .error (.shortcut error)
      | .ok x => conclude w p (consultation oracle o 0 0 x w.states) := by
  unfold consult findWithin find
  cases hw : Waves.ofAnnotated a with
  | error error => rfl
  | ok w =>
    cases hx : Shortcut.ofMember a.member a.priors p with
    | error error => rfl
    | ok x => rfl

theorem explain_eq : explain k o a p =
    match Waves.ofAnnotated a with
    | .error error => .error (.waves error)
    | .ok w =>
      match Shortcut.ofMember a.member a.priors p with
      | .error error => .error (.shortcut error)
      | .ok x => conclude w p (verdict k o 0 0 x w.states) :=
  consult_eq

/-! ## Clocks and notes -/

section Returns

variable {m : Type → Type} [Monad m] {β γ : Type}

/-- Whatever else a computation does, it returns a certain value. -/
def Returns (run : m β) (value : β) : Prop :=
  ∃ noted : m Unit, run = noted >>= fun _ => pure value

variable [LawfulMonad m]

theorem returns_pure (value : β) : Returns (pure value : m β) value :=
  ⟨pure (), by rw [pure_bind]⟩

theorem Returns.bind {run : m β} {value : β} {next : β → m γ} {result : γ} (h : Returns run value)
    (hnext : Returns (next value) result) : Returns (run >>= next) result := by
  obtain ⟨noted, rfl⟩ := h
  obtain ⟨later, e⟩ := hnext
  refine ⟨noted >>= fun _ => later, ?_⟩
  rw [bind_assoc, bind_assoc]
  simp only [pure_bind, e]

/-- What is read first may be anything if the rest returns the same value in any case. -/
theorem Returns.after {run : m β} {next : β → m γ} {result : γ}
    (hnext : ∀ value, Returns (next value) result) : Returns (run >>= next) result := by
  choose noted e using hnext
  refine ⟨run >>= noted, ?_⟩
  rw [bind_assoc]
  exact congrArg (run >>= ·) (funext e)

theorem returns_measure {ε : Type} (watch : Stopwatch m) (phase : String) (result : Except ε β) :
    Returns (watch.measure phase fun _ => pure result) result := by
  unfold Stopwatch.measure
  refine .after fun start => ?_
  rw [pure_bind]
  cases result with
  | error error => exact returns_pure _
  | ok value => exact .after fun now => .after fun _ => returns_pure _

/-- A search asks whatever answers as the checker does, and ends as it would end with the checker. -/
theorem returns_search {ask : Nat → Shortcut α n → m (Reply α)}
    (answers : ∀ call x, Returns (ask call x) ⟨answerOf k x, false⟩) (wave calls : Nat)
    (waves : List (List (Fin n))) :
    Returns (search ask o wave calls x waves) (verdict k o wave calls x waves) := by
  induction waves generalizing wave calls x with
  | nil => exact returns_pure _
  | cons states rest ih =>
    rw [verdict, search, search]
    split
    · exact ih _ _
    · refine (answers _ _).bind ?_
      simp only [reply, pure_bind]
      split
      · cases o.onFailure with
        | fail => exact returns_pure _
        | conservative => exact returns_pure _
      · split
        · exact returns_pure _
        · exact returns_pure _
        · exact ih _ _

/-- **Nothing depends on the clock of a search without a time limit.** -/
theorem returns_explain (watch : Stopwatch m) :
    Returns (findWithin watch (fun _ x => pure (answerOf k x)) none o a p) (explain k o a p) := by
  rw [explain_eq]
  refine .after fun start => ?_
  refine (returns_measure watch "waves" (Waves.ofAnnotated a)).bind ?_
  cases Waves.ofAnnotated a with
  | error error => exact returns_pure _
  | ok w =>
    refine (returns_measure watch "shortcut" (Shortcut.ofMember a.member a.priors p)).bind ?_
    cases Shortcut.ofMember a.member a.priors p with
    | error error => exact returns_pure _
    | ok x =>
      refine (returns_search ?_ 0 0 w.states).bind (returns_pure _)
      intro call x
      exact .after fun _ => (returns_pure _).bind (.after fun _ => .after fun _ => .after fun _ =>
        returns_pure _)

end Returns

/-! ## The course of a search -/

theorem satisfies?_full (x : Shortcut α n) (r : CheckResult α (n + 2)) :
    satisfies? x ⟨n + 2, r⟩ = some (r.satisfies x.chain.initial x.property.bound) :=
  dif_pos rfl

theorem consultation_cons {wave calls : Nat} {states : List (Fin n)} {rest : List (List (Fin n))} :
    consultation oracle o wave calls x (states :: rest) =
      if (wave + 1) % o.batchSize != 0 && !rest.isEmpty then
        consultation oracle o (wave + 1) calls (x.expand states) rest
      else
        match oracle (x.expand states) with
        | .error error =>
          match o.onFailure with
          | .fail => .failed error
          | .conservative => .gaveUp (calls + 1)
        | .ok answer =>
          match satisfies? (x.expand states) answer with
          | none => .incomplete answer.1
          | some false => .violated wave (calls + 1)
          | some true => consultation oracle o (wave + 1) (calls + 1) (x.expand states) rest := by
  unfold consultation
  rw [search]
  split
  · rfl
  · simp only [pure_bind]
    cases oracle (x.expand states) with
    | error error =>
      simp only
      cases o.onFailure <;> rfl
    | ok answer =>
      simp only
      rcases satisfies? (x.expand states) answer with _ | _ | _ <;> rfl

theorem verdict_cons {wave calls : Nat} {states : List (Fin n)} {rest : List (List (Fin n))} :
    verdict k o wave calls x (states :: rest) =
      if (wave + 1) % o.batchSize != 0 && !rest.isEmpty then
        verdict k o (wave + 1) calls (x.expand states) rest
      else
        match k.check (x.expand states).chain (x.expand states).property with
        | .error error =>
          match o.onFailure with
          | .fail => .failed error
          | .conservative => .gaveUp (calls + 1)
        | .ok r =>
          if r.satisfies (x.expand states).chain.initial (x.expand states).property.bound then
            verdict k o (wave + 1) (calls + 1) (x.expand states) rest
          else .violated wave (calls + 1) := by
  change consultation (answerOf k) o wave calls x (states :: rest) = _
  rw [consultation_cons, answerOf]
  split
  · rfl
  · cases k.check (x.expand states).chain (x.expand states).property with
    | error error => rfl
    | ok r =>
      simp only [Except.map, satisfies?_full]
      cases r.satisfies (x.expand states).chain.initial (x.expand states).property.bound <;> rfl

/-- **A search stops at a shortened chain that violates the property.** -/
theorem search_violated {wave calls stop total : Nat} {waves : List (List (Fin n))}
    (e : verdict k o wave calls x waves = .violated stop total) :
    wave ≤ stop ∧ stop < wave + waves.length ∧
      k.Violates (x.expand (waves.take (stop + 1 - wave)).flatten).chain
        (x.expand (waves.take (stop + 1 - wave)).flatten).property := by
  induction waves generalizing wave calls x with
  | nil => cases e
  | cons states rest ih =>
    -- Either the search goes on after this wave, or it stops here.
    have later {calls : Nat}
        (e : verdict k o (wave + 1) calls (x.expand states) rest = .violated stop total) :
        wave ≤ stop ∧ stop < wave + (states :: rest).length ∧
          k.Violates (x.expand ((states :: rest).take (stop + 1 - wave)).flatten).chain
            (x.expand ((states :: rest).take (stop + 1 - wave)).flatten).property := by
      obtain ⟨hle, hlt, hv⟩ := ih e
      refine ⟨by omega, by rw [List.length_cons]; omega, ?_⟩
      rw [show stop + 1 - wave = (stop + 1 - (wave + 1)) + 1 by omega, List.take_succ_cons,
        List.flatten_cons, Shortcut.expand_append]
      exact hv
    rw [verdict_cons] at e
    split at e
    · exact later e
    · split at e
      · split at e <;> cases e
      · next r hr =>
        split at e
        · exact later e
        · next hs =>
          cases e
          refine ⟨Nat.le_refl _, by simp, ?_⟩
          rw [show stop + 1 - stop = 1 by omega]
          simp only [List.take_succ_cons, List.take_zero, List.flatten_cons, List.flatten_nil,
            List.append_nil]
          exact ⟨r, hr, Bool.eq_false_iff.mpr hs⟩

/-- **A search that finds no violation ends with a chain that satisfies the property.** -/
theorem search_satisfied {wave calls : Nat} {waves : List (List (Fin n))} (hne : waves ≠ [])
    (e : verdict k o wave calls x waves = .satisfied) :
    k.Satisfies (x.expand waves.flatten).chain (x.expand waves.flatten).property := by
  induction waves generalizing wave calls x with
  | nil => exact absurd rfl hne
  | cons states rest ih =>
    have later (hrest : rest ≠ []) {calls : Nat}
        (e : verdict k o (wave + 1) calls (x.expand states) rest = .satisfied) :
        k.Satisfies (x.expand (states :: rest).flatten).chain
          (x.expand (states :: rest).flatten).property := by
      rw [List.flatten_cons, Shortcut.expand_append]
      exact ih hrest e
    rw [verdict_cons] at e
    split at e
    · next hgo =>
      refine later ?_ e
      rintro rfl
      simp at hgo
    · split at e
      · split at e <;> cases e
      · next r hr =>
        split at e
        · next hs =>
          by_cases hrest : rest = []
          · subst hrest
            simp only [List.flatten_cons, List.flatten_nil, List.append_nil]
            exact ⟨r, hr, hs⟩
          · exact later hrest e
        · cases e

/-- **A search whose checker answers ends in one of two ways.** -/
theorem search_answered {wave calls : Nat} {waves : List (List (Fin n))}
    (answers : ∀ states, ∃ r, k.check (x.expand states).chain (x.expand states).property = .ok r) :
    verdict k o wave calls x waves = .satisfied ∨
      ∃ stop total, verdict k o wave calls x waves = .violated stop total := by
  induction waves generalizing wave calls x with
  | nil => exact .inl rfl
  | cons states rest ih =>
    have answers' : ∀ more, ∃ r, k.check ((x.expand states).expand more).chain
        ((x.expand states).expand more).property = .ok r := by
      intro more
      rw [← Shortcut.expand_append]
      exact answers (states ++ more)
    rw [verdict_cons]
    split
    · exact ih answers'
    · obtain ⟨r, hr⟩ := answers states
      rw [hr]
      simp only
      split
      · exact ih answers'
      · exact .inr ⟨wave, calls + 1, rfl⟩

variable {w : Waves n h}

theorem exists_of_consult_ok {e : Explanation h} (he : consult oracle o a p = .ok e) :
    ∃ w x, Waves.ofAnnotated a = .ok w ∧ Shortcut.ofMember a.member a.priors p = .ok x := by
  rw [consult_eq] at he
  cases hw : Waves.ofAnnotated a with
  | error error => rw [hw] at he; cases he
  | ok w =>
    rw [hw] at he
    cases hx : Shortcut.ofMember a.member a.priors p with
    | error error => rw [hx] at he; cases he
    | ok x => exact ⟨w, x, rfl, rfl⟩

theorem exists_of_explain_ok {e : Explanation h} (he : explain k o a p = .ok e) :
    ∃ w x, Waves.ofAnnotated a = .ok w ∧ Shortcut.ofMember a.member a.priors p = .ok x :=
  exists_of_consult_ok he

/-- The shortened chain in which the waves up to a given one are expanded. -/
def shortcutAt (a : Annotated α n h) (p : Property α) (wave : Nat) :
    Except (ExplanationError α) (Shortcut α n) :=
  match Waves.ofAnnotated a with
  | .error error => .error (.waves error)
  | .ok w =>
    match Shortcut.ofMember a.member a.priors p with
    | .error error => .error (.shortcut error)
    | .ok x => .ok (x.expand (w.states.take (wave + 1)).flatten)

theorem shortens_of_shortcutAt {wave : Nat} (hx : shortcutAt a p wave = .ok x) :
    ∃ target, x.Shortens a.member a.priors p target := by
  unfold shortcutAt at hx
  split at hx
  · cases hx
  · split at hx
    · cases hx
    · next hx' =>
      cases hx
      obtain ⟨target, shortens, -⟩ := Shortcut.shortens_of_ofMember hx'
      exact ⟨target, shortens.expand _⟩

/-- **An explanation that has not been given up on rests on a shortened chain that violates the
property.** -/
theorem violates_of_explain {e : Explanation h} (he : explain k o a p = .ok e)
    (found : e.conservative = false) :
    ∃ x, shortcutAt a p e.stoppingWave = .ok x ∧ k.Violates x.chain x.property := by
  obtain ⟨w, x, hw, hx⟩ := exists_of_explain_ok he
  rw [explain_eq, hw, hx] at he
  simp only at he
  cases hv : verdict k o 0 0 x w.states with
  | violated wave calls =>
    rw [hv] at he
    cases he
    exact ⟨_, by simp only [shortcutAt, hw, hx]; rfl, (search_violated hv).2.2⟩
  | gaveUp calls =>
    rw [hv] at he
    cases he
    cases found
  | satisfied =>
    rw [hv] at he
    cases he
  | failed error =>
    rw [hv] at he
    cases he
  | incomplete size =>
    rw [hv] at he
    cases he

/-- **A search whose checker answers finds an explanation, or the last shortened chain satisfies the
property.** -/
theorem explain_cases (hw : Waves.ofAnnotated a = .ok w) (hne : w.states ≠ [])
    (hx : Shortcut.ofMember a.member a.priors p = .ok x)
    (answers : ∀ states, ∃ r, k.check (x.expand states).chain (x.expand states).property = .ok r) :
    (explain k o a p = .error (.satisfied p) ∧
        k.Satisfies (x.expand w.states.flatten).chain (x.expand w.states.flatten).property) ∨
      ∃ stop calls, explain k o a p = .ok (ofWave w stop calls false) ∧
        k.Violates (x.expand (w.states.take (stop + 1)).flatten).chain
          (x.expand (w.states.take (stop + 1)).flatten).property := by
  have outcome : explain k o a p = conclude w p (verdict k o 0 0 x w.states) := by
    rw [explain_eq, hw, hx]
  rcases @search_answered α n _ k o x 0 0 w.states answers with
    e | ⟨stop, calls, e⟩
  · rw [e] at outcome
    exact .inl ⟨outcome, search_satisfied hne e⟩
  · rw [e] at outcome
    exact .inr ⟨stop, calls, outcome, (search_violated e).2.2⟩

end Explanation

end HoleBlame
