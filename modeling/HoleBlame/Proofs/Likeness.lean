import HoleBlame.Proofs.Chances

/-!
# Chains that look alike where they are known

Of a chain that is only partly known, some states have made-up transitions.  `Likeness` relates the states
of such a chain to the states of a true one: related states are labelled alike, and from a known state
both chains move to related states.  Two chains that are related need not have the same number of
states, and a state of the one may be related to many of the other.

What can be concluded depends on the side on which the unknown states err:

* if they never reach the target (`Likeness.Low`), a positive chance is truly positive and a sure one
  truly sure;
* if they surely reach it (`Likeness.High`), a chance that is not positive is truly not, and one that
  is not sure is truly not.

Either way a bound that fails in the partly known chain fails in the true one, provided it is an upper
bound in the first case and a lower bound in the second (`Likeness.violated`).  Where all states
are known, both cases apply and the chances agree (`Likeness.chance_eq`).
-/

namespace HoleBlame

variable {α : Type} {n n' : Nat}

/-- States of two chains that are labelled alike and, where the first chain is known, move alike. -/
structure Likeness (c : Chain α n) (c' : Chain α n') (g : Goal n) (g' : Goal n')
    (known : Fin n → Prop) (related : Fin n → Fin n' → Prop) : Prop where
  target : ∀ {s s'}, related s s' → (g.target s ↔ g'.target s')
  allowed : ∀ {s s'}, related s s' → (g.allowed s ↔ g'.allowed s')
  forth : ∀ {s s'}, related s s' → known s → ∀ t ∈ c.successors s,
    ∃ t' ∈ c'.successors s', related t t'
  back : ∀ {s s'}, related s s' → known s → ∀ t' ∈ c'.successors s',
    ∃ t ∈ c.successors s, related t t'

namespace Likeness

variable {c : Chain α n} {c' : Chain α n'} {g : Goal n} {g' : Goal n'} {known : Fin n → Prop}
  {related : Fin n → Fin n' → Prop} {s : Fin n} {s' : Fin n'}

/-- Every chain looks like itself. -/
theorem refl (known : Fin n → Prop) : Likeness c c g g known Eq where
  target := by
    rintro s _ rfl
    rfl
  allowed := by
    rintro s _ rfl
    rfl
  forth := by
    rintro s _ rfl - t ht
    exact ⟨t, ht, rfl⟩
  back := by
    rintro s _ rfl - t ht
    exact ⟨t, ht, rfl⟩

/-- Unknown states never reach the target, unless they are targets themselves. -/
def Low (c : Chain α n) (g : Goal n) (known : Fin n → Prop) (related : Fin n → Fin n' → Prop) :
    Prop :=
  ∀ {s s'}, related s s' → ¬ known s → ¬ g.target s → ¬ c.Positive g s

/-- Unknown states surely reach the target, if they are allowed. -/
def High (c : Chain α n) (g : Goal n) (known : Fin n → Prop) (related : Fin n → Fin n' → Prop) :
    Prop :=
  ∀ {s s'}, related s s' → ¬ known s → ¬ g.target s → g.allowed s → c.Sure g s

/-! ## Unknown states err low -/

section Low

/-- A state with a positive chance that is no target is known. -/
theorem Low.known_of_positive (low : Low c g known related) (hr : related s s')
    (hp : c.Positive g s) (hs : ¬ g.target s) : known s := by
  by_contra hk
  exact low hr hk hs hp

variable (like : Likeness c c' g g' known related) (low : Low c g known related)
include like low

theorem positive_of_low (hr : related s s') (hp : c.Positive g s) : c'.Positive g' s' := by
  obtain ⟨t, ht, path⟩ := hp
  -- Along the path, every state before the target is known, so the other chain can follow.
  refine path.headInduction (motive := fun x => ∀ {x'}, related x x' → c'.Positive g' x') ?_ ?_ hr
  · intro t' hr
    exact .of_target ((like.target hr).mp ht)
  · intro x y hx hy rest ih x' hr
    by_cases hxt : g.target x
    · exact .of_target ((like.target hr).mp hxt)
    · have hp : c.Positive g x := ⟨t, ht, rest.head hx hy⟩
      have hk := Low.known_of_positive low hr hp hxt
      obtain ⟨y', hy', hr'⟩ := like.forth hr hk y hy
      exact .of_successor ((like.allowed hr).mp hx) hy' (ih hr')

theorem sure_of_low (hr : related s s') (hs : c.Sure g s) : c'.Sure g' s' := by
  intro t' path
  -- The invariant along the path in the true chain: some sure state of the other one is related.
  have ⟨t, hrt, ht⟩ : ∃ t, related t t' ∧ c.Sure g t := by
    refine path.tailInduction (motive := fun x' => ∃ x, related x x' ∧ c.Sure g x)
      ⟨s, hr, hs⟩ ?_
    rintro x' y' - ⟨-, hx'⟩ hy' ⟨x, hrx, hx⟩
    have hxt : ¬ g.target x := fun h => hx' ((like.target hrx).mp h)
    have hk := Low.known_of_positive low hrx hx.positive hxt
    obtain ⟨y, hy, hry⟩ := like.back hrx hk y' hy'
    exact ⟨y, hry, hx.successor hxt hy⟩
  exact like.positive_of_low low hrt ht.positive

end Low

/-! ## Unknown states err high -/

section High

variable (like : Likeness c c' g g' known related) (high : High c g known related)
include like high

theorem positive_of_high (hr : related s s') (hp : c'.Positive g' s') : c.Positive g s := by
  obtain ⟨t', ht', path⟩ := hp
  refine path.headInduction (motive := fun x' => ∀ {x}, related x x' → c.Positive g x) ?_ ?_ hr
  · intro t hr
    exact .of_target ((like.target hr).mpr ht')
  · intro x' y' hx' hy' _ ih x hr
    have hx := (like.allowed hr).mpr hx'
    by_cases hxt : g.target x
    · exact .of_target hxt
    by_cases hk : known x
    · obtain ⟨y, hy, hr'⟩ := like.back hr hk y' hy'
      exact .of_successor hx hy (ih hr')
    · exact (high hr hk hxt hx).positive

theorem sure_of_high (hr : related s s') (hs : c'.Sure g' s') : c.Sure g s := by
  intro t path
  -- An unknown state on the path is sure, and so is all that comes after it.
  refine path.headInduction
    (motive := fun x => ∀ {x'}, related x x' → c'.Sure g' x' → c.Positive g t) ?_ ?_ hr hs
  · intro t' hr hs
    exact like.positive_of_high high hr hs.positive
  · intro x y hx hy rest ih x' hr hs
    by_cases hk : known x
    · obtain ⟨y', hy', hr'⟩ := like.forth hr hk y hy
      have hxt : ¬ g'.target x' := fun h => hx.2 ((like.target hr).mpr h)
      exact ih hr' (hs.successor hxt hy')
    · exact high hr hk hx.2 hx.1 t (rest.head hx hy)

end High

/-! ## No state is unknown -/

section All

variable (like : Likeness c c' g g' known related) (all : ∀ {s s'}, related s s' → known s)
include like all

theorem positive_iff (hr : related s s') : c.Positive g s ↔ c'.Positive g' s' :=
  ⟨like.positive_of_low (fun hr hk => absurd (all hr) hk) hr,
    like.positive_of_high (fun hr hk => absurd (all hr) hk) hr⟩

theorem sure_iff (hr : related s s') : c.Sure g s ↔ c'.Sure g' s' :=
  ⟨like.sure_of_low (fun hr hk => absurd (all hr) hk) hr,
    like.sure_of_high (fun hr hk => absurd (all hr) hk) hr⟩

/-- **Chains that are known throughout give related states the same chances.** -/
theorem chance_eq [Scalar α] (hr : related s s') : (c.chance g s : α) = c'.chance g' s' := by
  classical
  exact if_congr (like.positive_iff all hr) (if_congr (like.sure_iff all hr) rfl rfl) rfl

end All

/-! ## Bounds -/

variable [Scalar α] [Scalar.Ordered α]

/-- **A bound that fails where unknown states err in its favour fails in the true chain.**  States err
in favour of an upper bound if they never reach the target, and in favour of a lower bound if they
surely do. -/
theorem violated (like : Likeness c c' g g' known related) {b : Bound α}
    (low : b.comparison.isUpper = true → Low c g known related)
    (high : b.comparison.isUpper = false → High c g known related) (hr : related s s')
    (hv : b.holds (c.chance g s) = false) : b.holds (c'.chance g' s') = false := by
  rw [← Bool.not_eq_true] at hv ⊢
  cases hb : b.comparison.isUpper with
  | true =>
    have mono := Chain.holds_chance b (like.positive_of_low (low hb) hr) (like.sure_of_low (low hb) hr)
    exact fun h => hv (mono.1 hb h)
  | false =>
    have mono := Chain.holds_chance b (like.positive_of_high (high hb) hr)
      (like.sure_of_high (high hb) hr)
    exact fun h => hv (mono.2 hb h)

end Likeness

end HoleBlame
