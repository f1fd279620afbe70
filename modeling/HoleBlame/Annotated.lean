import HoleBlame.HoleTable
import HoleBlame.Member
import HoleBlame.Priors

/-!
# Annotated chains

What an explanation is computed from: a member of a family, the holes behind every choice of the
family, and what is known of the quotient model in advance.
-/

namespace HoleBlame

/-- A member with `n` states of a family with `h` holes, and what is known of the family. -/
structure Annotated (α : Type) (n h : Nat) where
  /-- The member. -/
  member : Member α n
  /-- The holes behind every choice. -/
  table : HoleTable h
  /-- What is known of the quotient model. -/
  priors : Priors α

end HoleBlame
