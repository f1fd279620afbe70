import HoleBlame.Drn.Reader

/-!
# The text of a chain

`Drn.write` writes a chain in the DRN format: the header, then state by state its reward, its labels
and its transitions.  The initial state is marked by the label `init`, which is added if the state
does not carry it.
-/

namespace HoleBlame.Drn

variable {n : Nat}

/-- The line of a state. -/
def stateText (c : Chain Float n) (s : Fin n) : String :=
  let reward := match c.reward with
    | some model => " [" ++ numberText (model.rewards.get s) ++ "]"
    | none => ""
  let labels := c.labelling.labelsOf s
  let labels := if s = c.initial ∧ initLabel ∉ labels then initLabel :: labels else labels
  "state " ++ toString s.val ++ reward ++ String.join (labels.map (" " ++ ·)) ++ "\n"

/-- The line of a transition. -/
def edgeText (e : Edge Float n) : String :=
  "\t\t" ++ toString e.next.val ++ " : " ++ numberText e.prob ++ "\n"

/-- The lines of a state with its only action. -/
def blockText (c : Chain Float n) (s : Fin n) : String :=
  stateText c s ++ "\taction 0\n" ++ String.join ((c.row s).map edgeText)

/-- The header of a chain. -/
def headerText (c : Chain Float n) : String :=
  let models := match c.reward with
    | some model => "@reward_models\n" ++ model.name ++ "\n"
    | none => ""
  "@type: DTMC\n" ++ models ++ "@nr_states\n" ++ toString n ++ "\n@model\n"

/-- The text of a chain. -/
def write (c : Chain Float n) : String :=
  headerText c ++ String.join ((List.finRange n).map (blockText c))

end HoleBlame.Drn
