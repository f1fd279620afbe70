import HoleBlame.Chain.Draft

/-!
# Random numbers

Random chains are drawn with numbers from outside: all that they need is a source that can be asked for a
number of a range, for a biased coin, and for a few of many things, and any source will do.  What stands for
the source is a generator with a state of 64 bits (SplitMix64), with these three questions on top of it
(`Draw.below`, `Draw.coin`, `Draw.some`).  It is spelled out so that a seed is enough to draw a chain again;
what is known of random chains is known for every seed (`Draft.satisfiesM_draw`).

What is drawn in which order is part of what a random chain is: the successors of a state and their weights, whether
it is a target, and its reward.
-/

namespace HoleBlame

/-- A generator of random numbers. -/
structure Generator where
  /-- The state, which starts as the seed. -/
  state : UInt64

/-- A random value. -/
abbrev Draw (β : Type) : Type :=
  StateM Generator β

namespace Draw

/-- Scrambles the state of a generator. -/
def mix (state : UInt64) : UInt64 :=
  let z := (state ^^^ (state >>> 30)) * 0xBF58476D1CE4E5B9
  let z := (z ^^^ (z >>> 27)) * 0x94D049BB133111EB
  z ^^^ (z >>> 31)

/-- A word of 64 bits. -/
def word : Draw UInt64 := do
  let state := (← get).state + 0x9E3779B97F4A7C15
  set (Generator.mk state)
  return mix state

/-- The number of values of half a word, `2 ^ 32`. -/
def halfRange : Nat :=
  4294967296

/-- A number below `halfRange`. -/
def half : Draw Nat := do
  return ((← word) >>> 32).toNat

/-- A number below the given one, which is at most `halfRange`.  The number is the whole part of a
fraction of the range; where a further draw could carry into it, that draw is made. -/
def below (range : Nat) : Draw Nat := do
  let scaled := (← half) * range
  let whole := scaled / halfRange
  let rest := scaled % halfRange
  if halfRange - range < rest then
    let carry := (← half) * range / halfRange
    return if halfRange ≤ rest + carry then whole + 1 else whole
  else return whole

/-- A number between two others, which may be drawn as well. -/
def between (least most : Nat) : Draw Nat := do
  return least + (← below (most - least + 1))

/-- A coin that shows heads with the given probability. -/
def coin (p : Float) : Draw Bool := do
  return (← word) < (p * 18446744073709551616.0).toUInt64

/-- Repeats a draw. -/
def times {β : Type} : Nat → Draw β → Draw (List β)
  | 0, _ => return []
  | k + 1, draw => do
    let first ← draw
    let rest ← times k draw
    return first :: rest

/-- Draws further indices below the bounds `first`, `first + 1`, and so on, all different: an index
that has been drawn before gives way to the largest one that is possible now. -/
def indices : Nat → Nat → List Nat → Draw (List Nat)
  | 0, _, drawn => return drawn
  | k + 1, first, drawn => do
    let t ← between 0 first
    indices k (first + 1) (drawn.map (fun i => if i = t then first else i) ++ [t])

/-- Some of the indices below a number, each at most once. -/
def some (count most : Nat) : Draw (List Nat) :=
  let count := min count most
  indices count (most - count) []

/-- The successors of a state of a random chain with `n` states, with their probabilities: up to
`outdegree` of them, whose weights are small whole numbers. -/
def successors (n outdegree : Nat) : Draw (List (Nat × Float)) := do
  let weighted ← times (← between 1 outdegree) do
    let target ← below n
    let weight ← between 1 4
    return (target, weight)
  let total := weighted.foldl (fun total w => total + w.2) 0
  return weighted.map fun (target, weight) => (target, weight.toFloat / total.toFloat)

/-- A small reward. -/
def reward : Draw Float := do
  return (← below 3).toFloat

end Draw

/-- The label of the targets in random chains. -/
def randomTarget : String := "target"

/-- The reward model of random chains. -/
def randomModel : String := "cost"

namespace Draft

/-- States the facts about one state of a random chain. -/
def drawState (d : Draft) (n outdegree s : Nat) : Draw Draft := do
  let successors ← Draw.successors n outdegree
  let d := successors.foldl (fun d (target, prob) => d.state (.transition s prob target)) d
  let isTarget ← Draw.coin 0.25
  let d := if isTarget then d.state (.labelled s randomTarget) else d
  return d.state (.reward randomModel s (← Draw.reward))

/-- The facts about a random chain with `n` states, each of which has at most `outdegree` successors.
About a quarter of the states are targets. -/
def draw (n outdegree : Nat) : Draw Draft := do
  let d ← (List.range n).foldlM (fun d s => d.drawState n outdegree s) (Draft.ofSize n)
  return d.state (.named randomTarget)

end Draft

end HoleBlame
