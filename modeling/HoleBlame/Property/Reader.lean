import HoleBlame.Property
import HoleBlame.Decimal.Reader
import HoleBlame.Text.Scan

/-!
# Properties from text

A property is written as in `P<0.5 [F "goal"]`, `P>=0.9 ["safe" U "goal"]` or
`R{"cost"}<=3 [F "done"]`.  Blanks may stand at either end and between the parts; within a path they
are needed on either side of `F`'s label and of `U`.

Reading goes in two steps.  The outer shape (`Property.shape?`) splits the text into the reward model,
the comparison, the threshold and the path, or finds that it is no property at all; then each part is
looked at in turn, and the first that is wrong is reported.
-/

namespace HoleBlame

open Text

/-- Why a text is no property. -/
inductive PropertyError where
  | invalidSyntax (text : String)
  | unsupportedPath (path : String)
  | unsupportedRewardPath (path : String)
  | invalidThreshold (token : String)
deriving DecidableEq

/-- The wording of an error. -/
def PropertyError.message : PropertyError → String
  | .invalidSyntax text =>
    "Cannot parse property '" ++ text
      ++ "', expected for example P<0.5 [F \"target\"] or R\x7b\"cost\"\x7d<=3 [F \"done\"]"
  | .unsupportedPath path =>
    "Unsupported path formula '" ++ path ++ "', expected F \"label\" or \"label\" U \"label\""
  | .unsupportedRewardPath path =>
    "Expected rewards only support eventually formulas, found '" ++ path ++ "'"
  | .invalidThreshold token => "Invalid threshold " ++ token

namespace Property

/-- The parts of a text that has the outer shape of a property. -/
structure Shape where
  /-- The reward model, if the property is about rewards. -/
  model : Option (List Char)
  /-- The comparison. -/
  comparison : Comparison
  /-- The text of the threshold. -/
  threshold : List Char
  /-- The text between the brackets, without blanks at its ends. -/
  path : List Char

/-- A name in quotes, and what follows it.  A name is not empty and contains no quote. -/
def quoted? : List Char → Option (List Char × List Char)
  | '"' :: text =>
    match upTo? '"' text with
    | some (c :: name, rest) => some (c :: name, rest)
    | _ => none
  | _ => none

/-- The kind of property in front of a text: a probability, or the rewards of a model. -/
def kind? : List Char → Option (Option (List Char) × List Char)
  | 'P' :: rest => some (none, rest)
  | 'R' :: '{' :: rest => do
    let (name, rest) ← quoted? (skipBlanks rest)
    match skipBlanks rest with
    | '}' :: rest => some (some name, rest)
    | _ => none
  | _ => none

/-- A threshold ends before the first blank or opening bracket. -/
def isThresholdChar (c : Char) : Bool :=
  !isBlank c && c != '['

/-- The path in brackets that ends a text.  The closing bracket is the last one, with nothing but
blanks behind it; a path has no line feed. -/
def bracketed? : List Char → Option (List Char)
  | '[' :: body =>
    match (dropBlankEnd body).reverse with
    | ']' :: inner =>
      let path := trim inner.reverse
      if '\n' ∈ path then none else some path
    | _ => none
  | _ => none

/-- A comparison whose sign is given, with its threshold and path. -/
def bounded? (model : Option (List Char)) (sign : List Char) (comparison : Comparison)
    (text : List Char) : Option Shape := do
  let rest ← after? sign text
  let rest := skipBlanks rest
  let token := rest.takeWhile isThresholdChar
  if token = [] then none
  else
    let path ← bracketed? (skipBlanks (rest.dropWhile isThresholdChar))
    some ⟨model, comparison, token, path⟩

/-- The outer shape of a property.  The longer signs come first: a sign followed by no threshold
gives way to a shorter one. -/
def shape? (text : List Char) : Option Shape := do
  let (model, rest) ← kind? (skipBlanks text)
  let rest := skipBlanks rest
  bounded? model ['<', '='] .lessEqual rest
    <|> bounded? model ['>', '='] .greaterEqual rest
    <|> bounded? model ['<'] .less rest
    <|> bounded? model ['>'] .greater rest

/-- The target of a path that asks for it to be reached eventually. -/
def eventually? : List Char → Option (List Char)
  | 'F' :: rest => do
    let rest ← afterBlanks? rest
    match quoted? rest with
    | some (target, []) => some target
    | _ => none
  | _ => none

/-- The constraint and the target of a path that asks for the target to be reached through the
constraint. -/
def until? (path : List Char) : Option (List Char × List Char) := do
  let (constraint, rest) ← quoted? path
  let rest ← afterBlanks? rest
  match rest with
  | 'U' :: rest =>
    let rest ← afterBlanks? rest
    match quoted? rest with
    | some (target, []) => some (constraint, target)
    | _ => none
  | _ => none

/-- Reads a property.  The threshold must be finite and not negative, and at most one for a
probability. -/
def read (text : String) : Except PropertyError (Property Float) :=
  match shape? text.toList with
  | none => .error (.invalidSyntax text)
  | some shape =>
    let token := String.ofList shape.threshold
    let path := String.ofList shape.path
    match Decimal.readFloat shape.threshold with
    | .error _ => .error (.invalidThreshold token)
    | .ok threshold =>
      let bound : Bound Float := ⟨shape.comparison, threshold⟩
      if !threshold.isFinite || threshold < 0 then .error (.invalidThreshold token)
      else
        match shape.model with
        | some model =>
          match eventually? shape.path with
          | some target => .ok ⟨.reward (String.ofList model) (String.ofList target), bound⟩
          | none => .error (.unsupportedRewardPath path)
        | none =>
          if 1 < threshold then .error (.invalidThreshold token)
          else
            match eventually? shape.path, until? shape.path with
            | some target, _ => .ok ⟨.probability none (String.ofList target), bound⟩
            | none, some (constraint, target) =>
              .ok ⟨.probability (some (String.ofList constraint)) (String.ofList target), bound⟩
            | none, none => .error (.unsupportedPath path)

end Property

end HoleBlame
