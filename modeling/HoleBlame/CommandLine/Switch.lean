/-!
# Switches on a command line

A switch has a long name behind two dashes and sometimes a letter behind one.  Letters may be written
in a cluster.  A switch that takes a value finds it behind an equals sign, in the rest of its cluster,
or in the next argument, which must then not look like a switch itself.  All arguments behind a bare
pair of dashes are operands.

`scan` sorts the arguments into switches, settings and operands, or rejects them.
-/

namespace HoleBlame.CommandLine

/-- The switches that are understood. -/
inductive Switch where
  | version
  | quiet
  | verbose
  | timings
  | timingsYaml
  | property
  | batchSize
  | oracleFailure
  | deadline
  | precision
deriving DecidableEq

namespace Switch

/-- The long name of a switch. -/
def long : Switch → String
  | version => "version"
  | quiet => "quiet"
  | verbose => "verbose"
  | timings => "timings"
  | timingsYaml => "timings-yaml"
  | property => "property"
  | batchSize => "batch-size"
  | oracleFailure => "oracle-failure"
  | deadline => "deadline-ms"
  | precision => "precision"

/-- The letter of a switch, if it has one. -/
def letter? : Switch → Option Char
  | quiet => some 'q'
  | verbose => some 'v'
  | property => some 'p'
  | _ => none

/-- The switch takes a value. -/
def takesValue : Switch → Bool
  | version => false
  | quiet => false
  | verbose => false
  | timings => false
  | _ => true

/-- The switch may be given several times. -/
def isRepeatable : Switch → Bool
  | verbose => true
  | _ => false

end Switch

/-- An argument that has been understood. -/
inductive Item where
  /-- A switch without a value. -/
  | switch (key : Switch)
  /-- A switch with its value. -/
  | setting (key : Switch) (value : List Char)
  /-- Anything else. -/
  | operand (text : List Char)
deriving DecidableEq

/-- What an argument is on its own. -/
inductive Piece where
  /-- Everything behind it is an operand. -/
  | separator
  /-- It is an operand. -/
  | operand
  /-- It has these switches and settings, and a last switch may wait for its value. -/
  | switches (items : List Item) (pending : Option Switch)

/-- A switch with the text behind its equals sign. -/
def longItem (key : Switch) : Option (List Char) → Option Piece
  | none => some (if key.takesValue then .switches [] (some key) else .switches [.switch key] none)
  | some value => if key.takesValue then some (.switches [.setting key value] none) else none

/-- Splits a text at the first equals sign. -/
def splitValue : List Char → List Char × Option (List Char)
  | [] => ([], none)
  | '=' :: value => ([], some value)
  | c :: rest =>
    let (name, value) := splitValue rest
    (c :: name, value)

/-- A cluster of letters. -/
def cluster (known : List Switch) : List Char → Option (List Item × Option Switch)
  | [] => some ([], none)
  | c :: rest =>
    match known.find? fun key => key.letter? == some c with
    | none => none
    | some key =>
      if key.takesValue then
        match rest with
        | [] => some ([], some key)
        | '=' :: value => some ([.setting key value], none)
        | value => some ([.setting key value], none)
      else (cluster known rest).map fun (items, pending) => (.switch key :: items, pending)

/-- What an argument is, unless it is a switch that is not known. -/
def piece (known : List Switch) : List Char → Option Piece
  | ['-', '-'] => some .separator
  | '-' :: '-' :: text =>
    let (name, value) := splitValue text
    match known.find? fun key => key.long.toList == name with
    | none => none
    | some key => longItem key value
  | '-' :: c :: rest => (cluster known (c :: rest)).map fun (items, pending) => .switches items pending
  | _ => some .operand

/-- The argument looks like a switch. -/
def looksLikeSwitch : List Char → Bool
  | '-' :: _ :: _ => true
  | _ => false

/-- Sorts arguments, up to the first operand if asked to, and returns the arguments that are left. -/
def scan (known : List Switch) (upToOperand : Bool) :
    List (List Char) → Option (List Item × List (List Char))
  | [] => some ([], [])
  | text :: rest =>
    match piece known text with
    | none => none
    | some .separator => some (rest.map .operand, [])
    | some .operand =>
      if upToOperand then some ([], text :: rest)
      else (scan known upToOperand rest).map fun (items, left) => (.operand text :: items, left)
    | some (.switches items none) =>
      (scan known upToOperand rest).map fun (more, left) => (items ++ more, left)
    | some (.switches items (some key)) =>
      match rest with
      | [] => none
      | value :: rest =>
        if looksLikeSwitch value then none
        else
          (scan known upToOperand rest).map fun (more, left) =>
            (items ++ .setting key value :: more, left)

/-! ## Reading the items -/

/-- How often a switch occurs. -/
def occurrences (key : Switch) (items : List Item) : Nat :=
  items.countP fun item =>
    match item with
    | .switch other => other = key
    | .setting other _ => other = key
    | .operand _ => false

/-- The value of a switch, if it has one. -/
def value? (key : Switch) (items : List Item) : Option (List Char) :=
  items.findSome? fun item =>
    match item with
    | .setting other value => if other = key then some value else none
    | _ => none

/-- The operands. -/
def operands (items : List Item) : List (List Char) :=
  items.filterMap fun item =>
    match item with
    | .operand text => some text
    | _ => none

/-- Only repeatable switches are repeated, and nobody asks for silence and details at once. -/
def isConsistent (known : List Switch) (items : List Item) : Bool :=
  (known.all fun key => key.isRepeatable || occurrences key items ≤ 1)
    && !(0 < occurrences .quiet items && 0 < occurrences .verbose items)

end HoleBlame.CommandLine
