import BlockDiagram.Command
/-! Arguments: the command that a command line states. Options may stand before and after the path.
-/

namespace BlockDiagram.Command

/-- The arguments of a command read so far. -/
structure Arguments where
  path : Option String := none
  assignments : List String := []
  json : Bool := false
  /-- The next argument is an assignment. -/
  awaitsAssignment : Bool := false
  /-- Options have ended. -/
  pathOnly : Bool := false

namespace Arguments

def isOption (arg : String) : Bool := arg.startsWith "-" && arg ≠ "-"

def addPath? (a : Arguments) (arg : String) : Option Arguments :=
  if a.path.isNone && arg ≠ "" then some { a with path := some arg } else none

def assign (a : Arguments) (arg : String) : Arguments :=
  { a with assignments := a.assignments ++ [arg], awaitsAssignment := false }

/-- Letters behind a single hyphen. An assignment may follow its letter at once or behind an equals
sign. -/
def addLetters? (evaluating : Bool) (a : Arguments) : List Char → Option Arguments
  | [] => some a
  | 'v' :: rest => addLetters? evaluating a rest
  | 's' :: rest =>
    if !evaluating then none
    else match rest with
      | [] => some { a with awaitsAssignment := true }
      | '=' :: value => some (a.assign (String.ofList value))
      | value => some (a.assign (String.ofList value))
  | _ => none

/-- A word behind two hyphens, with the value behind its equals sign. -/
def addWord? (evaluating : Bool) (a : Arguments) (word : String) (value : Option String) :
    Option Arguments :=
  match word, value with
  | "verbose", none => some a
  | "set", some value => if evaluating then some (a.assign value) else none
  | "set", none => if evaluating then some { a with awaitsAssignment := true } else none
  | "json", none => if evaluating && !a.json then some { a with json := true } else none
  | _, _ => none

/-- The text before the first equals sign, and the text behind it if there is one. -/
def splitEquals (cs : List Char) : String × Option String :=
  let name := String.ofList (cs.takeWhile (· ≠ '='))
  match cs.dropWhile (· ≠ '=') with
  | [] => (name, none)
  | _ :: value => (name, some (String.ofList value))

def add? (evaluating : Bool) (a : Arguments) (arg : String) : Option Arguments :=
  if a.pathOnly then a.addPath? arg
  else if a.awaitsAssignment then
    if isOption arg then none else some (a.assign arg)
  else if arg = "--" then some { a with pathOnly := true }
  else if !isOption arg then a.addPath? arg
  else match arg.toList with
    | '-' :: '-' :: word =>
      let (name, value) := splitEquals word
      a.addWord? evaluating name value
    | letters => a.addLetters? evaluating (letters.drop 1)

/-- All arguments behind the name of a command: a path, and nothing left open. -/
def read? (evaluating : Bool) (args : List String) : Option (String × Arguments) := do
  let a ← args.foldlM (add? evaluating) {}
  guard !a.awaitsAssignment
  return (← a.path, a)

end Arguments

/-- An option that asks for more log lines, which are no answer. -/
def isVerbosity (arg : String) : Bool :=
  arg = "--verbose" || (match arg.toList with
    | '-' :: letters => !letters.isEmpty && letters.all (· = 'v')
    | _ => false)

def ofArguments? : List String → Option Command
  | [] => none
  | arg :: rest =>
    if isVerbosity arg then ofArguments? rest
    else
      let simple := fun (make : String → Command) =>
        (Arguments.read? false rest).map fun (path, _) => make path
      match arg with
      | "validate" => simple validate
      | "order" => simple order
      | "describe" => simple describe
      | "eval" =>
        (Arguments.read? true rest).map fun (path, a) => evaluate path a.assignments a.json
      | _ => none

end BlockDiagram.Command
