import BlockDiagram.Text.Invisible
/-! Inspections: values written out by name and parts, for a reader who looks for a fault. -/

namespace BlockDiagram

inductive Inspection where
  | natural (n : Nat)
  | text (s : String)
  /-- A value that is written as it stands. -/
  | plain (s : String)
  | list (items : List Inspection)
  | call (name : String) (arguments : List Inspection)
  | record (name : String) (fields : List (String × Inspection))

namespace Inspection

/-- A character inside quotes; an invisible one is given by its number. -/
def escape (c : Char) : List Char :=
  match c with
  | '\x00' => ['\\', '0']
  | '\t' => ['\\', 't']
  | '\n' => ['\\', 'n']
  | '\r' => ['\\', 'r']
  | '"' => ['\\', '"']
  | '\\' => ['\\', '\\']
  | c =>
    if Text.isInvisible c then ['\\', 'u', '\x7b'] ++ Nat.toDigits 16 c.toNat ++ ['\x7d'] else [c]

def quote (s : String) : String := String.ofList ('"' :: s.toList.flatMap escape ++ ['"'])

mutual

def render : Inspection → String
  | natural n => toString n
  | text s => quote s
  | plain s => s
  | list items => "[" ++ ", ".intercalate (renderAll items) ++ "]"
  | call name arguments => name ++ "(" ++ ", ".intercalate (renderAll arguments) ++ ")"
  | record name fields => name ++ " \x7b " ++ ", ".intercalate (renderFields fields) ++ " \x7d"

def renderAll : List Inspection → List String
  | [] => []
  | x :: rest => render x :: renderAll rest

def renderFields : List (String × Inspection) → List String
  | [] => []
  | (name, x) :: rest => (name ++ ": " ++ render x) :: renderFields rest

end

end Inspection

end BlockDiagram
