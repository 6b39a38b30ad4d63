import BlockDiagram.Json.Token
/-! Reading JSON: the node of a text that holds exactly one value. -/

namespace BlockDiagram.Json

/-- Tokens left after at least one has been read. -/
abbrev Shorter (ts : List Token) := { rest : List Token // rest.length < ts.length }

mutual

def value? (ts : List Token) : Option (Node × Shorter ts) :=
  match ts with
  | .leaf l :: rest => some (.leaf l, ⟨rest, by simp only [List.length_cons]; omega⟩)
  | .string s :: rest =>
    some (.leaf (s.elim .unreadable .ofText), ⟨rest, by simp only [List.length_cons]; omega⟩)
  | .openList :: .closeList :: rest =>
    some (.list [], ⟨rest, by simp only [List.length_cons]; omega⟩)
  | .openList :: rest => do
    let (items, ⟨rest, h⟩) ← items? rest
    return (.list items, ⟨rest, by simp only [List.length_cons]; omega⟩)
  | .openMap :: .closeMap :: rest => some (.map [], ⟨rest, by simp only [List.length_cons]; omega⟩)
  | .openMap :: rest => do
    let (entries, ⟨rest, h⟩) ← entries? rest
    return (.map entries, ⟨rest, by simp only [List.length_cons]; omega⟩)
  | _ => none
termination_by (ts.length, 0)

/-- Reads the items of a list up to its end; there is at least one. -/
def items? (ts : List Token) : Option (List Node × Shorter ts) := do
  let (item, ⟨rest, h⟩) ← value? ts
  match rest, h with
  | .comma :: rest, h =>
    let (items, ⟨rest, h'⟩) ← items? rest
    return (item :: items, ⟨rest, by simp only [List.length_cons] at h; omega⟩)
  | .closeList :: rest, h => some ([item], ⟨rest, by simp only [List.length_cons] at h; omega⟩)
  | _, _ => none
termination_by (ts.length, 1)
decreasing_by
  · exact Prod.Lex.right _ (by decide)
  · simp only [List.length_cons] at h ⊢; omega

/-- Reads the entries of a map up to its end; there is at least one. -/
def entries? (ts : List Token) : Option (List (Node × Node) × Shorter ts) :=
  match ts with
  | .string s :: .colon :: rest => do
    let key : Node := .leaf (s.elim .unreadable .ofText)
    let (value, ⟨rest, h⟩) ← value? rest
    match rest, h with
    | .comma :: rest, h =>
      let (entries, ⟨rest, h'⟩) ← entries? rest
      return ((key, value) :: entries, ⟨rest, by simp only [List.length_cons] at h ⊢; omega⟩)
    | .closeMap :: rest, h =>
      some ([(key, value)], ⟨rest, by simp only [List.length_cons] at h ⊢; omega⟩)
    | _, _ => none
  | _ => none
termination_by (ts.length, 1)
decreasing_by
  · simp only [List.length_cons]; omega
  · simp only [List.length_cons] at h ⊢; omega

end

def read? (text : String) : Option Node := do
  let (n, ⟨rest, _⟩) ← value? (← tokens? text.toList)
  if rest.isEmpty then some n else none

end BlockDiagram.Json
