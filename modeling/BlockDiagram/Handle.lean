/-! Handles: positions in the arenas that hold the parts of a diagram, and fresh names for the parts that
are made up. A fresh name is the first of a numbered family that is not taken. -/

namespace BlockDiagram

/-- The kinds of part that are kept in an arena of their own. -/
inductive Arena where
  | signal | block | breakpoints | table
  deriving DecidableEq, Repr

namespace Arena

def text : Arena → String
  | signal => "signal"
  | block => "block"
  | breakpoints => "breakpoint set"
  | table => "table"

def handleName : Arena → String
  | signal => "SignalId"
  | block => "BlockId"
  | breakpoints => "BreakpointId"
  | table => "TableId"

end Arena

/-- A position in one arena; handles of different arenas do not mix. -/
structure Handle (arena : Arena) where
  index : Nat
  deriving DecidableEq, Repr

abbrev SignalId := Handle .signal
abbrev BlockId := Handle .block
abbrev BreakpointId := Handle .breakpoints
abbrev TableId := Handle .table

namespace Handle

variable {arena : Arena}

def text (h : Handle arena) : String := toString h.index

/-- The text that also tells which arena is meant. -/
def inspect (h : Handle arena) : String := s!"{arena.handleName}({h.index})"

def all (size : Nat) : List (Handle arena) := (List.range size).map Handle.mk

theorem eq_mk {h : Handle arena} {n : Nat} (hn : h.index = n) : h = ⟨n⟩ := by
  cases h
  cases hn
  rfl

@[simp] theorem mem_all {size : Nat} {h : Handle arena} : h ∈ all size ↔ h.index < size := by
  cases h; simp [all]

@[simp] theorem length_all (size : Nat) : (all size : List (Handle arena)).length = size := by
  simp [all]

end Handle

/-- The number of evaluation cycles a model has started. -/
structure Epoch where
  cycles : Nat
  deriving DecidableEq, Repr

namespace Epoch

/-- The epoch before any cycle. -/
def zero : Epoch := ⟨0⟩

def advance (e : Epoch) : Epoch := ⟨e.cycles + 1⟩

def text (e : Epoch) : String := s!"#{e.cycles}"

end Epoch

/-- The least number from `start` on whose name is not taken. A taken name is struck off the list
once it has been met, so the list bounds the search; numbers of one family never share a name. -/
def firstFree (name : Nat → String) (taken : List String) (start : Nat) : Nat :=
  if h : name start ∈ taken then firstFree name (taken.erase (name start)) (start + 1) else start
termination_by taken.length
decreasing_by
  have := List.length_pos_of_mem h
  rw [List.length_erase_of_mem h]; omega

/-- `base` if it is free, otherwise the first free `base_<n>` with `n` from one. -/
def freshName (taken : List String) (base : String) : String :=
  if base ∈ taken then
    let numbered := fun n : Nat => s!"{base}_{n}"
    numbered (firstFree numbered taken 1)
  else base

end BlockDiagram
