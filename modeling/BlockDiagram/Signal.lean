import BlockDiagram.Handle
import BlockDiagram.Scalar
/-! Signals: named wires from one producing block to any number of consuming slots. -/

namespace BlockDiagram

/-- One end of a wire. -/
structure Endpoint where
  block : BlockId
  slot : Nat
  deriving DecidableEq, Repr

/-- Roles a signal can be declared with, in the order reports list them. -/
inductive Role where
  | input | output | control | disturbance | state | stateDeriv
  /-- Made by the library, not declared. -/
  | derived
  deriving DecidableEq, Repr

namespace Role

def all : List Role := [input, output, control, disturbance, state, stateDeriv, derived]

def text : Role → String
  | input => "input"
  | output => "output"
  | control => "control"
  | disturbance => "disturbance"
  | state => "state"
  | stateDeriv => "state_deriv"
  | derived => "derived"

end Role

/-- The roles a declaration can give a signal. -/
structure DeclaredRoles where
  input : Bool := false
  output : Bool := false
  control : Bool := false
  disturbance : Bool := false
  state : Bool := false
  stateDeriv : Bool := false
  deriving DecidableEq, Repr

/-- All roles of a signal. -/
structure Roles extends DeclaredRoles where
  derived : Bool := false
  deriving DecidableEq, Repr

namespace Roles

def has (r : Roles) : Role → Bool
  | .input => r.input
  | .output => r.output
  | .control => r.control
  | .disturbance => r.disturbance
  | .state => r.state
  | .stateDeriv => r.stateDeriv
  | .derived => r.derived

def insert (r : Roles) : Role → Roles
  | .input => { r with input := true }
  | .output => { r with output := true }
  | .control => { r with control := true }
  | .disturbance => { r with disturbance := true }
  | .state => { r with state := true }
  | .stateDeriv => { r with stateDeriv := true }
  | .derived => { r with derived := true }

def toList (r : Roles) : List Role := Role.all.filter r.has

/-- The caller drives the signal from outside. -/
def isExternal (r : Roles) : Bool := r.input || r.control || r.disturbance

end Roles

/-- A wire that carries one scalar. Its variable ID tells it apart; the display name need not. -/
structure Signal (α : Type) where
  varId : String
  name : String
  units : String
  lower : α
  upper : α
  roles : Roles := {}
  initial : Option α := none
  /-- One of the two halves a limiter has been spliced between. -/
  limited : Bool := false
  source : Option Endpoint := none
  sinks : List Endpoint := []

namespace Signal

variable {α : Type}

section

variable [Scalar α]

def declare (varId name units : String) : Signal α :=
  { varId, name, units, lower := Scalar.bottom, upper := Scalar.top }

/-- A signal of the library's own making, named by its variable ID. -/
def derive (varId : String) : Signal α :=
  { declare varId varId "" with roles := { derived := true } }

/-- A missing limit leaves that side unbounded. -/
def withLimits (s : Signal α) (lower upper : Option α) : Signal α :=
  { s with lower := lower.getD Scalar.bottom, upper := upper.getD Scalar.top }

/-- At least one limit is finite and no limiter is in place yet. -/
def needsLimiter (s : Signal α) : Bool :=
  !s.limited && (Arithmetic.isFinite s.lower || Arithmetic.isFinite s.upper)

end

def withRoles (s : Signal α) (roles : Roles) : Signal α := { s with roles }

def withInitial (s : Signal α) (value : α) : Signal α := { s with initial := some value }

def withRole (s : Signal α) (role : Role) : Signal α := { s with roles := s.roles.insert role }

def unwired (s : Signal α) : Signal α := { s with source := none, sinks := [] }

/-- The key is the variable ID or the display name. -/
def answersTo (s : Signal α) (key : String) : Bool := s.varId == key || s.name == key

end Signal

/-- What a caller sees of a signal at one end of a model. -/
structure Record (α : Type) where
  name : String
  varId : String
  units : String
  value : α
  lower : α
  upper : α

namespace Record

variable {α : Type}

/-- The key is the variable ID or the display name. -/
def answersTo (r : Record α) (key : String) : Bool := r.name == key || r.varId == key

end Record

end BlockDiagram
