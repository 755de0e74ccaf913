import FormulaLang.Evaluation.Error
import FormulaLang.Table

/-!
# FormulaLang.Evaluation.State

What a program runs against. A host function takes a fixed number of arguments; its answer may
depend on the host's own state, of a type `σ` that programs know nothing about, and may change it.
The state of a run holds the variables, the number of counted loops that are running, the host's
state, and every call of a host function, the latest first.
-/

namespace FormulaLang

structure HostFunction (σ : Type) where
  arity : Nat
  call : σ → List Float → Float × σ

/-- The host functions by name. Unlike builtin names, these are matched as they are spelt. -/
abbrev Registry (σ : Type) := Table (HostFunction σ)

structure HostCall where
  name : String
  arguments : List Float
  deriving DecidableEq

structure State (σ : Type) where
  «variables» : Table Float
  depth : Nat
  host : σ
  calls : List HostCall

namespace State

variable {σ : Type}

/-- The state in which no loop is running and no host function has been called. -/
def start (bound : Table Float) (host : σ) : State σ := ⟨bound, 0, host, []⟩

def get? (s : State σ) (name : String) : Option Float := s.variables.get? name

def set (s : State σ) (name : String) (value : Float) : State σ :=
  { s with «variables» := s.variables.insert name value }

def enter (s : State σ) : State σ := { s with depth := s.depth + 1 }

def leave (s : State σ) : State σ := { s with depth := s.depth - 1 }

end State

end FormulaLang
