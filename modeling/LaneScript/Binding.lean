/-
  LaneScript.Binding — the host's table of callables.

  Callables are bound by function number, each with a name and its operand counts. A
  published table does not change any more; `check` asks whether it can serve every
  call of a loaded image, and `call` runs one callable on lanes of equal width.
-/
import LaneScript.Image.Load
import LaneScript.Stream
import LaneScript.Text.Quoted

namespace LaneScript

/-- The values of one register, one a lane. -/
abbrev Lane := List UInt32

inductive CallError where
  | arity (expected got : Nat)
  /-- The width of the first lane and the first other width. -/
  | width (first other : Nat)
  | runtime (message : String)
  | notFound (function : UInt16)
  | notAvailable (message : String)
  deriving DecidableEq, Repr

def CallError.message : CallError → String
  | .arity expected got => "arity mismatch: expected " ++ toString expected ++ ", got " ++ toString got
  | .width first other =>
    "type error: expected lanes of equal width, got widths " ++ toString first ++ " and " ++ toString other
  | .runtime message => "runtime error: " ++ message
  | .notFound function => "external function '#" ++ toString function.toNat ++ "' not found"
  | .notAvailable message => "external function not available: " ++ message

/-- A callable with its shape; it is given its sources and the lanes to fill. -/
structure Binding where
  name : String
  sources : UInt16
  dests : UInt16
  run : (sources dests : List Lane) → Except CallError (List Lane)

def Binding.invoke (b : Binding) (sources dests : List Lane) : Except CallError (List Lane) :=
  if sources.length ≠ b.sources.toNat then .error (.arity b.sources.toNat sources.length)
  else if dests.length ≠ b.dests.toNat then .error (.arity b.dests.toNat dests.length)
  else
    match (sources ++ dests).map List.length with
    | [] => b.run sources dests
    | first :: rest =>
      match rest.find? (· ≠ first) with
      | some other => .error (.width first other)
      | none => b.run sources dests

structure Registry where
  slots : Array (Option Binding) := #[]

namespace Registry

/-- Binds a callable, in place of any before it. -/
def bind (r : Registry) (function : UInt16) (b : Binding) : Registry :=
  let slots := r.slots ++ Array.replicate (function.toNat + 1 - r.slots.size) none
  ⟨slots.setIfInBounds function.toNat (some b)⟩

def find? (r : Registry) (function : UInt16) : Option Binding := r.slots.getD function.toNat none

def contains (r : Registry) (function : UInt16) : Bool := (r.find? function).isSome

def unbind (r : Registry) (function : UInt16) : Registry := ⟨r.slots.setIfInBounds function.toNat none⟩

def bindings (r : Registry) : List Binding := r.slots.toList.filterMap id

def size (r : Registry) : Nat := r.bindings.length

def names (r : Registry) : List String := r.bindings.map Binding.name

def describe (r : Registry) : String :=
  "ExternalRegistry \x7b function_count: " ++ toString r.size ++ ", names: [" ++
    ", ".intercalate (r.names.map Text.quoted) ++ "] \x7d"

end Registry

structure Published where
  registry : Registry

namespace Published

def slots (t : Published) : Nat := t.registry.slots.size

def call (t : Published) (function : UInt16) (sources dests : List Lane) : Except CallError (List Lane) :=
  match t.registry.find? function with
  | none => .error (.notFound function)
  | some b => b.invoke sources dests

/-- Whether the function of a call is bound with the call's operand counts. -/
def serves (t : Published) (i : Instruction) : Bool :=
  match i.payload with
  | .call f =>
    match t.registry.find? f with
    | some b => b.sources.toNat == i.sources.length && b.dests.toNat == i.dests.length
    | none => false
  | _ => true

def check (t : Published) (m : Loaded) : Except Fault Unit :=
  match Stream.decode m.code m.header.functions.toNat with
  | .error e => .error e.fault
  | .ok d =>
    if (d.items.flatMap Stream.Item.instructions).all t.serves then .ok ()
    else .error (.fatal .externalFunction)

def describe (t : Published) : String := "PublishedExternals \x7b slots: " ++ toString t.slots ++ " \x7d"

end Published

end LaneScript
