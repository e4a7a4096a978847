/-
Module: Mimi.Flow.Faulting
Purpose: Values of flow states, and the bodies of transitions that return a record literal as
  functions on them.
Trusted boundary: an application of a name is the variant of that name, but for `map_new`; the later
  of two fields of one name counts
-/
import Mimi.Flow.Matrix

namespace Mimi.Flow

open Mimi.Ast

/-- Values of payload fields. -/
inductive Value where
  | int (value : Int)
  | float (bits : UInt64)
  | bool (value : Bool)
  | string (value : String)
  | unit
  | variant_ (n : String) (args : List Value)
  | tuple (items : List Value)
  | list (items : List Value)
  | set (items : List Value)
  | emptyMap
  | record (ty : String) (fields : List (String × Value))

def evalLit : Lit → Option Value
  | .int value => some (.int value)
  | .float bits => some (.float bits)
  | .bool value => some (.bool value)
  | .string value => some (.string value)
  | .unit => some .unit
  | .fString _ => none

/-- The value of an application of a name. -/
def applyName (n : String) (args : List Value) : Value :=
  if n = "map_new" then .emptyMap else .variant_ n args

mutual

/-- The value of an expression of an injected body, where `self` has the fields. -/
def eval (self : String → Option Value) : Expr → Option Value
  | .located _ e => eval self e
  | .literal value => evalLit value
  | .ident n => some (.variant_ n [])
  | .field target n =>
      match target.unlocated with
      | .ident name => if name = "self" then self n else none
      | _ => none
  | .call callee args =>
      match callee.unlocated with
      | .ident n => (evalAll self args).map (applyName n)
      | _ => none
  | .tuple items => (evalAll self items).map .tuple
  | .list items => (evalAll self items).map .list
  | .setLiteral items => (evalAll self items).map .set
  | .record (some n) fields none => (evalFields self fields).map (.record n)
  | _ => none

def evalAll (self : String → Option Value) : List Expr → Option (List Value)
  | [] => some []
  | e :: es => (eval self e).bind fun value => (evalAll self es).map (value :: ·)

def evalFields (self : String → Option Value) : List RecordFieldExpr → Option (List (String × Value))
  | [] => some []
  | ⟨_, name, e⟩ :: fields =>
      (eval self e).bind fun value => (evalFields self fields).map ((name, value) :: ·)

end

/-- A state and the values of its fields. -/
structure StateValue where
  name : String
  payload : String → Option Value

/-- The last of the fields of a name. -/
def lastOf {α : Type} (nameOf : α → String) (fields : List α) (name : String) : Option α :=
  fields.reverse.find? fun f => nameOf f == name

/-- The state that a literal constructs. -/
def construct (name : String) (values : List (String × Value)) : StateValue where
  name := name
  payload := fun n => (lastOf Prod.fst values n).map Prod.snd

/-- A body that returns a record literal. -/
def runBody (self : String → Option Value) : Block → Option StateValue
  | [stmt] =>
      match stmt.unlocated with
      | .return_ (some e) =>
          match e.unlocated with
          | .record (some n) fields none => (evalFields self fields).map (construct n)
          | _ => none
      | _ => none
  | _ => none

/-- The flow takes an event in a state. -/
def fire (flow : FlowDef) (event : String) (state : StateValue) : Option StateValue :=
  match flow.transitions.find? fun t => t.name == event && t.from_state == state.name with
  | some t => t.body.bind (runBody state.payload)
  | none => none

/-- The flow takes the same event a number of times. -/
def fires (flow : FlowDef) (event : String) : Nat → StateValue → Option StateValue
  | 0, state => some state
  | n + 1, state => (fire flow event state).bind (fires flow event n)

/-- A declared state with a value for each of its fields. -/
structure Inhabits (flow : FlowDef) (state : StateValue) : Prop where
  declared : state.name ∈ flow.states.map StateDef.name
  fields : ∀ f ∈ fieldsOf flow state.name, (state.payload f.name).isSome = true

end Mimi.Flow
