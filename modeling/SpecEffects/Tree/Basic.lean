/-!
Specification modules as trees. A module declares state variables, constants, operators, assumptions
and modules of its own. Every module, declaration, expression and parameter has an id, by which what
is found out about it is recorded.
-/
namespace SpecEffects

structure NodeId where
  val : UInt64
  deriving DecidableEq

namespace NodeId

instance : Ord NodeId := ⟨fun a b => compare a.val b.val⟩

instance : Std.TransOrd NodeId where
  eq_swap {a b} :=
    show compare a.val b.val = (compare b.val a.val).swap from Std.OrientedOrd.eq_swap
  isLE_trans {a b c} ab bc :=
    show (compare a.val c.val).isLE from
      Std.TransOrd.isLE_trans (show (compare a.val b.val).isLE from ab)
        (show (compare b.val c.val).isLE from bc)

instance : Std.LawfulEqOrd NodeId where
  compare_self {a} := show compare a.val a.val = .eq from Std.ReflOrd.compare_self
  eq_of_compare {a b} h := by
    cases a
    cases b
    exact congrArg NodeId.mk (Std.LawfulEqOrd.eq_of_compare h)

def text (id : NodeId) : String := "#" ++ toString id.val.toNat

end NodeId

inductive Literal where
  | bool (value : Bool)
  | int (value : Int64)
  | str (value : String)
  deriving DecidableEq

structure Param where
  id : NodeId
  name : String
  deriving DecidableEq

inductive Expr where
  | literal (id : NodeId) (value : Literal)
  | ref (id : NodeId) (name : String)
  | app (id : NodeId) (operator : String) (args : List Expr)
  | lambda (id : NodeId) (params : List Param) (body : Expr)
  /-- Defines `name` to be `bound` inside `body`; the definition has an id of its own. -/
  | letIn (id defId : NodeId) (name : String) (bound body : Expr)

namespace Expr

def id : Expr → NodeId
  | .literal id _ => id
  | .ref id _ => id
  | .app id _ _ => id
  | .lambda id _ _ => id
  | .letIn id _ _ _ _ => id

end Expr

structure Definition where
  id : NodeId
  name : String
  body : Expr

inductive Declaration where
  | stateVariable (id : NodeId) (name : String)
  | constant (id : NodeId) (name : String)
  | operator (definition : Definition)
  | assumption (id : NodeId) (name : String) (expr : Expr)
  | submodule (id : NodeId) (name : String) (declarations : List Declaration)

namespace Declaration

def id : Declaration → NodeId
  | .stateVariable id _ => id
  | .constant id _ => id
  | .operator definition => definition.id
  | .assumption id _ _ => id
  | .submodule id _ _ => id

end Declaration

structure Module where
  id : NodeId
  name : String
  declarations : List Declaration

namespace Module

def toDeclaration (m : Module) : Declaration := .submodule m.id m.name m.declarations

end Module

end SpecEffects
