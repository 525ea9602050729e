import SpecEffects.Tree.Basic

/-!
Building trees. A builder gives each node it makes the next id, starting from one, so that a tree
has distinct ids as long as nothing is used twice in it. A script is a list of steps, each of which
makes an item from the items that earlier steps have made.
-/
namespace SpecEffects

structure Builder where
  nextId : UInt64

namespace Builder

def new : Builder := ⟨1⟩

def freshId : StateM Builder NodeId :=
  modifyGet fun builder => (⟨builder.nextId⟩, ⟨builder.nextId + 1⟩)

def literal (value : Literal) : StateM Builder Expr := do
  return .literal (← freshId) value

def ref (name : String) : StateM Builder Expr := do
  return .ref (← freshId) name

def app (operator : String) (args : List Expr) : StateM Builder Expr := do
  return .app (← freshId) operator args

def param (name : String) : StateM Builder Param := do
  return ⟨← freshId, name⟩

/-- The parameters are made before the lambda. -/
def lambda (params : List String) (body : Expr) : StateM Builder Expr := do
  let params ← params.mapM param
  return .lambda (← freshId) params body

def letIn (definition : Definition) (body : Expr) : StateM Builder Expr := do
  return .letIn (← freshId) definition.id definition.name definition.body body

def define (name : String) (body : Expr) : StateM Builder Definition := do
  return ⟨← freshId, name, body⟩

def operator (name : String) (params : List String) (body : Expr) : StateM Builder Definition := do
  define name (← lambda params body)

def stateVariable (name : String) : StateM Builder Declaration := do
  return .stateVariable (← freshId) name

def constant (name : String) : StateM Builder Declaration := do
  return .constant (← freshId) name

def assumption (name : String) (expr : Expr) : StateM Builder Declaration := do
  return .assumption (← freshId) name expr

def specModule (name : String) (declarations : List Declaration) : StateM Builder Module := do
  return ⟨← freshId, name, declarations⟩

end Builder

namespace Script

inductive Item where
  | id (id : NodeId)
  | expr (expr : Expr)
  | definition (definition : Definition)
  | declaration (declaration : Declaration)
  | specModule (specModule : Module)

namespace Item

def expr? : Item → Option Expr
  | .expr e => some e
  | _ => none

def definition? : Item → Option Definition
  | .definition d => some d
  | _ => none

def module? : Item → Option Module
  | .specModule m => some m
  | _ => none

def declaration? : Item → Option Declaration
  | .declaration d => some d
  | .definition d => some (.operator d)
  | .specModule m => some m.toDeclaration
  | _ => none

end Item

/-- What to make next. Items that have been made are referred to by their position. -/
inductive Step where
  | id
  | literal (value : Literal)
  | ref (name : String)
  | app (operator : String) (args : List Nat)
  | lambda (params : List String) (body : Nat)
  | letIn (definition body : Nat)
  | define (name : String) (body : Nat)
  | operator (name : String) (params : List String) (body : Nat)
  | stateVariable (name : String)
  | constant (name : String)
  | assumption (name : String) (expr : Nat)
  | specModule (name : String) (declarations : List Nat)

namespace Step

/-- Looks up what the step refers to; there is none if a reference is to nothing or to an item of
another sort. -/
def build? (items : List Item) : Step → Option (StateM Builder Item) :=
  let expr (i : Nat) := items[i]?.bind Item.expr?
  fun
  | .id => some (.id <$> Builder.freshId)
  | .literal value => some (.expr <$> Builder.literal value)
  | .ref name => some (.expr <$> Builder.ref name)
  | .app name args => do
    let args ← args.mapM expr
    return .expr <$> Builder.app name args
  | .lambda params body => do
    let body ← expr body
    return .expr <$> Builder.lambda params body
  | .letIn definition body => do
    let definition ← items[definition]?.bind Item.definition?
    let body ← expr body
    return .expr <$> Builder.letIn definition body
  | .define name body => do
    let body ← expr body
    return .definition <$> Builder.define name body
  | .operator name params body => do
    let body ← expr body
    return .definition <$> Builder.operator name params body
  | .stateVariable name => some (.declaration <$> Builder.stateVariable name)
  | .constant name => some (.declaration <$> Builder.constant name)
  | .assumption name body => do
    let body ← expr body
    return .declaration <$> Builder.assumption name body
  | .specModule name declarations => do
    let declarations ← declarations.mapM fun i => items[i]?.bind Item.declaration?
    return .specModule <$> Builder.specModule name declarations

end Step

def runFrom (items : List Item) (builder : Builder) : List Step → Option (List Item)
  | [] => some items
  | step :: rest => do
    let build ← step.build? items
    let (item, builder) := build.run builder
    runFrom (items ++ [item]) builder rest

def run (steps : List Step) : Option (List Item) := runFrom [] .new steps

end Script

end SpecEffects
