import SpecEffects.Inference.State
import SpecEffects.Scope.Names
import SpecEffects.Signature.Basic

/-!
Inference of effects. A module is gone through once, depth first and from left to right. Parts come
before the whole, and what is learned at one place is known at all later ones. A node for which
something goes wrong gets an error, a node that depends on it gets neither effect nor error, and
inference goes on.

Inference relies on name tables that fit the module. Where they do not, it stops with a fault.
-/
namespace SpecEffects.Inference

/-- What name tables that do not fit the module lead to. -/
inductive Fault where
  | noTable (moduleName : String)
  | noBindingSite (param : String)
  | noPlaceholder (param : String) (site : NodeId)
  | noBodyEffect (body letExpr : NodeId)
  | endlessScope (scope : EndlessScope)
  deriving DecidableEq

namespace Fault

def message : Fault → String
  | .noTable moduleName => "no lookup table for module `" ++ moduleName ++ "`"
  | .noBindingSite param => "parameter `" ++ param ++ "` has no binding site"
  | .noPlaceholder param site =>
    "parameter `" ++ param ++ "` at " ++ site.text ++ " has no placeholder effect"
  | .noBodyEffect body letExpr =>
    "body " ++ body.text ++ " of let expression " ++ letExpr.text ++ " has no effect"
  | .endlessScope scope => "scopes of " ++ scope.start.text ++ " never end"

end Fault

structure Halt where
  fault : Fault
  state : State

abbrev Result := Except Halt State

/-- How many arguments a builtin is taken to have where it is named and not applied. -/
def referenceArity : Nat := 2

structure Environment where
  signatures : SignatureTable
  tables : NameTables

structure Context where
  signatures : SignatureTable
  table : NameTable
  scopes : ScopeTree

namespace Context

def resolve (context : Context) (name : String) (node : NodeId) :
    Except Fault (Option NameDefinition) :=
  (context.table.resolve context.scopes name node).mapError .endlessScope

end Context

namespace State

def parameterEffect (state : State) (param : NameDefinition) : Except Fault Effect :=
  match param.reference with
  | none => .error (.noBindingSite param.identifier)
  | some site =>
    match state.effects.get? site with
    | none => .error (.noPlaceholder param.identifier site)
    | some effect => .ok effect

def signature? (state : State) (context : Context) (name : String) (arity : Nat) :
    Option NameDefinition → Except Fault (Option Effect)
  | none => .ok (context.signatures.signature? name arity)
  | some definition =>
    match definition.kind, definition.reference with
    | .parameter, _ => (state.parameterEffect definition).map some
    | .operator, some reference => .ok (state.effects.get? reference)
    | .operator, none => .ok (context.signatures.signature? name arity)
    | .constant, _ => .ok (some (Signature.instantiate (.propagate [.read, .temporal]) arity))
    | .stateVariable, _ => .ok none

def orHalt {α : Type} (state : State) (result : Except Fault α) : Except Halt α :=
  result.mapError fun fault => ⟨fault, state⟩

def inferOperatorRef (state : State) (context : Context) (id : NodeId) (name : String)
    (definition? : Option NameDefinition) : Result := do
  match ← state.orHalt (state.signature? context name referenceArity definition?) with
  | none => return state.recordError id (.unresolvedSignature name)
  | some signature =>
    match state.instantiate signature with
    | (.ok effect, state) => return state.record id effect
    | (.error clash, state) =>
      return state.recordError id (.instantiation (.ref id name) (.kindMismatch clash))

def inferRef (state : State) (context : Context) (id : NodeId) (name : String) : Result := do
  match ← state.orHalt (context.resolve name id) with
  | none => state.inferOperatorRef context id name none
  | some definition =>
    match definition.kind with
    | .parameter =>
      let effect ← state.orHalt (state.parameterEffect definition)
      return state.record id effect
    | .constant => return state.record id .empty
    | .stateVariable => return state.record id (.reads name)
    | .operator => state.inferOperatorRef context id name (some definition)

def applySignature (state : State) (expr : Expr) (args : List Effect) (signature : Effect) :
    State :=
  match state.instantiate signature with
  | (.error clash, state) => state.recordError expr.id (.instantiation expr (.kindMismatch clash))
  | (.ok signature, state) =>
    let (name, fresh) := state.fresh.next effectStem
    let state := { state with fresh }
    let result := Effect.quantified name
    match state.solve signature (.arrow args result) result with
    | .ok (effect, state) => state.record expr.id effect
    | .error cause => state.recordError expr.id (.application expr cause)

/-- An application whose arguments do not all have effects is passed over. -/
def inferApplication (state : State) (context : Context) (id : NodeId) (operator : String)
    (args : List Expr) : Result :=
  match args.mapM fun arg => state.effects.get? arg.id with
  | none => .ok state
  | some effects => do
    let definition? ← state.orHalt (context.resolve operator id)
    match ← state.orHalt (state.signature? context operator args.length definition?) with
    | none => return state.recordError id (.unresolvedSignature operator)
    | some signature => return state.applySignature (.app id operator args) effects signature

def openLambda (state : State) (id : NodeId) (params : List Param) : State :=
  params.foldl
    (fun state param => state.record param.id (.quantified (placeholder param.name id))) state

def learnedParams (running : Substitution) (id : NodeId) :
    List Param → Except KindClash (List Effect)
  | [] => .ok []
  | param :: rest => do
    let effect ← running.apply (.quantified (placeholder param.name id))
    let rest ← learnedParams running id rest
    return effect :: rest

/-- A lambda is an arrow from what has been learned about its parameters to what its body does. -/
def closeLambda (state : State) (id : NodeId) (params : List Param) (body : Expr) : State :=
  match state.effects.get? body.id with
  | none => state
  | some result =>
    match learnedParams state.running id params with
    | .ok effects => state.record id (.arrow effects result)
    | .error clash =>
      state.recordError id (.instantiation (.lambda id params body) (.kindMismatch clash))

/-- After an error anywhere the result of a let is not relied upon. -/
def closeLet (state : State) (id body : NodeId) : Result :=
  if state.errors.isEmpty then
    match state.effects.get? body with
    | some effect => .ok (state.record id effect)
    | none => .error ⟨.noBodyEffect body id, state⟩
  else .ok state

end State

mutual

def inferExpr (context : Context) (state : State) : Expr → Result
  | .literal id _ => .ok (state.record id .empty)
  | .ref id name => state.inferRef context id name
  | .app id operator args => do
    let state ← inferExprs context state args
    state.inferApplication context id operator args
  | .lambda id params body => do
    let state ← inferExpr context (state.openLambda id params) body
    return state.closeLambda id params body
  | .letIn id defId _ bound body => do
    let state ← inferExpr context state bound
    let state ← inferExpr context (state.copyEffect defId bound.id) body
    state.closeLet id body.id

def inferExprs (context : Context) (state : State) : List Expr → Result
  | [] => .ok state
  | expr :: rest => do
    let state ← inferExpr context state expr
    inferExprs context state rest

end

namespace Environment

def context (env : Environment) (state : State) (m : Module) : Except Halt Context :=
  match env.tables.get? m.name with
  | some table => .ok ⟨env.signatures, table, m.scopeTree⟩
  | none => .error ⟨.noTable m.name, state⟩

end Environment

mutual

def inferDeclaration (env : Environment) (context : Context) (state : State) : Declaration → Result
  | .stateVariable _ _ => .ok state
  | .constant _ _ => .ok state
  | .operator definition => do
    let state ← inferExpr context state definition.body
    return state.copyEffect definition.id definition.body.id
  | .assumption _ _ expr => inferExpr context state expr
  | .submodule id name declarations => do
    let context ← env.context state ⟨id, name, declarations⟩
    inferDeclarations env context state declarations

def inferDeclarations (env : Environment) (context : Context) (state : State) :
    List Declaration → Result
  | [] => .ok state
  | declaration :: rest => do
    let state ← inferDeclaration env context state declaration
    inferDeclarations env context state rest

end

def inferModule (env : Environment) (state : State) (m : Module) : Result := do
  let context ← env.context state m
  inferDeclarations env context state m.declarations

end SpecEffects.Inference
