import SpecEffects.Scope.Tree

/-!
What names mean. Each module has a table of definitions: the builtins, what it declares, the
parameters of its lambdas and the definitions of its lets. A definition with a scope can be seen
from inside that scope only; of several that can be seen the one with the innermost scope is meant.
-/
namespace SpecEffects

inductive DefinitionKind where
  | parameter
  | constant
  | stateVariable
  | operator
  deriving DecidableEq

structure NameDefinition where
  kind : DefinitionKind
  identifier : String
  /-- The node that introduces the name; builtins have none. -/
  reference : Option NodeId
  /-- The lambda or let inside which the name is defined. -/
  scope : Option NodeId
  deriving DecidableEq

/-- Definitions in the order in which they were added. -/
structure NameTable where
  definitions : List NameDefinition

namespace NameTable

def definitionsOf (table : NameTable) (identifier : String) : List NameDefinition :=
  table.definitions.filter fun definition => definition.identifier = identifier

def identifiers (table : NameTable) : NameSet :=
  .ofList (table.definitions.map NameDefinition.identifier)

def size (table : NameTable) : Nat := table.identifiers.size

def isEmpty (table : NameTable) : Bool := table.definitions.isEmpty

/-- The first of the candidates with the innermost scope on the path, or else the first without a
scope. -/
def innermost? (candidates : List NameDefinition) (path : List NodeId) : Option NameDefinition :=
  (path.findSome? fun scope => candidates.find? fun definition => definition.scope = some scope).or
    (candidates.find? fun definition => definition.scope = none)

def resolve (table : NameTable) (scopes : ScopeTree) (identifier : String) (node : NodeId) :
    Except EndlessScope (Option NameDefinition) :=
  match table.definitionsOf identifier with
  | [] => .ok none
  | candidates => (scopes.path node).map (innermost? candidates)

end NameTable

abbrev NameTables := SortedMap String NameTable

namespace Expr

mutual

def localDefinitions : Expr → List NameDefinition
  | .literal _ _ => []
  | .ref _ _ => []
  | .app _ _ args => localDefinitionsOf args
  | .lambda id params body =>
    params.map (fun param => ⟨.parameter, param.name, some param.id, some id⟩) ++
      localDefinitions body
  | .letIn id defId name bound body =>
    ⟨.operator, name, some defId, some id⟩ :: localDefinitions bound ++ localDefinitions body

def localDefinitionsOf : List Expr → List NameDefinition
  | [] => []
  | expr :: rest => localDefinitions expr ++ localDefinitionsOf rest

end

end Expr

namespace Declaration

def definitions : Declaration → List NameDefinition
  | .stateVariable id name => [⟨.stateVariable, name, some id, none⟩]
  | .constant id name => [⟨.constant, name, some id, none⟩]
  | .operator definition =>
    ⟨.operator, definition.name, some definition.id, none⟩ :: definition.body.localDefinitions
  | .assumption _ _ expr => expr.localDefinitions
  | .submodule _ _ _ => []

end Declaration

namespace NameTable

def builtin (name : String) : NameDefinition := ⟨.operator, name, none, none⟩

def ofDeclarations (builtins : List String) (declarations : List Declaration) : NameTable :=
  ⟨builtins.map builtin ++ declarations.flatMap Declaration.definitions⟩

end NameTable

namespace NameTables

mutual

/-- Adds the tables of a declared module: those of the modules inside it and then its own. A table
gives way to a later one of the same name. -/
def addDeclared (builtins : List String) (tables : NameTables) : Declaration → NameTables
  | .submodule _ name declarations =>
    (addAllDeclared builtins tables declarations).insert name
      (.ofDeclarations builtins declarations)
  | _ => tables

def addAllDeclared (builtins : List String) (tables : NameTables) : List Declaration → NameTables
  | [] => tables
  | declaration :: rest => addAllDeclared builtins (addDeclared builtins tables declaration) rest

end

end NameTables

namespace Module

def nameTables (builtins : List String) (m : Module) : NameTables :=
  NameTables.addDeclared builtins ∅ m.toDeclaration

end Module

end SpecEffects
