import SpecEffects.Sorted.Map
import SpecEffects.Tree.Basic

/-!
The scope tree of a module: each of its nodes with the node in which it stands. Nested modules are
leaves of it. If ids are used twice, the link that comes last in the module counts, and following
the links may then never end.
-/
namespace SpecEffects

structure ScopeLink where
  child : NodeId
  parent : NodeId

namespace Expr

mutual

def scopeLinks (parent : NodeId) : Expr → List ScopeLink
  | .literal id _ => [⟨id, parent⟩]
  | .ref id _ => [⟨id, parent⟩]
  | .app id _ args => ⟨id, parent⟩ :: scopeLinksOf id args
  | .lambda id params body =>
    ⟨id, parent⟩ :: params.map (fun param => ⟨param.id, id⟩) ++ scopeLinks id body
  | .letIn id defId _ bound body =>
    ⟨id, parent⟩ :: ⟨defId, id⟩ :: scopeLinks defId bound ++ scopeLinks id body

def scopeLinksOf (parent : NodeId) : List Expr → List ScopeLink
  | [] => []
  | expr :: rest => scopeLinks parent expr ++ scopeLinksOf parent rest

end

end Expr

namespace Declaration

def scopeLinks (parent : NodeId) : Declaration → List ScopeLink
  | .stateVariable id _ => [⟨id, parent⟩]
  | .constant id _ => [⟨id, parent⟩]
  | .operator definition => ⟨definition.id, parent⟩ :: definition.body.scopeLinks definition.id
  | .assumption id _ expr => ⟨id, parent⟩ :: expr.scopeLinks id
  | .submodule id _ _ => [⟨id, parent⟩]

end Declaration

structure ScopeTree where
  root : NodeId
  parents : SortedMap NodeId NodeId

structure EndlessScope where
  start : NodeId
  deriving DecidableEq

namespace ScopeTree

def ofLinks (root : NodeId) (links : List ScopeLink) : ScopeTree :=
  ⟨root, .ofList (links.map fun link => (link.child, link.parent))⟩

def parent? (scopes : ScopeTree) (id : NodeId) : Option NodeId := scopes.parents.get? id

def contains (scopes : ScopeTree) (id : NodeId) : Bool :=
  id = scopes.root || scopes.parents.contains id

def ascend (scopes : ScopeTree) : Nat → NodeId → Option (List NodeId)
  | 0, _ => none
  | limit + 1, id =>
    match scopes.parent? id with
    | none => some [id]
    | some parent => (scopes.ascend limit parent).map (id :: ·)

/-- The node and those around it, from the inside out. A path has no more links than the tree, or it
comes back to where it was. -/
def path (scopes : ScopeTree) (id : NodeId) : Except EndlessScope (List NodeId) :=
  match scopes.ascend (scopes.parents.size + 1) id with
  | some path => .ok path
  | none => .error ⟨id⟩

end ScopeTree

namespace Module

def scopeTree (m : Module) : ScopeTree :=
  .ofLinks m.id (m.declarations.flatMap (Declaration.scopeLinks m.id))

end Module

end SpecEffects
