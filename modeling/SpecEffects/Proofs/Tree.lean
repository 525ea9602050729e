import Mathlib.Data.List.Nodup
import Mathlib.Data.List.Pairwise
import SpecEffects.Inference.State

/-!
The nodes of a module: its expressions with all their parts, its declarations with those of nested
modules, and the ids that belong to them.
-/
namespace SpecEffects

namespace Expr

@[induction_eliminator]
theorem induct {motive : Expr → Prop} (literal : ∀ id value, motive (.literal id value))
    (ref : ∀ id name, motive (.ref id name))
    (app : ∀ id operator args, (∀ arg ∈ args, motive arg) → motive (.app id operator args))
    (lambda : ∀ id params body, motive body → motive (.lambda id params body))
    (letIn : ∀ id defId name bound body, motive bound → motive body →
      motive (.letIn id defId name bound body)) : ∀ expr, motive expr
  | .literal id value => literal id value
  | .ref id name => ref id name
  | .app id operator args =>
    app id operator args fun arg _ => induct literal ref app lambda letIn arg
  | .lambda id params body => lambda id params body (induct literal ref app lambda letIn body)
  | .letIn id defId name bound body =>
    letIn id defId name bound body (induct literal ref app lambda letIn bound)
      (induct literal ref app lambda letIn body)

mutual

def nodes : Expr → List Expr
  | .literal id value => [.literal id value]
  | .ref id name => [.ref id name]
  | .app id operator args => .app id operator args :: nodesOf args
  | .lambda id params body => .lambda id params body :: nodes body
  | .letIn id defId name bound body => .letIn id defId name bound body :: nodes bound ++ nodes body

def nodesOf : List Expr → List Expr
  | [] => []
  | expr :: rest => nodes expr ++ nodesOf rest

end

def ownIds : Expr → List NodeId
  | .lambda id params _ => id :: params.map Param.id
  | .letIn id defId _ _ _ => [id, defId]
  | expr => [expr.id]

def ownPlaceholders : Expr → List String
  | .lambda id params _ => params.map fun param => Inference.placeholder param.name id
  | _ => []

def used? : Expr → Option String
  | .ref _ name => some name
  | .app _ operator _ => some operator
  | _ => none

def ids (expr : Expr) : List NodeId := expr.nodes.flatMap ownIds

def placeholders (expr : Expr) : List String := expr.nodes.flatMap ownPlaceholders

theorem nodesOf_eq (exprs : List Expr) : nodesOf exprs = exprs.flatMap nodes := by
  induction exprs with
  | nil => rfl
  | cons expr rest ih => rw [nodesOf, ih, List.flatMap_cons]

theorem ids_app (id : NodeId) (operator : String) (args : List Expr) :
    (app id operator args).ids = id :: args.flatMap ids := by
  simp only [ids, nodes, nodesOf_eq, List.flatMap_cons, List.flatMap_assoc]
  rfl

theorem ids_lambda (id : NodeId) (params : List Param) (body : Expr) :
    (lambda id params body).ids = id :: (params.map Param.id ++ body.ids) := by
  simp [ids, nodes, ownIds]

theorem ids_letIn (id defId : NodeId) (name : String) (bound body : Expr) :
    (letIn id defId name bound body).ids = id :: defId :: (bound.ids ++ body.ids) := by
  simp [ids, nodes, ownIds]

theorem arg_ids_subset {id : NodeId} {operator : String} {args : List Expr} {arg : Expr}
    (present : arg ∈ args) : arg.ids ⊆ (app id operator args).ids := by
  intro other inside
  rw [ids_app]
  exact List.mem_cons_of_mem _ (List.mem_flatMap.mpr ⟨arg, present, inside⟩)

theorem lambda_body_ids_subset {id : NodeId} {params : List Param} {body : Expr} :
    body.ids ⊆ (lambda id params body).ids := by
  intro other inside
  simp [ids_lambda, inside]

theorem bound_ids_subset {id defId : NodeId} {name : String} {bound body : Expr} :
    bound.ids ⊆ (letIn id defId name bound body).ids := by
  intro other inside
  simp [ids_letIn, inside]

theorem let_body_ids_subset {id defId : NodeId} {name : String} {bound body : Expr} :
    body.ids ⊆ (letIn id defId name bound body).ids := by
  intro other inside
  simp [ids_letIn, inside]

theorem placeholders_app (id : NodeId) (operator : String) (args : List Expr) :
    (app id operator args).placeholders = args.flatMap placeholders := by
  simp only [placeholders, nodes, nodesOf_eq, List.flatMap_cons, List.flatMap_assoc]
  rfl

theorem placeholders_lambda (id : NodeId) (params : List Param) (body : Expr) :
    (lambda id params body).placeholders =
      params.map (fun param => Inference.placeholder param.name id) ++ body.placeholders := by
  simp [placeholders, nodes, ownPlaceholders]

theorem placeholders_letIn (id defId : NodeId) (name : String) (bound body : Expr) :
    (letIn id defId name bound body).placeholders = bound.placeholders ++ body.placeholders := by
  simp [placeholders, nodes, ownPlaceholders]

theorem mem_nodes_self (expr : Expr) : expr ∈ expr.nodes := by
  cases expr <;> simp [nodes]

theorem id_mem_ownIds (expr : Expr) : expr.id ∈ expr.ownIds := by
  cases expr <;> simp [ownIds, Expr.id]

theorem ownIds_subset {node expr : Expr} (member : node ∈ expr.nodes) : node.ownIds ⊆ expr.ids :=
  fun _ own => List.mem_flatMap.mpr ⟨node, member, own⟩

theorem id_mem_ids (expr : Expr) : expr.id ∈ expr.ids :=
  ownIds_subset expr.mem_nodes_self expr.id_mem_ownIds

theorem lambda_of_placeholder {expr : Expr} {name : String} (member : name ∈ expr.placeholders) :
    ∃ param, ∃ id ∈ expr.ids, name = Inference.placeholder param id := by
  obtain ⟨node, inside, own⟩ := List.mem_flatMap.mp member
  cases node with
  | lambda id params body =>
    obtain ⟨param, _, rfl⟩ := List.mem_map.mp own
    exact ⟨param.name, id, ownIds_subset inside List.mem_cons_self, rfl⟩
  | _ => cases own

end Expr

namespace Declaration

@[induction_eliminator]
theorem induct {motive : Declaration → Prop}
    (stateVariable : ∀ id name, motive (.stateVariable id name))
    (constant : ∀ id name, motive (.constant id name))
    (operator : ∀ definition, motive (.operator definition))
    (assumption : ∀ id name expr, motive (.assumption id name expr))
    (submodule : ∀ id name declarations, (∀ declaration ∈ declarations, motive declaration) →
      motive (.submodule id name declarations)) : ∀ declaration, motive declaration
  | .stateVariable id name => stateVariable id name
  | .constant id name => constant id name
  | .operator definition => operator definition
  | .assumption id name expr => assumption id name expr
  | .submodule id name declarations =>
    submodule id name declarations fun declaration _ =>
      induct stateVariable constant operator assumption submodule declaration

mutual

def all : Declaration → List Declaration
  | .submodule id name declarations => .submodule id name declarations :: allOf declarations
  | declaration => [declaration]

def allOf : List Declaration → List Declaration
  | [] => []
  | declaration :: rest => all declaration ++ allOf rest

end

def expr? : Declaration → Option Expr
  | .operator definition => some definition.body
  | .assumption _ _ expr => some expr
  | _ => none

def nodes (declaration : Declaration) : List Expr := declaration.expr?.elim [] Expr.nodes

def ownIds (declaration : Declaration) : List NodeId :=
  declaration.id :: declaration.expr?.elim [] Expr.ids

def ids (declaration : Declaration) : List NodeId := declaration.all.flatMap ownIds

/-- The ids of declarations and modules, without those of expressions. -/
def headIds (declaration : Declaration) : List NodeId := declaration.all.map Declaration.id

def placeholders (declaration : Declaration) : List String :=
  declaration.all.flatMap fun inner => inner.expr?.elim [] Expr.placeholders

theorem allOf_eq (declarations : List Declaration) :
    allOf declarations = declarations.flatMap all := by
  induction declarations with
  | nil => rfl
  | cons declaration rest ih => rw [allOf, ih, List.flatMap_cons]

theorem all_submodule (id : NodeId) (name : String) (declarations : List Declaration) :
    (submodule id name declarations).all =
      submodule id name declarations :: declarations.flatMap all := by
  rw [all, allOf_eq]

theorem mem_all_self (declaration : Declaration) : declaration ∈ declaration.all := by
  cases declaration <;> simp [all]

theorem mem_all_trans {declaration inner innermost : Declaration}
    (member : inner ∈ declaration.all) (inside : innermost ∈ inner.all) :
    innermost ∈ declaration.all := by
  induction declaration with
  | submodule id name declarations ih =>
    rw [all_submodule] at member ⊢
    rcases List.mem_cons.mp member with rfl | member
    · rwa [all_submodule] at inside
    · obtain ⟨outer, present, member⟩ := List.mem_flatMap.mp member
      exact List.mem_cons_of_mem _ (List.mem_flatMap.mpr ⟨outer, present, ih outer present member⟩)
  | _ =>
    cases List.mem_singleton.mp member
    exact inside

theorem ids_operator (definition : Definition) :
    (operator definition).ids = definition.id :: definition.body.ids :=
  List.append_nil _

theorem ids_assumption (id : NodeId) (name : String) (expr : Expr) :
    (assumption id name expr).ids = id :: expr.ids :=
  List.append_nil _

theorem ids_submodule (id : NodeId) (name : String) (declarations : List Declaration) :
    (submodule id name declarations).ids = id :: declarations.flatMap ids := by
  simp only [ids, all_submodule, List.flatMap_cons, List.flatMap_assoc]
  rfl

theorem ownIds_subset {declaration inner : Declaration} (member : inner ∈ declaration.all) :
    inner.ownIds ⊆ declaration.ids :=
  fun _ own => List.mem_flatMap.mpr ⟨inner, member, own⟩

theorem ids_subset {declaration inner : Declaration} (member : inner ∈ declaration.all) :
    inner.ids ⊆ declaration.ids := by
  intro id inside
  obtain ⟨innermost, member', own⟩ := List.mem_flatMap.mp inside
  exact ownIds_subset (mem_all_trans member member') own

theorem id_mem_headIds {declaration inner : Declaration} (member : inner ∈ declaration.all) :
    inner.id ∈ declaration.headIds := List.mem_map_of_mem member

theorem eq_of_mem_ownIds {whole declaration declaration' : Declaration} (distinct : whole.ids.Nodup)
    (member : declaration ∈ whole.all) (member' : declaration' ∈ whole.all) {id : NodeId}
    (own : id ∈ declaration.ownIds) (own' : id ∈ declaration'.ownIds) :
    declaration = declaration' := by
  by_contra different
  have : Std.Symm (Function.onFun List.Disjoint ownIds) := ⟨fun _ _ => List.disjoint_symm⟩
  have disjoint := (List.nodup_flatMap.mp distinct).2.forall member member' different
  exact disjoint own own'

theorem expr_of_mem_nodes {declaration : Declaration} {node : Expr}
    (inside : node ∈ declaration.nodes) :
    ∃ expr, declaration.expr? = some expr ∧ node ∈ expr.nodes := by
  rw [nodes] at inside
  cases holds : declaration.expr? with
  | none => simp [holds] at inside
  | some expr => exact ⟨expr, rfl, by simpa [holds] using inside⟩

theorem mem_ownIds_of_expr {declaration : Declaration} {expr : Expr}
    (holds : declaration.expr? = some expr) {id : NodeId} (inside : id ∈ expr.ids) :
    id ∈ declaration.ownIds := by
  rw [ownIds, holds]
  exact List.mem_cons_of_mem _ inside

theorem expr_unique {whole declaration declaration' : Declaration} (distinct : whole.ids.Nodup)
    (member : declaration ∈ whole.all) (member' : declaration' ∈ whole.all) {expr expr' : Expr}
    (holds : declaration.expr? = some expr) (holds' : declaration'.expr? = some expr') {id : NodeId}
    (inside : id ∈ expr.ids) (inside' : id ∈ expr'.ids) : expr = expr' := by
  cases eq_of_mem_ownIds distinct member member' (mem_ownIds_of_expr holds inside)
    (mem_ownIds_of_expr holds' inside')
  exact Option.some.inj (holds.symm.trans holds')

theorem not_mem_headIds {whole declaration : Declaration} (distinct : whole.ids.Nodup)
    (member : declaration ∈ whole.all) {expr : Expr} (holds : declaration.expr? = some expr)
    {id : NodeId} (inside : id ∈ expr.ids) : id ∉ whole.headIds := by
  intro head
  obtain ⟨other, member', rfl⟩ := List.mem_map.mp head
  cases eq_of_mem_ownIds distinct member member' (mem_ownIds_of_expr holds inside)
    List.mem_cons_self
  have nodup := (List.nodup_flatMap.mp distinct).1 declaration member
  rw [ownIds, holds] at nodup
  exact (List.nodup_cons.mp nodup).1 inside

end Declaration

namespace Module

def ids (m : Module) : List NodeId := m.toDeclaration.ids

def placeholders (m : Module) : List String := m.toDeclaration.placeholders

def modules (m : Module) : List Module := m.toDeclaration.all.filterMap fun
  | .submodule id name declarations => some ⟨id, name, declarations⟩
  | _ => none

theorem mem_modules {m n : Module} : n ∈ m.modules ↔ n.toDeclaration ∈ m.toDeclaration.all := by
  unfold modules
  rw [List.mem_filterMap]
  constructor
  · rintro ⟨declaration, member, found⟩
    cases declaration with
    | submodule id name declarations =>
      cases found
      exact member
    | _ => cases found
  · intro member
    exact ⟨n.toDeclaration, member, rfl⟩

theorem mem_all_of_mem_declarations {m n : Module} (member : n ∈ m.modules)
    {declaration : Declaration} (present : declaration ∈ n.declarations) :
    declaration ∈ m.toDeclaration.all := by
  apply Declaration.mem_all_trans (mem_modules.mp member)
  rw [toDeclaration, Declaration.all_submodule]
  apply List.mem_cons_of_mem
  exact List.mem_flatMap.mpr ⟨declaration, present, declaration.mem_all_self⟩

end Module

end SpecEffects
