import Mathlib.Data.List.Perm.Basic
import SpecEffects.Proofs.Inference.Alike

/-!
Whose definitions a module is gone through with. Tables are kept by the names of modules, and of
several modules with one name the last one that is finished owns the table. Inside of the owner all
local definitions are found. Inside of another module of the same name none of its own is.
-/
namespace SpecEffects

namespace Declaration

mutual

def innerFirst : Declaration → List Module
  | .submodule id name declarations => innerFirstOf declarations ++ [⟨id, name, declarations⟩]
  | _ => []

def innerFirstOf : List Declaration → List Module
  | [] => []
  | declaration :: rest => innerFirst declaration ++ innerFirstOf rest

end

theorem innerFirstOf_eq (declarations : List Declaration) :
    innerFirstOf declarations = declarations.flatMap innerFirst := by
  induction declarations with
  | nil => rfl
  | cons declaration rest ih => rw [innerFirstOf, ih, List.flatMap_cons]

theorem innerFirst_submodule (id : NodeId) (name : String) (declarations : List Declaration) :
    (submodule id name declarations).innerFirst =
      declarations.flatMap innerFirst ++ [⟨id, name, declarations⟩] := by
  rw [innerFirst, innerFirstOf_eq]

theorem mem_all_of_mem_innerFirst {declaration : Declaration} {n : Module}
    (member : n ∈ declaration.innerFirst) : n.toDeclaration ∈ declaration.all := by
  induction declaration with
  | submodule id name declarations ih =>
    rw [innerFirst_submodule] at member
    rw [all_submodule]
    rcases List.mem_append.mp member with member | member
    · obtain ⟨inner, present, member⟩ := List.mem_flatMap.mp member
      exact List.mem_cons_of_mem _ (List.mem_flatMap.mpr ⟨inner, present, ih inner present member⟩)
    · cases List.mem_singleton.mp member
      exact List.mem_cons_self
  | _ => cases member

def declared : Declaration → List Declaration
  | .submodule _ _ declarations => declarations
  | _ => []

theorem declared_perm (whole : Declaration) :
    (whole.all.flatMap fun inner => inner.declared.map Declaration.id).Perm whole.headIds.tail := by
  induction whole with
  | submodule id name declarations ih =>
    have heads : ∀ inner : Declaration, inner.headIds = inner.id :: inner.headIds.tail := by
      intro inner
      cases inner <;> rfl
    have split : declarations.flatMap headIds =
        declarations.flatMap fun inner => [inner.id] ++ inner.headIds.tail :=
      congrArg declarations.flatMap (funext heads)
    have parts : (declarations.flatMap fun inner => inner.all.flatMap fun deeper =>
        deeper.declared.map Declaration.id).Perm
          (declarations.flatMap fun inner => inner.headIds.tail) := by
      exact List.Perm.flatMap_left _ ih
    rw [headIds, all_submodule, List.flatMap_cons, List.map_cons, List.tail_cons, List.map_flatMap,
      List.flatMap_assoc]
    show (declarations.map Declaration.id ++ _).Perm (declarations.flatMap headIds)
    rw [split, ← List.flatMap_singleton' (declarations.map Declaration.id), List.flatMap_map]
    exact (List.Perm.append_left _ parts).trans (List.flatMap_append_perm _ _ _)
  | _ => exact .nil

theorem parent_unique {whole : Declaration} (distinct : whole.ids.Nodup) {n k : Module}
    (inside : n.toDeclaration ∈ whole.all) (inside' : k.toDeclaration ∈ whole.all)
    {declaration : Declaration} (present : declaration ∈ n.declarations)
    (present' : declaration ∈ k.declarations) : n = k := by
  have heads : whole.headIds.Nodup := by
    refine distinct.sublist ?_
    rw [headIds, ids, List.map_eq_flatMap]
    exact List.Sublist.flatMap_right _ fun inner _ =>
      List.singleton_sublist.mpr List.mem_cons_self
  have nodup := whole.declared_perm.nodup_iff.mpr (heads.sublist (List.tail_sublist _))
  by_contra different
  have apart : n.toDeclaration ≠ k.toDeclaration := by
    intro same
    cases n
    cases k
    cases same
    exact different rfl
  have : Std.Symm (Function.onFun List.Disjoint fun inner : Declaration =>
      inner.declared.map Declaration.id) := ⟨fun _ _ => List.disjoint_symm⟩
  exact (List.nodup_flatMap.mp nodup).2.forall inside inside' apart (List.mem_map_of_mem present)
    (List.mem_map_of_mem present')

end Declaration

/-- The table under a name is that of the last module with this name. -/
theorem NameTables.get?_addDeclared_eq (names : List String) (key : String) (declaration : Declaration)
    (tables : NameTables) : (addDeclared names tables declaration).get? key =
      ((declaration.innerFirst.reverse.find? fun n => n.name = key).map fun n =>
        .ofDeclarations names n.declarations).or (tables.get? key) := by
  induction declaration generalizing tables with
  | submodule id name declarations ih =>
    have inside : ∀ (rest : List Declaration) (tables : NameTables), rest ⊆ declarations →
        (rest.foldl (addDeclared names) tables).get? key =
          (((rest.flatMap Declaration.innerFirst).reverse.find? fun n => n.name = key).map fun n =>
            .ofDeclarations names n.declarations).or (tables.get? key) := by
      intro rest
      induction rest with
      | nil => exact fun _ _ => rfl
      | cons declaration rest ih' =>
        intro tables part
        obtain ⟨present, part⟩ := List.cons_subset.mp part
        rw [List.foldl_cons, ih' _ part, ih declaration present, List.flatMap_cons, List.reverse_append,
          List.find?_append, Option.map_or, Option.or_assoc]
    rw [addDeclared, SortedMap.get?_insert, addAllDeclared_eq, inside _ _ (List.Subset.refl _),
      Declaration.innerFirst_submodule, List.reverse_append, List.find?_append]
    by_cases same : name = key
    · simp [same]
    · simp [same]
  | _ => rfl

namespace Module

/-- The module whose definitions stand in the table under this name. -/
def owner? (m : Module) (name : String) : Option Module :=
  m.toDeclaration.innerFirst.reverse.find? fun n => n.name = name

variable {m n k : Module} {name : String}

theorem get?_nameTables (m : Module) (names : List String) (name : String) :
    (m.nameTables names).get? name =
      (m.owner? name).map fun n => .ofDeclarations names n.declarations := by
  rw [nameTables, NameTables.get?_addDeclared_eq]
  exact Option.or_none

theorem owner?_inside (owns : m.owner? name = some k) : k ∈ m.modules :=
  mem_modules.mpr (Declaration.mem_all_of_mem_innerFirst
    (List.mem_reverse.mp (List.mem_of_find?_eq_some owns)))

theorem owner?_self (m : Module) : m.owner? m.name = some m := by
  simp [owner?, toDeclaration, Declaration.innerFirst_submodule]

theorem exists_owner (within : n ∈ m.modules) : ∃ k, m.owner? n.name = some k := by
  obtain ⟨table, found⟩ := exists_table [] within
  rw [get?_nameTables] at found
  obtain ⟨k, owns, _⟩ := Option.map_eq_some_iff.mp found
  exact ⟨k, owns⟩

theorem eq_of_id (distinct : m.ids.Nodup) (within : n ∈ m.modules) (within' : k ∈ m.modules)
    (same : n.id = k.id) : n = k := by
  have head : ∀ k : Module, k.id ∈ k.toDeclaration.ownIds := fun _ => List.mem_cons_self
  have one := Declaration.eq_of_mem_ownIds distinct (mem_modules.mp within) (mem_modules.mp within')
    (head n) (same ▸ head k)
  cases n
  cases k
  cases one
  rfl

end Module

namespace Inference

def contextIn (signatures : SignatureTable) (m n : Module) : Context :=
  ⟨signatures, ((m.nameTables signatures.keys).get? n.name).getD ⟨[]⟩, n.scopeTree⟩

/-- The local definitions that are found inside of a module, which may or may not own its table. -/
def seenLocals : Bool → Expr → List NameDefinition
  | true => Expr.binders
  | false => fun _ => []

theorem opens_seen (own : Bool) {link : Link} {sites : NodeId → NodeId → Prop}
    {context context' : Context} {start start' : List NameDefinition} :
    Opens link sites context context' (fun _ _ => True) start start' (seenLocals own) := by
  cases own with
  | true => exact opens_own fun _ _ => trivial
  | false => exact opens_foreign fun _ _ => trivial

variable {signatures : SignatureTable} {m n k : Module} {declaration : Declaration} {expr : Expr}

theorem table_found (within : n ∈ m.modules) : (m.nameTables signatures.keys).get? n.name =
    some (contextIn signatures m n).table := by
  obtain ⟨table, found⟩ := Module.exists_table signatures.keys within
  rw [contextIn, found]
  rfl

theorem environment_context (within : n ∈ m.modules) (state : State) :
    (m.environment signatures).context state n = .ok (contextIn signatures m n) := by
  have found : (m.environment signatures).tables.get? n.name = _ := table_found within
  rw [Environment.context, found]
  rfl

theorem inferModule_within (within : n ∈ m.modules) (state : State) :
    inferModule (m.environment signatures) state n =
      inferDeclarations (m.environment signatures) (contextIn signatures m n) state n.declarations := by
  rw [inferModule, environment_context within]
  rfl

theorem table_of_owner (owns : m.owner? n.name = some k) :
    (contextIn signatures m n).table = .ofDeclarations signatures.keys k.declarations := by
  rw [contextIn, Module.get?_nameTables, owns]
  rfl

theorem placed_declared (distinct : m.ids.Nodup) (within : n ∈ m.modules)
    (owns : m.owner? n.name = some k) (present : declaration ∈ n.declarations)
    (holds : declaration.expr? = some expr) :
    Placed (seenLocals (decide (k.id = n.id))) (contextIn signatures m n) [] expr where
  names := Module.scoped_declaration distinct (table_found within) within present holds
  own node inside := by
    have nodes : node ∈ declaration.nodes := by
      rw [Declaration.nodes, holds]
      exact inside
    rw [table_of_owner owns]
    by_cases same : k.id = n.id
    · cases Module.eq_of_id distinct (Module.owner?_inside owns) within same
      rw [decide_eq_true same]
      exact Module.localsAt_own (Module.nodup_ids distinct within) present nodes
    · rw [decide_eq_false same, NameTable.localsAt_ofDeclarations]
      refine List.flatMap_eq_nil_iff.mpr fun other present' => List.flatMap_eq_nil_iff.mpr
        fun node' inside' => if_neg fun again => same ?_
      have standing := Module.mem_all_of_mem_declarations within present
      have standing' := Module.mem_all_of_mem_declarations (Module.owner?_inside owns) present'
      have own : ∀ {declaration : Declaration} {node : Expr}, node ∈ declaration.nodes →
          node.id ∈ declaration.ownIds := by
        intro declaration node inside
        rw [Declaration.nodes] at inside
        cases holds : declaration.expr? with
        | none => simp [holds] at inside
        | some expr =>
          rw [holds] at inside
          exact Declaration.mem_ownIds_of_expr holds (Expr.ownIds_subset inside node.id_mem_ownIds)
      cases Declaration.eq_of_mem_ownIds distinct standing standing' (own nodes)
        (again ▸ own inside')
      rw [Declaration.parent_unique distinct (Module.mem_modules.mp within)
        (Module.mem_modules.mp (Module.owner?_inside owns)) present present']

end Inference

end SpecEffects
