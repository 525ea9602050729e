import Mathlib.Data.List.Flatten
import SpecEffects.Proofs.Scope

/-!
What names mean, read off the text. Where ids are distinct, the path from a node leads through the
expressions around it, and a name means the innermost of the definitions that these introduce, or
else the first that has no scope.
-/
namespace SpecEffects

namespace SortedMap

variable {κ ν : Type} [Ord κ] [DecidableEq κ] [Std.TransOrd κ] [Std.LawfulEqOrd κ]

theorem get?_ofList_of_mem {entries : List (κ × ν)} (nodup : (entries.map Prod.fst).Nodup) {k : κ}
    {v : ν} (member : (k, v) ∈ entries) : (ofList entries).get? k = some v := by
  have untouched : ∀ (entries : List (κ × ν)) (m : SortedMap κ ν), k ∉ entries.map Prod.fst →
      (entries.foldl (fun m entry => m.insert entry.1 entry.2) m).get? k = m.get? k := by
    intro entries
    induction entries with
    | nil => exact fun _ _ => rfl
    | cons entry rest ih =>
      intro m absent
      have different : entry.1 ≠ k := fun same => absent (same ▸ List.mem_cons_self)
      rw [List.foldl_cons, ih _ (fun later => absent (List.mem_cons_of_mem _ later)), get?_insert,
        if_neg different]
  have inserted : ∀ (entries : List (κ × ν)) (m : SortedMap κ ν), (entries.map Prod.fst).Nodup →
      (k, v) ∈ entries →
      (entries.foldl (fun m entry => m.insert entry.1 entry.2) m).get? k = some v := by
    intro entries
    induction entries with
    | nil =>
      intro m _ absurd
      cases absurd
    | cons entry rest ih =>
      intro m nodup member
      obtain ⟨different, nodup⟩ := List.nodup_cons.mp nodup
      rcases List.mem_cons.mp member with rfl | later
      · rw [List.foldl_cons, untouched _ _ different, get?_insert, if_pos rfl]
      · exact ih _ nodup later
  exact inserted entries ∅ nodup member

omit [Std.TransOrd κ] [Std.LawfulEqOrd κ] in
theorem mem_keys_of_get? {m : SortedMap κ ν} {k : κ} {v : ν} (found : m.get? k = some v) :
    k ∈ m.keys := by
  obtain ⟨entry, present, _⟩ := Option.map_eq_some_iff.mp found
  have same : entry.1 = k := by simpa using List.find?_some present
  rw [← same]
  exact List.mem_map_of_mem (List.mem_of_find?_eq_some present)

end SortedMap

namespace ScopeTree

/-- The links lead from the node through the path and end there. -/
inductive Leads (scopes : ScopeTree) : NodeId → List NodeId → Prop
  | root {id : NodeId} (last : scopes.parent? id = none) : Leads scopes id [id]
  | step {id parent : NodeId} {path : List NodeId} (link : scopes.parent? id = some parent)
      (rest : Leads scopes parent path) : Leads scopes id (id :: path)

namespace Leads

variable {scopes : ScopeTree} {id : NodeId} {path : List NodeId}

theorem unique {path' : List NodeId} (leads : scopes.Leads id path) (leads' : scopes.Leads id path') :
    path = path' := by
  induction leads generalizing path' with
  | root last =>
    cases leads' with
    | root _ => rfl
    | step link _ => cases last.symm.trans link
  | step link rest ih =>
    cases leads' with
    | root last => cases link.symm.trans last
    | step link' rest' =>
      cases link.symm.trans link'
      rw [ih rest']

theorem suffix {node : NodeId} (leads : scopes.Leads id path) (member : node ∈ path) :
    ∃ rest, scopes.Leads node rest ∧ rest.length ≤ path.length := by
  induction leads with
  | root last =>
    cases List.mem_singleton.mp member
    exact ⟨_, .root last, Nat.le_refl _⟩
  | step link rest ih =>
    rcases List.mem_cons.mp member with rfl | later
    · exact ⟨_, .step link rest, Nat.le_refl _⟩
    · obtain ⟨inner, leads, shorter⟩ := ih later
      exact ⟨inner, leads, Nat.le_succ_of_le shorter⟩

theorem nodup (leads : scopes.Leads id path) : path.Nodup := by
  induction leads with
  | root last => exact List.nodup_singleton _
  | step link rest ih =>
    refine List.nodup_cons.mpr ⟨fun again => ?_, ih⟩
    obtain ⟨inner, leads, shorter⟩ := rest.suffix again
    cases leads.unique (.step link rest)
    exact absurd shorter (Nat.not_succ_le_self _)

theorem dropLast_subset (leads : scopes.Leads id path) : path.dropLast ⊆ scopes.parents.keys := by
  induction leads with
  | root last => exact List.nil_subset _
  | step link rest ih =>
    have nonempty : ∀ {id path}, scopes.Leads id path → path ≠ [] := by
      rintro id path (_ | _) <;> exact List.cons_ne_nil _ _
    rw [List.dropLast_cons_of_ne_nil (nonempty rest)]
    exact List.cons_subset.mpr ⟨SortedMap.mem_keys_of_get? link, ih⟩

theorem length_le (leads : scopes.Leads id path) : path.length ≤ scopes.parents.size + 1 := by
  have inner := (leads.nodup.sublist path.dropLast_sublist).length_le_of_subset leads.dropLast_subset
  rw [SortedMap.keys, List.length_map, List.length_dropLast] at inner
  exact Nat.le_add_of_sub_le inner

theorem ascend (leads : scopes.Leads id path) {limit : Nat} (enough : path.length ≤ limit) :
    scopes.ascend limit id = some path := by
  induction leads generalizing limit with
  | root last =>
    cases limit with
    | zero => cases enough
    | succ limit => simp [ScopeTree.ascend, last]
  | step link rest ih =>
    cases limit with
    | zero => cases enough
    | succ limit => simp [ScopeTree.ascend, link, ih (Nat.le_of_succ_le_succ enough)]

theorem path_eq (leads : scopes.Leads id path) : scopes.path id = .ok path := by
  rw [ScopeTree.path, leads.ascend leads.length_le]

end Leads

end ScopeTree

namespace NameTable

variable (table : NameTable)

def localsAt (id : NodeId) : List NameDefinition :=
  table.definitions.filter fun definition => definition.scope = some id

/-- What a name means where these local definitions are seen, the innermost first. -/
def meaning (visible : List NameDefinition) (name : String) : Option NameDefinition :=
  (visible.find? fun definition => definition.identifier = name).or
    (table.definitions.find? fun definition =>
      definition.identifier = name && definition.scope = none)

theorem innermost?_eq (path : List NodeId) (name : String) :
    innermost? (table.definitionsOf name) path =
      table.meaning (path.flatMap table.localsAt) name := by
  simp [innermost?, meaning, definitionsOf, localsAt, List.find?_flatMap, List.find?_filter,
    and_comm]

theorem resolve_of_leads {scopes : ScopeTree} {id : NodeId} {path : List NodeId}
    (leads : scopes.Leads id path) (name : String) :
    table.resolve scopes name id = .ok (table.meaning (path.flatMap table.localsAt) name) := by
  rw [← innermost?_eq, resolve, leads.path_eq]
  split
  · rename_i none
    rw [none]
    have nothing : path.findSome? (fun scope => ([] : List NameDefinition).find? fun definition =>
        definition.scope = some scope) = .none := by simp
    rw [innermost?, nothing]
    rfl
  · rfl

theorem find?_builtin (names : List String) (name : String) :
    (names.map builtin).find? (fun definition =>
      definition.identifier = name && definition.scope = none) =
        if name ∈ names then some (builtin name) else none := by
  induction names with
  | nil => rfl
  | cons first rest ih =>
    by_cases same : first = name
    · simp [same, builtin]
    · have different : ¬ name = first := fun other => same other.symm
      simpa [builtin, same, different] using ih

/-- What the names of an expression mean, where these local definitions are seen around it. -/
inductive Scoped (table : NameTable) (scopes : ScopeTree) : List NameDefinition → Expr → Prop
  | literal {visible : List NameDefinition} (id : NodeId) (value : Literal) :
    Scoped table scopes visible (.literal id value)
  | ref {visible : List NameDefinition} {id : NodeId} {name : String}
    (resolved : table.resolve scopes name id = .ok (table.meaning visible name)) :
    Scoped table scopes visible (.ref id name)
  | app {visible : List NameDefinition} {id : NodeId} {operator : String} {args : List Expr}
    (resolved : table.resolve scopes operator id = .ok (table.meaning visible operator))
    (each : ∀ arg ∈ args, Scoped table scopes visible arg) :
    Scoped table scopes visible (.app id operator args)
  | lambda {visible : List NameDefinition} {id : NodeId} {params : List Param} {body : Expr}
    (inner : Scoped table scopes (table.localsAt id ++ visible) body) :
    Scoped table scopes visible (.lambda id params body)
  | letIn {visible : List NameDefinition} {id defId : NodeId} {name : String} {bound body : Expr}
    (first : Scoped table scopes (table.localsAt id ++ visible) bound)
    (second : Scoped table scopes (table.localsAt id ++ visible) body) :
    Scoped table scopes visible (.letIn id defId name bound body)

end NameTable

namespace Expr

def binders : Expr → List NameDefinition
  | .lambda id params _ =>
    params.map fun param => ⟨.parameter, param.name, some param.id, some id⟩
  | .letIn id defId name _ _ => [⟨.operator, name, some defId, some id⟩]
  | _ => []

theorem scope_of_mem_binders {node : Expr} {definition : NameDefinition}
    (member : definition ∈ node.binders) : definition.scope = some node.id := by
  cases node with
  | lambda id params body =>
    obtain ⟨param, _, rfl⟩ := List.mem_map.mp member
    rfl
  | letIn id defId name bound body =>
    cases List.mem_singleton.mp member
    rfl
  | _ => cases member

theorem localDefinitions_eq (expr : Expr) : expr.localDefinitions = expr.nodes.flatMap binders := by
  induction expr with
  | literal id value => rfl
  | ref id name => rfl
  | app id operator args ih =>
    rw [localDefinitions, localDefinitionsOf_eq, nodes, nodesOf_eq, List.flatMap_cons,
      List.flatMap_assoc]
    exact List.flatMap_congr ih
  | lambda id params body ih => rw [localDefinitions, ih, nodes, List.flatMap_cons, binders]
  | letIn id defId name bound body ih ih' =>
    simp [localDefinitions, ih, ih', nodes, binders]

theorem child_scopeLinks (expr : Expr) (parent : NodeId) :
    (expr.scopeLinks parent).map ScopeLink.child = expr.ids := by
  induction expr generalizing parent with
  | literal id value => rfl
  | ref id name => rfl
  | app id operator args ih =>
    rw [scopeLinks, scopeLinksOf_eq, ids_app, List.map_cons, List.map_flatMap]
    exact congrArg (id :: ·) (List.flatMap_congr fun arg present => ih arg present id)
  | lambda id params body ih => simp [scopeLinks, ids_lambda, ih, Function.comp_def]
  | letIn id defId name bound body ih ih' => simp [scopeLinks, ids_letIn, ih, ih']

theorem node_unique {expr node node' : Expr} (distinct : expr.ids.Nodup) (member : node ∈ expr.nodes)
    (member' : node' ∈ expr.nodes) {id : NodeId} (own : id ∈ node.ownIds) (own' : id ∈ node'.ownIds) :
    node = node' := by
  by_contra different
  have : Std.Symm (Function.onFun List.Disjoint ownIds) := ⟨fun _ _ => List.disjoint_symm⟩
  exact (List.nodup_flatMap.mp distinct).2.forall member member' different own own'

theorem ids_subset {expr node : Expr} (member : node ∈ expr.nodes) : node.ids ⊆ expr.ids := by
  induction expr with
  | literal id value => cases List.mem_singleton.mp member; exact List.Subset.refl _
  | ref id name => cases List.mem_singleton.mp member; exact List.Subset.refl _
  | app id operator args ih =>
    rw [nodes, nodesOf_eq] at member
    rcases List.mem_cons.mp member with rfl | member
    · exact List.Subset.refl _
    · obtain ⟨arg, present, member⟩ := List.mem_flatMap.mp member
      exact List.Subset.trans (ih arg present member) (arg_ids_subset present)
  | lambda id params body ih =>
    rw [nodes] at member
    rcases List.mem_cons.mp member with rfl | member
    · exact List.Subset.refl _
    · exact List.Subset.trans (ih member) lambda_body_ids_subset
  | letIn id defId name bound body ih ih' =>
    rw [nodes] at member
    rcases List.mem_append.mp member with member | member
    · rcases List.mem_cons.mp member with rfl | member
      · exact List.Subset.refl _
      · exact List.Subset.trans (ih member) bound_ids_subset
    · exact List.Subset.trans (ih' member) let_body_ids_subset

section Scoping

variable {scopes : ScopeTree}

theorem scoped_of_leads (table : NameTable) {expr : Expr} {parent : NodeId} {path : List NodeId}
    (leads : scopes.Leads parent path)
    (linked : ∀ link ∈ expr.scopeLinks parent, scopes.parent? link.child = some link.parent)
    (locals : ∀ node ∈ expr.nodes, table.localsAt node.id ⊆ node.binders)
    (sites : ∀ id defId name bound body, .letIn id defId name bound body ∈ expr.nodes →
      table.localsAt defId = []) :
    table.Scoped scopes (path.flatMap table.localsAt) expr := by
  induction expr generalizing parent path with
  | literal id value => exact .literal id value
  | ref id name =>
    have here : scopes.Leads id (id :: path) := .step (linked _ List.mem_cons_self) leads
    have none : table.localsAt id = [] :=
      List.subset_nil.mp (locals (.ref id name) List.mem_cons_self)
    have resolved := table.resolve_of_leads here name
    rw [List.flatMap_cons, none, List.nil_append] at resolved
    exact .ref resolved
  | app id operator args ih =>
    rw [scopeLinks, scopeLinksOf_eq] at linked
    rw [nodes, nodesOf_eq] at locals sites
    have here : scopes.Leads id (id :: path) := .step (linked _ List.mem_cons_self) leads
    have none : table.localsAt id = [] :=
      List.subset_nil.mp (locals (.app id operator args) List.mem_cons_self)
    have resolved := table.resolve_of_leads here operator
    rw [List.flatMap_cons, none, List.nil_append] at resolved
    refine .app resolved fun arg present => ?_
    have inner := ih arg present here
      (fun link member => linked link
        (List.mem_cons_of_mem _ (List.mem_flatMap.mpr ⟨arg, present, member⟩)))
      (fun node member => locals node
        (List.mem_cons_of_mem _ (List.mem_flatMap.mpr ⟨arg, present, member⟩)))
      (fun id defId name bound body member => sites id defId name bound body
        (List.mem_cons_of_mem _ (List.mem_flatMap.mpr ⟨arg, present, member⟩)))
    rwa [List.flatMap_cons, none, List.nil_append] at inner
  | lambda id params body ih =>
    have here : scopes.Leads id (id :: path) :=
      .step (linked ⟨id, parent⟩ (by simp [scopeLinks])) leads
    have inner := ih here (fun link member => linked link (by simp [scopeLinks, member]))
      (fun node member => locals node (by simp [nodes, member]))
      (fun id defId name bound body member => sites id defId name bound body
        (by simp [nodes, member]))
    rw [List.flatMap_cons] at inner
    exact .lambda inner
  | letIn id defId name bound body ih ih' =>
    have here : scopes.Leads id (id :: path) :=
      .step (linked ⟨id, parent⟩ (by simp [scopeLinks])) leads
    have defined : scopes.Leads defId (defId :: id :: path) :=
      .step (linked ⟨defId, id⟩ (by simp [scopeLinks])) here
    have none : table.localsAt defId = [] := sites id defId name bound body (by simp [nodes])
    have first := ih defined (fun link member => linked link (by simp [scopeLinks, member]))
      (fun node member => locals node (by simp [nodes, member]))
      (fun id defId name bound body member => sites id defId name bound body
        (by simp [nodes, member]))
    have second := ih' here (fun link member => linked link (by simp [scopeLinks, member]))
      (fun node member => locals node (by simp [nodes, member]))
      (fun id defId name bound body member => sites id defId name bound body
        (by simp [nodes, member]))
    rw [List.flatMap_cons, List.flatMap_cons, none, List.nil_append] at first
    rw [List.flatMap_cons] at second
    exact .letIn first second

theorem exists_leads {expr : Expr} {parent : NodeId} {path : List NodeId}
    (leads : scopes.Leads parent path)
    (linked : ∀ link ∈ expr.scopeLinks parent, scopes.parent? link.child = some link.parent)
    {node : Expr} (inside : node ∈ expr.nodes) : ∃ path, scopes.Leads node.id path := by
  induction expr generalizing parent path with
  | literal id value =>
    cases List.mem_singleton.mp inside
    exact ⟨_, .step (linked _ List.mem_cons_self) leads⟩
  | ref id name =>
    cases List.mem_singleton.mp inside
    exact ⟨_, .step (linked _ List.mem_cons_self) leads⟩
  | app id operator args ih =>
    rw [scopeLinks, scopeLinksOf_eq] at linked
    rw [nodes, nodesOf_eq] at inside
    have here : scopes.Leads id (id :: path) := .step (linked _ List.mem_cons_self) leads
    rcases List.mem_cons.mp inside with rfl | inside
    · exact ⟨_, here⟩
    · obtain ⟨arg, present, inside⟩ := List.mem_flatMap.mp inside
      exact ih arg present here (fun link member => linked link
        (List.mem_cons_of_mem _ (List.mem_flatMap.mpr ⟨arg, present, member⟩))) inside
  | lambda id params body ih =>
    have here : scopes.Leads id (id :: path) :=
      .step (linked ⟨id, parent⟩ (by simp [scopeLinks])) leads
    rcases List.mem_cons.mp inside with rfl | inside
    · exact ⟨_, here⟩
    · exact ih here (fun link member => linked link (by simp [scopeLinks, member])) inside
  | letIn id defId name bound body ih ih' =>
    have here : scopes.Leads id (id :: path) :=
      .step (linked ⟨id, parent⟩ (by simp [scopeLinks])) leads
    have defined : scopes.Leads defId (defId :: id :: path) :=
      .step (linked ⟨defId, id⟩ (by simp [scopeLinks])) here
    rw [nodes] at inside
    rcases List.mem_append.mp inside with inside | inside
    · rcases List.mem_cons.mp inside with rfl | inside
      · exact ⟨_, here⟩
      · exact ih defined (fun link member => linked link (by simp [scopeLinks, member])) inside
    · exact ih' here (fun link member => linked link (by simp [scopeLinks, member])) inside

end Scoping

end Expr

namespace Declaration

theorem child_scopeLinks (declaration : Declaration) (parent : NodeId) :
    (declaration.scopeLinks parent).map ScopeLink.child = declaration.ownIds := by
  cases declaration with
  | operator definition =>
    exact congrArg (definition.id :: ·) (definition.body.child_scopeLinks definition.id)
  | assumption id name expr => exact congrArg (id :: ·) (expr.child_scopeLinks id)
  | _ => rfl

theorem scopeLinks_of_expr {declaration : Declaration} {expr : Expr}
    (holds : declaration.expr? = some expr) (parent : NodeId) :
    declaration.scopeLinks parent = ⟨declaration.id, parent⟩ :: expr.scopeLinks declaration.id := by
  cases declaration with
  | operator definition =>
    cases holds
    rfl
  | assumption id name expr =>
    cases holds
    rfl
  | _ => cases holds

theorem filter_definitions (declaration : Declaration) (id : NodeId) :
    (declaration.definitions.filter fun definition => definition.scope = some id) =
      declaration.nodes.flatMap fun node => if node.id = id then node.binders else [] := by
  have inside : ∀ expr : Expr,
      (expr.localDefinitions.filter fun definition => definition.scope = some id) =
        expr.nodes.flatMap fun node => if node.id = id then node.binders else [] := by
    intro expr
    rw [Expr.localDefinitions_eq, List.filter_flatMap]
    refine List.flatMap_congr fun node _ => ?_
    split
    · rename_i same
      refine List.filter_eq_self.mpr fun definition member => ?_
      simp [Expr.scope_of_mem_binders member, same]
    · rename_i different
      refine List.filter_eq_nil_iff.mpr fun definition member => ?_
      simp [Expr.scope_of_mem_binders member, different]
  cases declaration with
  | operator definition =>
    rw [definitions, List.filter_cons_of_neg (by simp), inside]
    rfl
  | assumption id' name expr => exact inside expr
  | _ => rfl

end Declaration

theorem NameTable.localsAt_ofDeclarations (names : List String) (declarations : List Declaration)
    (id : NodeId) : (NameTable.ofDeclarations names declarations).localsAt id =
      declarations.flatMap fun declaration =>
        declaration.nodes.flatMap fun node => if node.id = id then node.binders else [] := by
  have builtins : (names.map builtin).filter (fun definition => definition.scope = some id) = [] := by
    refine List.filter_eq_nil_iff.mpr fun definition member => ?_
    obtain ⟨name, _, rfl⟩ := List.mem_map.mp member
    simp [builtin]
  rw [localsAt, ofDeclarations, List.filter_append, builtins, List.nil_append, List.filter_flatMap]
  exact List.flatMap_congr fun declaration _ => declaration.filter_definitions id

theorem flatMap_ite_key {α β κ : Type} [DecidableEq κ] (key : α → κ) (values : α → List β)
    {members : List α} (nodup : (members.map key).Nodup) {a : α} (member : a ∈ members) :
    (members.flatMap fun b => if key b = key a then values b else []) = values a := by
  have nothing : ∀ rest : List α, key a ∉ rest.map key →
      (rest.flatMap fun b => if key b = key a then values b else []) = [] := by
    intro rest absent
    refine List.flatMap_eq_nil_iff.mpr fun b present => if_neg fun same => absent ?_
    exact same ▸ List.mem_map_of_mem present
  induction members with
  | nil => cases member
  | cons b rest ih =>
    obtain ⟨different, nodup⟩ := List.nodup_cons.mp nodup
    rw [List.flatMap_cons]
    rcases List.mem_cons.mp member with rfl | later
    · rw [if_pos rfl, nothing rest different, List.append_nil]
    · have other : key b ≠ key a := fun same => different (same ▸ List.mem_map_of_mem later)
      rw [if_neg other, List.nil_append]
      exact ih nodup later

namespace Declaration

theorem all_sublist {whole inner : Declaration} (member : inner ∈ whole.all) :
    inner.all.Sublist whole.all := by
  induction whole with
  | submodule id name declarations ih =>
    rw [all_submodule] at member ⊢
    rcases List.mem_cons.mp member with rfl | member
    · rw [all_submodule]
    · obtain ⟨declaration, present, member⟩ := List.mem_flatMap.mp member
      have part : declaration.all.Sublist (declarations.flatMap all) :=
        List.sublist_flatten_of_mem (List.mem_map_of_mem present)
      exact ((ih declaration present member).trans part).cons _
  | _ =>
    cases List.mem_singleton.mp member
    exact List.Sublist.refl _

theorem ownIds_sublist (declaration : Declaration) : declaration.ownIds.Sublist declaration.ids :=
  List.sublist_flatten_of_mem (List.mem_map_of_mem declaration.mem_all_self)

end Declaration

namespace Module

variable {m n : Module} {names : List String} {key : String} {table : NameTable}

theorem nodup_ids (distinct : m.ids.Nodup) (within : n ∈ m.modules) : n.ids.Nodup :=
  distinct.sublist ((Declaration.all_sublist (mem_modules.mp within)).flatMap Declaration.ownIds)

theorem nodup_declarations (distinct : n.ids.Nodup) :
    (n.declarations.flatMap Declaration.ids).Nodup := by
  rw [ids, toDeclaration, Declaration.ids_submodule] at distinct
  exact (List.nodup_cons.mp distinct).2

theorem nodup_ownIds (distinct : n.ids.Nodup) :
    (n.id :: n.declarations.flatMap Declaration.ownIds).Nodup := by
  rw [ids, toDeclaration, Declaration.ids_submodule] at distinct
  exact distinct.sublist
    ((List.Sublist.flatMap_right _ fun declaration _ => declaration.ownIds_sublist).cons_cons _)

theorem node_unique (distinct : m.ids.Nodup) {declaration declaration' : Declaration}
    (member : declaration ∈ m.toDeclaration.all) (member' : declaration' ∈ m.toDeclaration.all)
    {node node' : Expr} (inside : node ∈ declaration.nodes) (inside' : node' ∈ declaration'.nodes)
    {id : NodeId} (own : id ∈ node.ownIds) (own' : id ∈ node'.ownIds) : node = node' := by
  obtain ⟨expr, holds, inside⟩ := Declaration.expr_of_mem_nodes inside
  obtain ⟨expr', holds', inside'⟩ := Declaration.expr_of_mem_nodes inside'
  cases Declaration.expr_unique distinct member member' holds holds'
    (Expr.ownIds_subset inside own) (Expr.ownIds_subset inside' own')
  have nodup := (List.nodup_flatMap.mp distinct).1 declaration member
  rw [Declaration.ownIds, holds] at nodup
  exact Expr.node_unique (List.nodup_cons.mp nodup).2 inside inside' own own'

theorem parent?_of_link (distinct : n.ids.Nodup) {declaration : Declaration}
    (present : declaration ∈ n.declarations) {link : ScopeLink}
    (member : link ∈ declaration.scopeLinks n.id) :
    n.scopeTree.parent? link.child = some link.parent := by
  apply SortedMap.get?_ofList_of_mem
  · rw [List.map_map]
    show ((n.declarations.flatMap (Declaration.scopeLinks n.id)).map ScopeLink.child).Nodup
    rw [List.map_flatMap]
    simp only [Declaration.child_scopeLinks]
    exact (List.nodup_cons.mp (nodup_ownIds distinct)).2
  · exact List.mem_map.mpr ⟨link, List.mem_flatMap.mpr ⟨declaration, present, member⟩, rfl⟩

theorem leads_root (distinct : n.ids.Nodup) : n.scopeTree.Leads n.id [n.id] := by
  refine .root ?_
  cases found : n.scopeTree.parent? n.id with
  | none => rfl
  | some parent =>
    obtain ⟨link, member, same⟩ := List.mem_map.mp (SortedMap.mem_of_get?_ofList found)
    obtain ⟨declaration, present, member⟩ := List.mem_flatMap.mp member
    have own := List.mem_map_of_mem (f := ScopeLink.child) member
    have here : link.child = n.id := (Prod.ext_iff.mp same).1
    rw [Declaration.child_scopeLinks, here] at own
    exact absurd (List.mem_flatMap.mpr ⟨declaration, present, own⟩)
      (List.nodup_cons.mp (nodup_ownIds distinct)).1

theorem exists_leads (distinct : n.ids.Nodup) {declaration : Declaration}
    (present : declaration ∈ n.declarations) {node : Expr} (inside : node ∈ declaration.nodes) :
    ∃ path, n.scopeTree.Leads node.id path := by
  have linked : ∀ link ∈ declaration.scopeLinks n.id,
      n.scopeTree.parent? link.child = some link.parent :=
    fun link member => parent?_of_link distinct present member
  obtain ⟨expr, holds, inside⟩ := Declaration.expr_of_mem_nodes inside
  rw [Declaration.scopeLinks_of_expr holds] at linked
  have leads : n.scopeTree.Leads declaration.id [declaration.id, n.id] :=
    .step (linked _ List.mem_cons_self) (leads_root distinct)
  exact Expr.exists_leads leads (fun link member => linked link (List.mem_cons_of_mem _ member)) inside

section Tables

variable (distinct : m.ids.Nodup) (found : (m.nameTables names).get? key = some table)

include found in
theorem mem_localsAt {id : NodeId} {definition : NameDefinition}
    (member : definition ∈ table.localsAt id) :
    ∃ declaration ∈ m.toDeclaration.all, ∃ node ∈ declaration.nodes,
      node.id = id ∧ definition ∈ node.binders := by
  rcases NameTables.get?_addDeclared found with absurd | ⟨inner, inside, rfl⟩
  · cases absurd
  · rw [NameTable.localsAt_ofDeclarations] at member
    obtain ⟨declaration, present, member⟩ := List.mem_flatMap.mp member
    obtain ⟨node, part, member⟩ := List.mem_flatMap.mp member
    split at member
    · rename_i same
      exact ⟨declaration, mem_all_of_mem_declarations (mem_modules.mpr inside) present, node, part,
        same, member⟩
    · cases member

include distinct found

theorem localsAt_subset {declaration : Declaration} (member : declaration ∈ m.toDeclaration.all)
    {node : Expr} (inside : node ∈ declaration.nodes) :
    table.localsAt node.id ⊆ node.binders := by
  intro definition seen
  obtain ⟨other, member', node', inside', same, bound⟩ := mem_localsAt found seen
  cases node_unique distinct member member' inside inside' node.id_mem_ownIds
    (same ▸ node'.id_mem_ownIds)
  exact bound

theorem localsAt_head {id : NodeId} (head : id ∈ m.toDeclaration.headIds) :
    table.localsAt id = [] := by
  refine List.eq_nil_iff_forall_not_mem.mpr fun definition seen => ?_
  obtain ⟨declaration, member, node, inside, rfl, _⟩ := mem_localsAt found seen
  obtain ⟨expr, holds, inside⟩ := Declaration.expr_of_mem_nodes inside
  exact Declaration.not_mem_headIds distinct member holds
    (Expr.ownIds_subset inside node.id_mem_ownIds) head

theorem localsAt_definition {declaration : Declaration} (member : declaration ∈ m.toDeclaration.all)
    {id defId : NodeId} {name : String} {bound body : Expr}
    (inside : .letIn id defId name bound body ∈ declaration.nodes) :
    table.localsAt defId = [] := by
  refine List.eq_nil_iff_forall_not_mem.mpr fun definition seen => ?_
  obtain ⟨other, member', node', inside', same, _⟩ := mem_localsAt found seen
  have own : defId ∈ (Expr.letIn id defId name bound body).ownIds := by simp [Expr.ownIds]
  have one := node_unique distinct member member' inside inside' own (same ▸ node'.id_mem_ownIds)
  subst one
  have again : id = defId := same
  subst again
  have nodup := (List.nodup_flatMap.mp distinct).1 declaration member
  obtain ⟨expr, holds, inside⟩ := Declaration.expr_of_mem_nodes inside
  rw [Declaration.ownIds, holds] at nodup
  have own := (List.nodup_flatMap.mp (List.nodup_cons.mp nodup).2).1 _ inside
  simp [Expr.ownIds] at own

/-- What the names of a declaration mean can be read off its text. -/
theorem scoped_declaration (within : n ∈ m.modules) {declaration : Declaration}
    (present : declaration ∈ n.declarations) {expr : Expr} (holds : declaration.expr? = some expr) :
    table.Scoped n.scopeTree [] expr := by
  have all := mem_all_of_mem_declarations within present
  have own := nodup_ids distinct within
  have nodes : declaration.nodes = expr.nodes := by rw [Declaration.nodes, holds]; rfl
  have linked : ∀ link ∈ declaration.scopeLinks n.id,
      n.scopeTree.parent? link.child = some link.parent :=
    fun link member => parent?_of_link own present member
  rw [Declaration.scopeLinks_of_expr holds] at linked
  have leads : n.scopeTree.Leads declaration.id [declaration.id, n.id] :=
    .step (linked _ List.mem_cons_self) (leads_root own)
  have inner := Expr.scoped_of_leads table leads
    (fun link member => linked link (List.mem_cons_of_mem _ member))
    (fun node inside => localsAt_subset distinct found all (nodes ▸ inside))
    (fun id defId name bound body inside =>
      localsAt_definition distinct found all (nodes ▸ inside))
  have root : table.localsAt n.id = [] :=
    localsAt_head distinct found (Declaration.id_mem_headIds (mem_modules.mp within))
  have head := localsAt_head distinct found (Declaration.id_mem_headIds all)
  rwa [List.flatMap_cons, List.flatMap_cons, head, root] at inner

end Tables

theorem localsAt_own (distinct : n.ids.Nodup) {declaration : Declaration}
    (present : declaration ∈ n.declarations) {node : Expr} (inside : node ∈ declaration.nodes) :
    (NameTable.ofDeclarations names n.declarations).localsAt node.id = node.binders := by
  rw [NameTable.localsAt_ofDeclarations, ← List.flatMap_assoc]
  apply flatMap_ite_key Expr.id Expr.binders
  · have disjoint : ((n.declarations.flatMap Declaration.nodes).flatMap Expr.ownIds).Nodup := by
      rw [List.flatMap_assoc]
      refine (List.nodup_cons.mp (nodup_ownIds distinct)).2.sublist
        (List.Sublist.flatMap_right _ fun declaration _ => ?_)
      rw [Declaration.ownIds, Declaration.nodes]
      cases declaration.expr? with
      | none => exact List.nil_sublist _
      | some expr => exact List.sublist_cons_self _ _
    refine List.pairwise_map.mpr ((List.nodup_flatMap.mp disjoint).2.imp ?_)
    intro node node' apart same
    exact apart node.id_mem_ownIds (same ▸ node'.id_mem_ownIds)
  · exact List.mem_flatMap.mpr ⟨declaration, present, inside⟩

end Module

end SpecEffects
