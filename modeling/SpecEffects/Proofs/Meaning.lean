import SpecEffects.Proofs.Inference.ModuleNames
import SpecEffects.Proofs.Inference.Outcome

/-!
Lexical scoping. The meaning of a name at a node is defined on the text alone: of the lambdas and lets
that hold the node the innermost one that introduces the name, else a builtin, else the first
declaration of the module. The lookup through the table and the links of the scope tree finds exactly
this definition.
-/
namespace SpecEffects

namespace Expr

/-- The definition of a name that the node itself introduces: the first parameter of a lambda with
this name, or what a let defines. -/
def introduces? (name : String) : Expr → Option NameDefinition
  | .lambda id params _ => (params.find? fun param => param.name = name).map fun param =>
      ⟨.parameter, name, some param.id, some id⟩
  | .letIn id defId defined _ _ =>
    if defined = name then some ⟨.operator, name, some defId, some id⟩ else none
  | _ => none

theorem introduces?_eq (name : String) (node : Expr) : node.introduces? name =
    node.binders.find? fun definition => definition.identifier = name := by
  cases node with
  | lambda id params body =>
    rw [binders, List.find?_map, introduces?]
    show _ = Option.map _ (params.find? fun param => param.name = name)
    cases found : params.find? fun param => param.name = name with
    | none => rfl
    | some param =>
      have same : param.name = name := by simpa using List.find?_some found
      rw [Option.map_some, Option.map_some, same]
  | letIn id defId defined bound body =>
    by_cases same : defined = name <;> simp [binders, introduces?, same]
  | _ => rfl

def holding (id : NodeId) (nodes : List Expr) : List Expr :=
  (nodes.filter fun node => id ∈ node.ids).reverse

theorem holding_cons_of_mem {id : NodeId} {node : Expr} (inside : id ∈ node.ids) (rest : List Expr) :
    holding id (node :: rest) = holding id rest ++ [node] := by
  rw [holding, List.filter_cons_of_pos (by simpa using inside), List.reverse_cons]
  rfl

theorem holding_append (id : NodeId) (nodes nodes' : List Expr) :
    holding id (nodes ++ nodes') = holding id nodes' ++ holding id nodes := by
  rw [holding, List.filter_append, List.reverse_append]
  rfl

theorem holding_eq_nil {id : NodeId} {nodes : List Expr} (outside : ∀ node ∈ nodes, id ∉ node.ids) :
    holding id nodes = [] := by
  rw [holding, List.filter_eq_nil_iff.mpr (by simpa using outside)]
  rfl

theorem holding_nodes_of_not_mem {id : NodeId} {expr : Expr} (outside : id ∉ expr.ids) :
    holding id expr.nodes = [] :=
  holding_eq_nil fun _ member inside => outside (ids_subset member inside)

theorem holding_flatMap {α : Type} {parts : α → List Expr} {keys : α → List NodeId}
    (within : ∀ a, ∀ node ∈ parts a, node.ids ⊆ keys a) {members : List α}
    (distinct : (members.flatMap keys).Nodup) {a : α} (member : a ∈ members) {id : NodeId}
    (inside : id ∈ keys a) : holding id (members.flatMap parts) = holding id (parts a) := by
  obtain ⟨before, after, rfl⟩ := List.append_of_mem member
  rw [List.flatMap_append, List.flatMap_cons] at distinct ⊢
  obtain ⟨_, distinct, apart⟩ := List.nodup_append'.mp distinct
  obtain ⟨_, _, apart'⟩ := List.nodup_append'.mp distinct
  have elsewhere : ∀ others : List α, id ∉ others.flatMap keys →
      holding id (others.flatMap parts) = [] := by
    intro others absent
    refine holding_eq_nil fun node present held => ?_
    obtain ⟨b, part, present⟩ := List.mem_flatMap.mp present
    exact absent (List.mem_flatMap.mpr ⟨b, part, within b node present held⟩)
  rw [holding_append, holding_append, elsewhere after (apart' inside),
    elsewhere before fun earlier => apart earlier (List.mem_append_left _ inside)]
  simp

theorem holding_cases {expr : Expr} (distinct : expr.ids.Nodup) {id : NodeId} (inside : id ∈ expr.ids) :
    id ∈ expr.ownIds ∧ holding id expr.nodes = [expr] ∨
    ∃ part ∈ expr.parts, id ∈ part.ids ∧
      holding id expr.nodes = holding id part.nodes ++ [expr] := by
  rw [nodes_eq, holding_cons_of_mem inside, innerNodes]
  rw [ids_eq] at distinct inside
  obtain ⟨_, distinct, apart⟩ := List.nodup_append'.mp distinct
  rcases List.mem_append.mp inside with own | inside
  · have none : holding id (expr.parts.flatMap nodes) = [] := by
      refine holding_eq_nil fun node member held => apart own ?_
      obtain ⟨part, present, member⟩ := List.mem_flatMap.mp member
      exact List.mem_flatMap.mpr ⟨part, present, ids_subset member held⟩
    exact Or.inl ⟨own, by rw [none, List.nil_append]⟩
  · obtain ⟨part, present, inside⟩ := List.mem_flatMap.mp inside
    have only := holding_flatMap (fun _ _ member => ids_subset member) distinct present inside
    exact Or.inr ⟨part, present, inside, by rw [only]⟩

theorem nodup_part {expr part : Expr} (distinct : expr.ids.Nodup) (member : part ∈ expr.parts) :
    part.ids.Nodup := by
  rw [ids_eq] at distinct
  obtain ⟨_, distinct, _⟩ := List.nodup_append'.mp distinct
  exact (List.nodup_flatMap.mp distinct).1 part member

theorem holding_nested {expr : Expr} (distinct : expr.ids.Nodup) (id : NodeId) :
    (holding id expr.nodes).Pairwise fun inner outer => inner ∈ outer.nodes := by
  induction expr using induct_parts with
  | step expr ih =>
    by_cases inside : id ∈ expr.ids
    · rcases holding_cases distinct inside with ⟨_, one⟩ | ⟨part, present, _, more⟩
      · rw [one]
        exact List.pairwise_singleton _ _
      · rw [more]
        refine List.pairwise_append.mpr
          ⟨ih part present (nodup_part distinct present), List.pairwise_singleton _ _, ?_⟩
        intro inner member outer last
        rw [List.mem_singleton.mp last]
        exact innerNodes_subset expr (part_nodes_subset present
          (List.mem_of_mem_filter (List.mem_reverse.mp member)))
    · rw [holding_nodes_of_not_mem inside]
      exact List.Pairwise.nil

section Links

variable {scopes : ScopeTree} {parent : NodeId} {path : List NodeId}

theorem part_scopeLinks {expr part : Expr} (member : part ∈ expr.parts) (parent : NodeId) :
    ∃ site ∈ expr.ownIds, part.scopeLinks site ⊆ expr.scopeLinks parent := by
  cases expr with
  | app id operator args =>
    refine ⟨id, List.mem_cons_self, fun link inside => ?_⟩
    rw [scopeLinks, scopeLinksOf_eq]
    exact List.mem_cons_of_mem _ (List.mem_flatMap.mpr ⟨part, member, inside⟩)
  | lambda id params body =>
    cases List.mem_singleton.mp member
    exact ⟨id, List.mem_cons_self, List.subset_append_right _ _⟩
  | letIn id defId name bound body =>
    rcases List.mem_cons.mp member with rfl | member
    · refine ⟨defId, List.mem_cons_of_mem _ List.mem_cons_self, fun link inside => ?_⟩
      simp [scopeLinks, inside]
    · cases List.mem_singleton.mp member
      exact ⟨id, List.mem_cons_self, List.subset_append_right _ _⟩
  | _ => cases member

theorem leads_own (table : NameTable) {expr : Expr} (leads : scopes.Leads parent path)
    (linked : ∀ link ∈ expr.scopeLinks parent, scopes.parent? link.child = some link.parent)
    (locals : table.localsAt expr.id = expr.binders)
    (sites : ∀ id ∈ expr.ownIds, id ≠ expr.id → table.localsAt id = []) {id : NodeId}
    (own : id ∈ expr.ownIds) :
    ∃ inner, scopes.Leads id (inner ++ path) ∧ inner.flatMap table.localsAt = expr.binders := by
  have here : scopes.Leads expr.id (expr.id :: path) := by
    refine .step (linked ⟨expr.id, parent⟩ ?_) leads
    cases expr <;> simp [scopeLinks, Expr.id]
  by_cases same : id = expr.id
  · subst same
    exact ⟨[expr.id], here, by rw [List.flatMap_singleton, locals]⟩
  · -- Parameters and definitions stand directly in their node.
    have link : scopes.parent? id = some expr.id := by
      refine linked ⟨id, expr.id⟩ ?_
      cases expr <;> simp_all [scopeLinks, Expr.id, ownIds]
    exact ⟨[id, expr.id], .step link here, by simp [sites id own same, locals]⟩

/-- The links lead from a node through all that holds it, and the definitions that are seen on the way
are those that these nodes introduce. -/
theorem leads_holding (table : NameTable) {expr : Expr} (leads : scopes.Leads parent path)
    (linked : ∀ link ∈ expr.scopeLinks parent, scopes.parent? link.child = some link.parent)
    (distinct : expr.ids.Nodup)
    (locals : ∀ node ∈ expr.nodes, table.localsAt node.id = node.binders)
    (sites : ∀ node ∈ expr.nodes, ∀ id ∈ node.ownIds, id ≠ node.id → table.localsAt id = [])
    {id : NodeId} (inside : id ∈ expr.ids) :
    ∃ inner, scopes.Leads id (inner ++ path) ∧
      inner.flatMap table.localsAt = (holding id expr.nodes).flatMap binders := by
  induction expr using induct_parts generalizing parent path with
  | step expr ih =>
    have own : ∀ id ∈ expr.ownIds, ∃ inner, scopes.Leads id (inner ++ path) ∧
        inner.flatMap table.localsAt = expr.binders := fun id =>
      leads_own table leads linked (locals expr expr.mem_nodes_self) (sites expr expr.mem_nodes_self)
    rcases holding_cases distinct inside with ⟨owned, one⟩ | ⟨part, present, within, more⟩
    · rw [one, List.flatMap_singleton]
      exact own id owned
    · obtain ⟨site, owned, links⟩ := part_scopeLinks present parent
      obtain ⟨outer, around, seen⟩ := own site owned
      have nodes := List.Subset.trans (part_nodes_subset present) expr.innerNodes_subset
      obtain ⟨inner, leads, seen'⟩ := ih part present around (fun link member => linked link (links member))
        (nodup_part distinct present) (fun node member => locals node (nodes member))
        (fun node member => sites node (nodes member)) within
      refine ⟨inner ++ outer, by rwa [List.append_assoc], ?_⟩
      rw [more, List.flatMap_append, List.flatMap_append, List.flatMap_singleton, seen, seen']

end Links

end Expr

namespace Declaration

def introduces? (name : String) : Declaration → Option NameDefinition
  | .stateVariable id declared =>
    if declared = name then some ⟨.stateVariable, name, some id, none⟩ else none
  | .constant id declared =>
    if declared = name then some ⟨.constant, name, some id, none⟩ else none
  | .operator definition =>
    if definition.name = name then some ⟨.operator, name, some definition.id, none⟩ else none
  | _ => none

theorem node_ids_subset {declaration : Declaration} {node : Expr} (inside : node ∈ declaration.nodes) :
    node.ids ⊆ declaration.ownIds := by
  obtain ⟨expr, holds, inside⟩ := expr_of_mem_nodes inside
  exact fun id held => mem_ownIds_of_expr holds (Expr.ids_subset inside held)

theorem introduces?_eq (name : String) (declaration : Declaration) : declaration.introduces? name =
    declaration.definitions.find? fun definition =>
      definition.identifier = name && definition.scope = none := by
  have locals : ∀ expr : Expr, (expr.localDefinitions.find? fun definition =>
      definition.identifier = name && definition.scope = none) = none := by
    intro expr
    refine List.find?_eq_none.mpr fun definition member => ?_
    obtain ⟨scope, _, _, _, limited, _⟩ := Expr.localDefinitions_spec member
    simp [limited]
  cases declaration with
  | stateVariable id declared => by_cases same : declared = name <;> simp [introduces?, definitions, same]
  | constant id declared => by_cases same : declared = name <;> simp [introduces?, definitions, same]
  | operator definition =>
    by_cases same : definition.name = name <;> simp [introduces?, definitions, same, locals]
  | assumption id declared expr => exact (locals expr).symm
  | submodule id declared declarations => rfl

end Declaration

namespace Module

variable {m n : Module} {names : List String} {name : String} {id : NodeId}

def around (n : Module) (id : NodeId) : List Expr :=
  Expr.holding id (n.declarations.flatMap Declaration.nodes)

/-- What a name means at a node of the module, where these names are builtins. -/
def meaning (n : Module) (names : List String) (name : String) (id : NodeId) :
    Option NameDefinition :=
  ((n.around id).findSome? (Expr.introduces? name)).or
    (if name ∈ names then some (NameTable.builtin name)
    else n.declarations.findSome? (Declaration.introduces? name))

theorem localsAt_eq_nil
    (absent : ∀ declaration ∈ n.declarations, ∀ node ∈ declaration.nodes, node.id ≠ id) :
    (NameTable.ofDeclarations names n.declarations).localsAt id = [] := by
  rw [NameTable.localsAt_ofDeclarations]
  exact List.flatMap_eq_nil_iff.mpr fun declaration present =>
    List.flatMap_eq_nil_iff.mpr fun node inside => if_neg (absent declaration present node inside)

theorem outside_head (distinct : n.ids.Nodup) (head : id ∈ n.toDeclaration.headIds)
    {declaration : Declaration} (present : declaration ∈ n.declarations) {node : Expr}
    (inside : node ∈ declaration.nodes) : id ∉ node.ids := by
  intro held
  have all := mem_all_of_mem_declarations (mem_modules.mpr n.toDeclaration.mem_all_self) present
  obtain ⟨expr, holds, inside⟩ := Declaration.expr_of_mem_nodes inside
  exact Declaration.not_mem_headIds distinct all holds (Expr.ids_subset inside held) head

theorem nodup_expr (distinct : n.ids.Nodup) {declaration : Declaration}
    (present : declaration ∈ n.declarations) {expr : Expr} (holds : declaration.expr? = some expr) :
    expr.ids.Nodup := by
  have all := mem_all_of_mem_declarations (mem_modules.mpr n.toDeclaration.mem_all_self) present
  have nodup := (List.nodup_flatMap.mp distinct).1 declaration all
  rw [Declaration.ownIds, holds] at nodup
  exact (List.nodup_cons.mp nodup).2

theorem around_head (distinct : n.ids.Nodup) (head : id ∈ n.toDeclaration.headIds) :
    n.around id = [] := by
  refine Expr.holding_eq_nil fun node member => ?_
  obtain ⟨declaration, present, inside⟩ := List.mem_flatMap.mp member
  exact outside_head distinct head present inside

theorem around_expr (distinct : n.ids.Nodup) {declaration : Declaration}
    (present : declaration ∈ n.declarations) {expr : Expr} (holds : declaration.expr? = some expr)
    (inside : id ∈ expr.ids) : n.around id = Expr.holding id expr.nodes := by
  have only := Expr.holding_flatMap (fun _ _ => Declaration.node_ids_subset)
    (List.nodup_cons.mp (nodup_ownIds distinct)).2 present
    (Declaration.mem_ownIds_of_expr holds inside)
  rw [around, only, Declaration.nodes, holds]
  rfl

theorem around_nested (distinct : n.ids.Nodup) (id : NodeId) :
    (n.around id).Pairwise fun inner outer => inner ∈ outer.nodes := by
  by_cases inside : ∃ declaration ∈ n.declarations, ∃ expr, declaration.expr? = some expr ∧ id ∈ expr.ids
  · obtain ⟨declaration, present, expr, holds, inside⟩ := inside
    rw [around_expr distinct present holds inside]
    exact Expr.holding_nested (nodup_expr distinct present holds) id
  · have none : n.around id = [] := by
      refine Expr.holding_eq_nil fun node member held => inside ?_
      obtain ⟨declaration, present, member⟩ := List.mem_flatMap.mp member
      obtain ⟨expr, holds, member⟩ := Declaration.expr_of_mem_nodes member
      exact ⟨declaration, present, expr, holds, Expr.ids_subset member held⟩
    rw [none]
    exact List.Pairwise.nil

theorem leads_around (distinct : n.ids.Nodup) (names : List String)
    (own : id ∈ n.id :: n.declarations.flatMap Declaration.ownIds) :
    ∃ path, n.scopeTree.Leads id path ∧
      path.flatMap (NameTable.ofDeclarations names n.declarations).localsAt =
        (n.around id).flatMap Expr.binders := by
  have inner : ∀ {declaration : Declaration}, declaration ∈ n.declarations →
      declaration ∈ n.toDeclaration.all := fun present =>
    mem_all_of_mem_declarations (mem_modules.mpr n.toDeclaration.mem_all_self) present
  have heads : ∀ {head : NodeId}, head ∈ n.toDeclaration.headIds →
      (NameTable.ofDeclarations names n.declarations).localsAt head = [] := fun head =>
    localsAt_eq_nil fun declaration present node inside same =>
      outside_head distinct head present inside (same ▸ node.id_mem_ids)
  have root_head : n.id ∈ n.toDeclaration.headIds :=
    Declaration.id_mem_headIds n.toDeclaration.mem_all_self
  have root := leads_root distinct
  rcases List.mem_cons.mp own with rfl | own
  · refine ⟨[n.id], root, ?_⟩
    rw [around_head distinct root_head, List.flatMap_singleton, heads root_head]
    rfl
  · obtain ⟨declaration, present, own⟩ := List.mem_flatMap.mp own
    have head := Declaration.id_mem_headIds (inner present)
    have linked : ∀ link ∈ declaration.scopeLinks n.id,
        n.scopeTree.parent? link.child = some link.parent :=
      fun link member => parent?_of_link distinct present member
    have leads : n.scopeTree.Leads declaration.id [declaration.id, n.id] := by
      refine .step (linked ⟨declaration.id, n.id⟩ ?_) root
      cases declaration <;> exact List.mem_cons_self
    rcases List.mem_cons.mp own with rfl | own
    · refine ⟨_, leads, ?_⟩
      simp [around_head distinct head, heads head, heads root_head]
    · cases holds : declaration.expr? with
      | none => simp [holds] at own
      | some expr =>
        rw [holds] at own
        have nodes : declaration.nodes = expr.nodes := by rw [Declaration.nodes, holds]; rfl
        rw [Declaration.scopeLinks_of_expr holds] at linked
        obtain ⟨path, path_leads, seen⟩ := Expr.leads_holding (.ofDeclarations names n.declarations)
          leads (fun link member => linked link (List.mem_cons_of_mem _ member))
          (nodup_expr distinct present holds)
          (fun node inside => localsAt_own distinct present (nodes ▸ inside))
          (fun node inside id owned other => localsAt_eq_nil fun _ present' node' inside' same =>
            other (node_unique distinct (inner present) (inner present') (nodes ▸ inside) inside' owned
              (same ▸ node'.id_mem_ownIds) ▸ same.symm)) own
        refine ⟨_, path_leads, ?_⟩
        rw [around_expr distinct present holds own, List.flatMap_append, seen]
        simp [heads head, heads root_head]

theorem find?_unscoped (names : List String) (declarations : List Declaration) (name : String) :
    ((NameTable.ofDeclarations names declarations).definitions.find? fun definition =>
      definition.identifier = name && definition.scope = none) =
    if name ∈ names then some (NameTable.builtin name)
    else declarations.findSome? (Declaration.introduces? name) := by
  rw [NameTable.ofDeclarations, List.find?_append, NameTable.find?_builtin, List.find?_flatMap]
  simp only [← Declaration.introduces?_eq]
  split <;> rfl

/-- Lookup is lexical scoping. Where ids and the names of modules are distinct, a name means at every
node of a module what the text around the node says, and the expressions around a node stand in each
other. -/
theorem lookup_is_lexical_scoping (distinct : m.ids.Nodup) (apart : m.moduleNames.Nodup)
    (within : n ∈ m.modules) (names : List String) (name : String)
    (own : id ∈ n.id :: n.declarations.flatMap Declaration.ownIds) :
    (∃ table, (m.nameTables names).get? n.name = some table ∧
      table.resolve n.scopeTree name id = .ok (n.meaning names name id)) ∧
    (n.around id).Pairwise fun inner outer => inner ∈ outer.nodes := by
  have distinct := nodup_ids distinct within
  refine ⟨⟨_, NameTables.get?_addDeclared_own apart (mem_modules.mp within) ∅, ?_⟩,
    around_nested distinct id⟩
  obtain ⟨path, leads, seen⟩ := leads_around distinct names own
  rw [NameTable.resolve_of_leads _ leads, seen, NameTable.meaning, find?_unscoped,
    List.find?_flatMap]
  simp only [← Expr.introduces?_eq]
  rfl

/-- A lambda with two parameters `x`, in it a let that defines `y` by itself, and in its body another
lambda with a parameter `y`; `x` is declared in both modules as well, and `b` is a builtin. -/
theorem lexical_scoping_of_shadowed_names :
    let n : Module := ⟨⟨3⟩, "N", [.operator ⟨⟨5⟩, "f", .lambda ⟨6⟩ [⟨⟨7⟩, "x"⟩, ⟨⟨8⟩, "x"⟩]
      (.letIn ⟨9⟩ ⟨10⟩ "y" (.ref ⟨11⟩ "y")
        (.lambda ⟨12⟩ [⟨⟨13⟩, "y"⟩] (.app ⟨14⟩ "b" [.ref ⟨15⟩ "x", .ref ⟨16⟩ "y"])))⟩,
      .constant ⟨4⟩ "x", .operator ⟨⟨17⟩, "b", .ref ⟨18⟩ "x"⟩]⟩
    let m : Module := ⟨⟨1⟩, "M", [.stateVariable ⟨2⟩ "x", n.toDeclaration]⟩
    let meant := fun name id definition => ∃ table, (m.nameTables ["b"]).get? "N" = some table ∧
      table.resolve n.scopeTree name id = .ok definition
    m.ids.Nodup ∧ m.moduleNames.Nodup ∧ n ∈ m.modules ∧
      meant "x" ⟨15⟩ (some ⟨.parameter, "x", some ⟨7⟩, some ⟨6⟩⟩) ∧
      meant "y" ⟨16⟩ (some ⟨.parameter, "y", some ⟨13⟩, some ⟨12⟩⟩) ∧
      meant "y" ⟨11⟩ (some ⟨.operator, "y", some ⟨10⟩, some ⟨9⟩⟩) ∧
      meant "x" ⟨18⟩ (some ⟨.constant, "x", some ⟨4⟩, none⟩) ∧
      meant "b" ⟨14⟩ (some ⟨.operator, "b", none, none⟩) ∧ meant "y" ⟨5⟩ none := by
  intro n m meant
  have distinct : m.ids.Nodup := by decide
  have apart : m.moduleNames.Nodup := by decide
  have within : n ∈ m.modules := List.mem_cons_of_mem _ List.mem_cons_self
  have lookup : ∀ name, ∀ id ∈ n.id :: n.declarations.flatMap Declaration.ownIds,
      meant name id (n.meaning ["b"] name id) :=
    fun name id own => (lookup_is_lexical_scoping distinct apart within ["b"] name own).1
  exact ⟨distinct, apart, within, lookup "x" ⟨15⟩ (by decide), lookup "y" ⟨16⟩ (by decide),
    lookup "y" ⟨11⟩ (by decide), lookup "x" ⟨18⟩ (by decide), lookup "b" ⟨14⟩ (by decide),
    lookup "y" ⟨5⟩ (by decide)⟩

end Module

end SpecEffects
