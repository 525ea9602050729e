import SpecEffects.Proofs.Sorted
import SpecEffects.Proofs.Tree
import SpecEffects.Scope.Names

/-!
Where the definitions that names mean come from. A name means a definition without a scope, or one
whose scope lies around the node. Where ids are distinct, a scope around a node of an expression is
a node of the same expression, and so is the node that introduces the name there.
-/
namespace SpecEffects

namespace SortedMap

variable {κ ν : Type} [Ord κ] [DecidableEq κ] [Std.TransOrd κ] [Std.LawfulEqOrd κ]

theorem mem_of_get?_ofList {entries : List (κ × ν)} {k : κ} {v : ν}
    (found : (ofList entries).get? k = some v) : (k, v) ∈ entries := by
  have inserted : ∀ (entries : List (κ × ν)) (m : SortedMap κ ν),
      (entries.foldl (fun m entry => m.insert entry.1 entry.2) m).get? k = some v →
      (k, v) ∈ entries ∨ m.get? k = some v := by
    intro entries
    induction entries with
    | nil => exact fun m found => Or.inr found
    | cons entry rest ih =>
      intro m found
      rcases ih _ found with later | here
      · exact Or.inl (List.mem_cons_of_mem _ later)
      · rw [get?_insert] at here
        split at here
        · rename_i same
          cases here
          subst same
          exact Or.inl List.mem_cons_self
        · exact Or.inr here
  rcases inserted entries ∅ found with member | absurd
  · exact member
  · cases absurd

end SortedMap

namespace ScopeTree

variable {scopes : ScopeTree} {inside : NodeId → Prop}

theorem path_inside
    (closed : ∀ id parent, inside id → scopes.parent? id = some parent → inside parent)
    {id : NodeId} {path : List NodeId} (run : scopes.path id = .ok path) (start : inside id) :
    ∀ node ∈ path, inside node := by
  have ascends : ∀ limit id path, scopes.ascend limit id = some path → inside id →
      ∀ node ∈ path, inside node := by
    intro limit
    induction limit with
    | zero =>
      intro id path absurd
      cases absurd
    | succ limit ih =>
      intro id path run start
      simp only [ascend] at run
      split at run
      · cases run
        intro node member
        rw [List.mem_singleton.mp member]
        exact start
      · rename_i parent link
        obtain ⟨rest, later, rfl⟩ := Option.map_eq_some_iff.mp run
        intro node member
        rcases List.mem_cons.mp member with rfl | member
        · exact start
        · exact ih parent rest later (closed id parent start link) node member
  unfold ScopeTree.path at run
  split at run
  · rename_i found ascended
    cases run
    exact ascends _ id _ ascended start
  · cases run

end ScopeTree

namespace NameTable

theorem mem_of_innermost? {candidates : List NameDefinition} {path : List NodeId}
    {definition : NameDefinition} (chosen : innermost? candidates path = some definition) :
    definition ∈ candidates := by
  rw [innermost?, Option.or_eq_some_iff] at chosen
  rcases chosen with limited | ⟨_, unlimited⟩
  · obtain ⟨_, _, found⟩ := List.exists_of_findSome?_eq_some limited
    exact List.mem_of_find?_eq_some found
  · exact List.mem_of_find?_eq_some unlimited

variable {table : NameTable} {scopes : ScopeTree} {name : String} {id : NodeId}
  {definition : NameDefinition} (run : table.resolve scopes name id = .ok (some definition))

include run

theorem resolve_chosen : ∃ path, scopes.path id = .ok path ∧
    innermost? (table.definitionsOf name) path = some definition := by
  unfold resolve at run
  split at run
  · cases run
  · cases walked : scopes.path id with
    | error endless =>
      rw [walked] at run
      cases run
    | ok path =>
      rw [walked] at run
      exact ⟨path, rfl, Except.ok.inj run⟩

theorem mem_definitionsOf_of_resolve : definition ∈ table.definitionsOf name := by
  obtain ⟨_, _, chosen⟩ := resolve_chosen run
  exact mem_of_innermost? chosen

theorem resolve_spec : definition ∈ table.definitions ∧ ∃ path, scopes.path id = .ok path ∧
    (definition.scope = none ∨ ∃ scope ∈ path, definition.scope = some scope) := by
  obtain ⟨path, walked, chosen⟩ := resolve_chosen run
  refine ⟨List.mem_of_mem_filter (mem_of_innermost? chosen), path, walked, ?_⟩
  rw [innermost?, Option.or_eq_some_iff] at chosen
  rcases chosen with limited | ⟨_, unlimited⟩
  · obtain ⟨scope, member, found⟩ := List.exists_of_findSome?_eq_some limited
    have at_scope := List.find?_some found
    exact Or.inr ⟨scope, member, by simpa using at_scope⟩
  · have no_scope := List.find?_some unlimited
    exact Or.inl (by simpa using no_scope)

end NameTable

namespace Expr

theorem scopeLinksOf_eq (parent : NodeId) (exprs : List Expr) :
    scopeLinksOf parent exprs = exprs.flatMap (scopeLinks parent) := by
  induction exprs with
  | nil => rfl
  | cons expr rest ih => rw [scopeLinksOf, ih, List.flatMap_cons]

theorem localDefinitionsOf_eq (exprs : List Expr) :
    localDefinitionsOf exprs = exprs.flatMap localDefinitions := by
  induction exprs with
  | nil => rfl
  | cons expr rest ih => rw [localDefinitionsOf, ih, List.flatMap_cons]

theorem scopeLinks_spec {expr : Expr} {parent : NodeId} {link : ScopeLink}
    (member : link ∈ expr.scopeLinks parent) :
    link.child ∈ expr.ids ∧ (link.parent = parent ∨ link.parent ∈ expr.ids) := by
  induction expr generalizing parent with
  | literal id value =>
    cases List.mem_singleton.mp member
    exact ⟨List.mem_cons_self, Or.inl rfl⟩
  | ref id name =>
    cases List.mem_singleton.mp member
    exact ⟨List.mem_cons_self, Or.inl rfl⟩
  | app id operator args ih =>
    rw [scopeLinks, scopeLinksOf_eq] at member
    rcases List.mem_cons.mp member with rfl | member
    · exact ⟨id_mem_ids _, Or.inl rfl⟩
    · obtain ⟨arg, present, member⟩ := List.mem_flatMap.mp member
      obtain ⟨child, above⟩ := ih arg present member
      refine ⟨arg_ids_subset present child, Or.inr ?_⟩
      rcases above with rfl | above
      · exact id_mem_ids (.app _ operator args)
      · exact arg_ids_subset present above
  | lambda id params body ih =>
    simp only [scopeLinks, List.mem_append, List.mem_cons, List.mem_map] at member
    rcases member with (rfl | ⟨param, present, rfl⟩) | member
    · exact ⟨id_mem_ids _, Or.inl rfl⟩
    · have own : param.id ∈ (lambda id params body).ids := by
        rw [ids_lambda]
        exact List.mem_cons_of_mem _ (List.mem_append_left _ (List.mem_map_of_mem present))
      exact ⟨own, Or.inr (id_mem_ids _)⟩
    · obtain ⟨child, above⟩ := ih member
      refine ⟨lambda_body_ids_subset child, Or.inr ?_⟩
      rcases above with rfl | above
      · exact id_mem_ids (.lambda _ params body)
      · exact lambda_body_ids_subset above
  | letIn id defId name bound body ih ih' =>
    have defined : defId ∈ (letIn id defId name bound body).ids := by simp [ids_letIn]
    simp only [scopeLinks, List.mem_append, List.mem_cons] at member
    rcases member with (rfl | rfl | member) | member
    · exact ⟨id_mem_ids _, Or.inl rfl⟩
    · exact ⟨defined, Or.inr (id_mem_ids _)⟩
    · obtain ⟨child, above⟩ := ih member
      refine ⟨bound_ids_subset child, Or.inr ?_⟩
      rcases above with rfl | above
      · exact defined
      · exact bound_ids_subset above
    · obtain ⟨child, above⟩ := ih' member
      refine ⟨let_body_ids_subset child, Or.inr ?_⟩
      rcases above with rfl | above
      · exact id_mem_ids (.letIn _ defId name bound body)
      · exact let_body_ids_subset above

theorem localDefinitions_spec {expr : Expr} {definition : NameDefinition}
    (member : definition ∈ expr.localDefinitions) :
    ∃ scope ∈ expr.ids, ∃ site ∈ expr.ids,
      definition.scope = some scope ∧ definition.reference = some site := by
  induction expr with
  | literal id value => cases member
  | ref id name => cases member
  | app id operator args ih =>
    rw [localDefinitions, localDefinitionsOf_eq] at member
    obtain ⟨arg, present, member⟩ := List.mem_flatMap.mp member
    obtain ⟨scope, around, site, introduced, parts⟩ := ih arg present member
    exact ⟨scope, arg_ids_subset present around, site, arg_ids_subset present introduced, parts⟩
  | lambda id params body ih =>
    rw [localDefinitions] at member
    rcases List.mem_append.mp member with own | member
    · obtain ⟨param, present, rfl⟩ := List.mem_map.mp own
      refine ⟨id, id_mem_ids (.lambda id params body), param.id, ?_, rfl, rfl⟩
      rw [ids_lambda]
      exact List.mem_cons_of_mem _ (List.mem_append_left _ (List.mem_map_of_mem present))
    · obtain ⟨scope, around, site, introduced, parts⟩ := ih member
      exact ⟨scope, lambda_body_ids_subset around, site, lambda_body_ids_subset introduced, parts⟩
  | letIn id defId name bound body ih ih' =>
    rw [localDefinitions] at member
    rcases List.mem_append.mp member with member | member
    · rcases List.mem_cons.mp member with rfl | member
      · exact ⟨id, id_mem_ids (.letIn id defId name bound body), defId, by simp [ids_letIn], rfl, rfl⟩
      · obtain ⟨scope, around, site, introduced, parts⟩ := ih member
        exact ⟨scope, bound_ids_subset around, site, bound_ids_subset introduced, parts⟩
    · obtain ⟨scope, around, site, introduced, parts⟩ := ih' member
      exact ⟨scope, let_body_ids_subset around, site, let_body_ids_subset introduced, parts⟩

end Expr

namespace Declaration

theorem scopeLinks_spec {declaration : Declaration} {parent : NodeId} {link : ScopeLink}
    (member : link ∈ declaration.scopeLinks parent) :
    link.child = declaration.id ∧ link.parent = parent ∨
    ∃ expr, declaration.expr? = some expr ∧ link.child ∈ expr.ids ∧
      (link.parent = declaration.id ∨ link.parent ∈ expr.ids) := by
  cases declaration with
  | operator definition =>
    rcases List.mem_cons.mp member with rfl | member
    · exact Or.inl ⟨rfl, rfl⟩
    · exact Or.inr ⟨definition.body, rfl, Expr.scopeLinks_spec member⟩
  | assumption id name expr =>
    rcases List.mem_cons.mp member with rfl | member
    · exact Or.inl ⟨rfl, rfl⟩
    · exact Or.inr ⟨expr, rfl, Expr.scopeLinks_spec member⟩
  | _ =>
    cases List.mem_singleton.mp member
    exact Or.inl ⟨rfl, rfl⟩

theorem definitions_spec {declaration : Declaration} {definition : NameDefinition}
    (member : definition ∈ declaration.definitions) :
    definition.kind ≠ .parameter ∧ definition.scope = none ∧
      definition.reference = some declaration.id ∨
    ∃ expr, declaration.expr? = some expr ∧ definition ∈ expr.localDefinitions := by
  cases declaration with
  | stateVariable id name =>
    cases List.mem_singleton.mp member
    exact Or.inl ⟨nofun, rfl, rfl⟩
  | constant id name =>
    cases List.mem_singleton.mp member
    exact Or.inl ⟨nofun, rfl, rfl⟩
  | operator own =>
    rcases List.mem_cons.mp member with rfl | member
    · exact Or.inl ⟨nofun, rfl, rfl⟩
    · exact Or.inr ⟨own.body, rfl, member⟩
  | assumption id name expr => exact Or.inr ⟨expr, rfl, member⟩
  | submodule id name declarations => cases member

end Declaration

namespace NameTables

variable {names : List String} {key : String} {table : NameTable}

theorem get?_addDeclared {declaration : Declaration} {tables : NameTables}
    (found : (addDeclared names tables declaration).get? key = some table) :
    tables.get? key = some table ∨ ∃ n : Module, n.toDeclaration ∈ declaration.all ∧
      table = .ofDeclarations names n.declarations := by
  induction declaration generalizing tables with
  | submodule id name declarations ih =>
    have inside : ∀ (rest : List Declaration) (tables : NameTables), rest ⊆ declarations →
        (addAllDeclared names tables rest).get? key = some table →
        tables.get? key = some table ∨
          ∃ n : Module, n.toDeclaration ∈ declarations.flatMap Declaration.all ∧
            table = .ofDeclarations names n.declarations := by
      intro rest
      induction rest with
      | nil => exact fun tables _ found => Or.inl found
      | cons declaration rest ih' =>
        intro tables part found
        obtain ⟨present, part⟩ := List.cons_subset.mp part
        rcases ih' _ part found with earlier | later
        · rcases ih declaration present earlier with before | ⟨n, member, same⟩
          · exact Or.inl before
          · exact Or.inr ⟨n, List.mem_flatMap.mpr ⟨declaration, present, member⟩, same⟩
        · exact Or.inr later
    rw [addDeclared, SortedMap.get?_insert] at found
    rw [Declaration.all_submodule]
    split at found
    · cases found
      exact Or.inr ⟨⟨id, name, declarations⟩, List.mem_cons_self, rfl⟩
    · rcases inside declarations tables (List.Subset.refl _) found with before | ⟨n, member, same⟩
      · exact Or.inl before
      · exact Or.inr ⟨n, List.mem_cons_of_mem _ member, same⟩
  | _ => exact Or.inl found

end NameTables

namespace Module

variable {m n : Module} {names : List String} {key name : String} {table : NameTable} {id : NodeId}
  {definition : NameDefinition}

theorem definitions_spec (found : (m.nameTables names).get? key = some table)
    (member : definition ∈ table.definitions) :
    definition.kind = .operator ∧ definition.reference = none ∨
    ∃ declaration ∈ m.toDeclaration.all, definition ∈ declaration.definitions := by
  rcases NameTables.get?_addDeclared found with absurd | ⟨inner, inside, rfl⟩
  · cases absurd
  · rcases List.mem_append.mp member with builtin | declared
    · obtain ⟨name, _, rfl⟩ := List.mem_map.mp builtin
      exact Or.inl ⟨rfl, rfl⟩
    · obtain ⟨declaration, present, member⟩ := List.mem_flatMap.mp declared
      have all := mem_all_of_mem_declarations (mem_modules.mpr inside) present
      exact Or.inr ⟨declaration, all, member⟩

theorem site_of_operator (found : (m.nameTables names).get? key = some table)
    (member : definition ∈ table.definitions) (visible : definition.scope = none) {site : NodeId}
    (reference : definition.reference = some site) : site ∈ m.toDeclaration.headIds := by
  rcases definitions_spec found member with ⟨_, none⟩ | ⟨declaration, inside, member⟩
  · cases none.symm.trans reference
  · rcases Declaration.definitions_spec member with ⟨_, _, own⟩ | ⟨expr, _, member⟩
    · cases own.symm.trans reference
      exact Declaration.id_mem_headIds inside
    · obtain ⟨scope, _, _, _, limited, _⟩ := Expr.localDefinitions_spec member
      cases limited.symm.trans visible

variable (distinct : m.ids.Nodup) (within : n ∈ m.modules) {declaration : Declaration}
  (present : declaration ∈ n.declarations) {expr : Expr} (holds : declaration.expr? = some expr)

include distinct within present holds

/-- The links of a module lead from an expression to its declaration, and never from there into
another expression. -/
theorem parent_inside {parent : NodeId} (inside : id ∈ expr.ids ∨ id ∈ m.toDeclaration.headIds)
    (link : n.scopeTree.parent? id = some parent) :
    parent ∈ expr.ids ∨ parent ∈ m.toDeclaration.headIds := by
  have listed := SortedMap.mem_of_get?_ofList link
  obtain ⟨found, member, same⟩ := List.mem_map.mp listed
  cases same
  obtain ⟨other, present', member⟩ := List.mem_flatMap.mp member
  have all := mem_all_of_mem_declarations within present
  have all' := mem_all_of_mem_declarations within present'
  rcases Declaration.scopeLinks_spec member with ⟨_, above⟩ | ⟨expr', holds', child, above⟩
  · rw [above]
    exact Or.inr (Declaration.id_mem_headIds (mem_modules.mp within))
  · rcases above with above | above
    · rw [above]
      exact Or.inr (Declaration.id_mem_headIds all')
    · -- Both ends are in one expression, and it has the child in common with this one.
      have own : found.child ∈ expr.ids :=
        inside.resolve_right (Declaration.not_mem_headIds distinct all' holds' child)
      cases Declaration.expr_unique distinct all all' holds holds' own child
      exact Or.inl above

theorem site_of_parameter (found : (m.nameTables names).get? key = some table)
    (inside : id ∈ expr.ids) (run : table.resolve n.scopeTree name id = .ok (some definition))
    (parameter : definition.kind = .parameter) {site : NodeId}
    (reference : definition.reference = some site) : site ∈ expr.ids := by
  obtain ⟨member, path, walked, chosen⟩ := NameTable.resolve_spec run
  rcases definitions_spec found member with ⟨operator, _⟩ | ⟨other, all', member⟩
  · cases operator.symm.trans parameter
  · rcases Declaration.definitions_spec member with ⟨absurd, _⟩ | ⟨expr', holds', member⟩
    · exact absurd.elim parameter
    · obtain ⟨scope, around, introduced, own, limited, same⟩ := Expr.localDefinitions_spec member
      cases same.symm.trans reference
      rcases chosen with unlimited | ⟨_, on_path, limited'⟩
      · cases limited.symm.trans unlimited
      · cases limited.symm.trans limited'
        have reached := ScopeTree.path_inside
          (fun _ _ => parent_inside distinct within present holds) walked (Or.inl inside) scope
          on_path
        -- Scopes of parameters are ids of expressions, so this one is not at the end of the path.
        have here : scope ∈ expr.ids :=
          reached.resolve_right (Declaration.not_mem_headIds distinct all' holds' around)
        cases Declaration.expr_unique distinct (mem_all_of_mem_declarations within present) all'
          holds holds' here around
        exact own

end Module

end SpecEffects
