import SpecEffects.Proofs.Inference.Ownership
import SpecEffects.Proofs.Inference.Verdicts
import SpecEffects.Proofs.Meaning

/-!
What inference reads of its context. It looks up the names that expressions use, and nothing else.
Where these mean the same in two contexts, both lead to the same states. Declarations that stand in
two modules at once find the same definitions there if the tables of both modules agree on the names
that are not bound locally.
-/
namespace SpecEffects

theorem Expr.site_of_mem_binders {node : Expr} {definition : NameDefinition}
    (member : definition ∈ node.binders) {site : NodeId} (reference : definition.reference = some site) :
    site ∈ node.ownIds := by
  cases node with
  | lambda id params body =>
    obtain ⟨param, present, rfl⟩ := List.mem_map.mp member
    cases reference
    exact List.mem_cons_of_mem _ (List.mem_map_of_mem present)
  | letIn id defId name bound body =>
    cases List.mem_singleton.mp member
    cases reference
    exact List.mem_cons_of_mem _ List.mem_cons_self
  | _ => cases member

theorem Declaration.introduces?_spec {declaration : Declaration} {name : String}
    {definition : NameDefinition} (introduced : declaration.introduces? name = some definition) :
    declaration.name? = some name ∧ definition.reference = some declaration.id ∧
      definition.kind ≠ .parameter := by
  cases declaration with
  | assumption id declared expr => cases introduced
  | submodule id declared declarations => cases introduced
  | _ =>
    obtain ⟨rfl, same⟩ := Option.ite_none_right_eq_some.mp introduced
    cases same
    exact ⟨rfl, rfl, by simp⟩

namespace Inference

/-- Both contexts take a name to mean the same at a node, or both take it to be a builtin. -/
def SameSense (context context' : Context) (name : String) (id : NodeId) : Prop :=
  context'.resolve name id = context.resolve name id ∨
  ∃ definition? definition?', context.resolve name id = .ok definition? ∧
    context'.resolve name id = .ok definition?' ∧
    MeansBuiltin definition? ∧ MeansBuiltin definition?'

section Steps

variable {context context' : Context} (same : context'.signatures = context.signatures)

include same

theorem signature?_context (state : State) (name : String) (arity : Nat)
    (definition? : Option NameDefinition) :
    state.signature? context' name arity definition? =
      state.signature? context name arity definition? := by
  cases definition? <;> simp only [State.signature?, same]

theorem inferOperatorRef_context (state : State) (id : NodeId) (name : String)
    (definition? : Option NameDefinition) :
    state.inferOperatorRef context' id name definition? =
      state.inferOperatorRef context id name definition? := by
  simp only [State.inferOperatorRef, signature?_context same]

variable {name : String} {id : NodeId} (sense : SameSense context context' name id)

include sense

theorem inferRef_sense (state : State) :
    state.inferRef context' id name = state.inferRef context id name := by
  rcases sense with equal | ⟨definition?, definition?', resolved, resolved', means, means'⟩
  · simp only [State.inferRef, equal, inferOperatorRef_context same]
  · rw [inferRef_of_builtin resolved means, inferRef_of_builtin resolved' means']
    simp only [State.inferOperatorRef, signature?_builtin means, signature?_builtin means', same]

theorem inferApplication_sense (state : State) (args : List Expr) :
    state.inferApplication context' id name args = state.inferApplication context id name args := by
  rcases sense with equal | ⟨definition?, definition?', resolved, resolved', means, means'⟩
  · simp only [State.inferApplication, equal, signature?_context same]
  · simp only [State.inferApplication, resolved, resolved', State.orHalt, Except.mapError, bind,
      Except.bind, signature?_builtin means, signature?_builtin means', same]

end Steps

/-- What inference does depends only on what the names mean that it comes to. -/
theorem inferExpr_sense {context context' : Context} {expr : Expr}
    (sense : ∀ node ∈ expr.nodes, ∀ name, node.used? = some name →
      SameSense context context' name node.id)
    (same : context'.signatures = context.signatures) (state : State) :
    inferExpr context' state expr = inferExpr context state expr := by
  induction expr generalizing state with
  | literal id value => rfl
  | ref id name =>
    rw [inferExpr, inferExpr]
    exact inferRef_sense same (sense (.ref id name) List.mem_cons_self name rfl) state
  | app id operator args ih =>
    rw [Expr.nodes, Expr.nodesOf_eq] at sense
    have here : SameSense context context' operator id :=
      sense (.app id operator args) List.mem_cons_self operator rfl
    have inner : ∀ rest ⊆ args, ∀ state,
        inferExprs context' state rest = inferExprs context state rest := by
      intro rest part
      induction rest with
      | nil => exact fun _ => rfl
      | cons arg rest ih' =>
        obtain ⟨present, part⟩ := List.cons_subset.mp part
        intro state
        rw [inferExprs, inferExprs, ih arg present fun node member => sense node
          (List.mem_cons_of_mem _ (List.mem_flatMap.mpr ⟨arg, present, member⟩))]
        simp only [ih' part]
    rw [inferExpr, inferExpr, inner args (List.Subset.refl _)]
    simp only [inferApplication_sense same here]
  | lambda id params body ih =>
    have inner := ih fun node member => sense node (List.mem_cons_of_mem _ member)
    simp only [inferExpr, inner]
  | letIn id defId name bound body ih ih' =>
    have first := ih fun node member => sense node (by simp [Expr.nodes, member])
    have second := ih' fun node member => sense node (by simp [Expr.nodes, member])
    simp only [inferExpr, first, second]

theorem inferDeclarations_congr {env env' : Environment} {context context' : Context}
    {declarations : List Declaration}
    (each : ∀ declaration ∈ declarations, ∀ state,
      inferDeclaration env' context' state declaration =
        inferDeclaration env context state declaration) (state : State) :
    inferDeclarations env' context' state declarations =
      inferDeclarations env context state declarations := by
  induction declarations generalizing state with
  | nil => rfl
  | cons declaration rest ih =>
    rw [inferDeclarations, inferDeclarations, each declaration List.mem_cons_self]
    simp only [ih fun other member => each other (List.mem_cons_of_mem _ member)]

/-- The names that an expression uses mean the same in both contexts. What is not recorded at a node
of the expression itself is recorded at one of these nodes. -/
structure ReadsAlike (sites : NodeId → Prop) (context context' : Context) (expr : Expr) : Prop where
  signatures : context'.signatures = context.signatures
  resolves : ∀ node ∈ expr.nodes, ∀ name, node.used? = some name → ∃ definition?,
    context.resolve name node.id = .ok definition? ∧ context'.resolve name node.id = .ok definition? ∧
    ∀ definition site, definition? = some definition → definition.reference = some site →
      site ∈ expr.ids ∨ definition.kind ≠ .parameter ∧ sites site

theorem ReadsAlike.inferExpr {sites : NodeId → Prop} {context context' : Context} {expr : Expr}
    (reads : ReadsAlike sites context context' expr) (state : State) :
    inferExpr context' state expr = inferExpr context state expr := by
  refine inferExpr_sense (fun node member name used => Or.inl ?_) reads.signatures state
  obtain ⟨definition?, resolved, resolved', _⟩ := reads.resolves node member name used
  rw [resolved, resolved']

theorem Placed.resolve_both {locals : Expr → List NameDefinition} {context context' : Context}
    {visible : List NameDefinition} {expr : Expr} (placed : Placed locals context visible expr)
    (placed' : Placed locals context' visible expr) {node : Expr} (inside : node ∈ expr.nodes)
    {name : String} (used : node.used? = some name) :
    ∃ inner, (∀ definition ∈ inner, definition ∈ visible ∨ ∃ other ∈ expr.nodes,
        definition ∈ locals other) ∧
      context.resolve name node.id = .ok (context.table.meaning inner name) ∧
      context'.resolve name node.id = .ok (context'.table.meaning inner name) := by
  -- What an expression binds itself is seen in its parts.
  have bound : ∀ {expr part : Expr} {inner visible : List NameDefinition}, part.nodes ⊆ expr.nodes →
      (∀ definition ∈ inner, definition ∈ locals expr ++ visible ∨
        ∃ other ∈ part.nodes, definition ∈ locals other) →
      ∀ definition ∈ inner, definition ∈ visible ∨ ∃ other ∈ expr.nodes, definition ∈ locals other := by
    intro expr part inner visible subset each definition member
    rcases each definition member with outer | ⟨other, present, own⟩
    · exact (List.mem_append.mp outer).symm.imp_right fun own => ⟨expr, expr.mem_nodes_self, own⟩
    · exact Or.inr ⟨other, subset present, own⟩
  induction expr generalizing visible with
  | literal id value =>
    cases List.mem_singleton.mp inside
    cases used
  | ref id other =>
    cases List.mem_singleton.mp inside
    cases used
    exact ⟨visible, fun _ => Or.inl, placed.resolve_ref, placed'.resolve_ref⟩
  | app id operator args ih =>
    rw [Expr.nodes, Expr.nodesOf_eq] at inside
    rcases List.mem_cons.mp inside with rfl | inside
    · cases used
      exact ⟨visible, fun _ => Or.inl, placed.resolve_app, placed'.resolve_app⟩
    · obtain ⟨arg, present, inside⟩ := List.mem_flatMap.mp inside
      have subset : arg.nodes ⊆ (Expr.app id operator args).nodes := by
        rw [Expr.nodes, Expr.nodesOf_eq]
        exact fun node member =>
          List.mem_cons_of_mem _ (List.mem_flatMap.mpr ⟨arg, present, member⟩)
      obtain ⟨inner, each, resolved, resolved'⟩ :=
        ih arg present (placed.arg present) (placed'.arg present) inside
      refine ⟨inner, fun definition member => ?_, resolved, resolved'⟩
      rcases each definition member with outer | ⟨other, held, own⟩
      · exact Or.inl outer
      · exact Or.inr ⟨other, subset held, own⟩
  | lambda id params body ih =>
    rcases List.mem_cons.mp inside with rfl | inside
    · cases used
    · obtain ⟨inner, each, resolved, resolved'⟩ := ih placed.lambda_body placed'.lambda_body inside
      exact ⟨inner, bound (List.subset_cons_self _ _) each, resolved, resolved'⟩
  | letIn id defId defined first second ih ih' =>
    rcases List.mem_cons.mp inside with rfl | inside
    · cases used
    · rcases List.mem_append.mp inside with inside | inside
      · obtain ⟨inner, each, resolved, resolved'⟩ :=
          ih placed.let_parts.1 placed'.let_parts.1 inside
        exact ⟨inner, bound (fun _ member => by simp [Expr.nodes, member]) each, resolved, resolved'⟩
      · obtain ⟨inner, each, resolved, resolved'⟩ :=
          ih' placed.let_parts.2 placed'.let_parts.2 inside
        exact ⟨inner, bound (fun _ member => by simp [Expr.nodes, member]) each, resolved, resolved'⟩

/-- In `m'` the module `n'` stands for the module `n` of `m`. -/
structure StandsFor (m m' n n' : Module) : Prop where
  within : n ∈ m.modules
  within' : n' ∈ m'.modules
  id : n'.id = n.id
  name : n'.name = n.name

structure Stands (m m' n n' : Module) (declaration : Declaration) : Prop
    extends StandsFor m m' n n' where
  present : declaration ∈ n.declarations
  present' : declaration ∈ n'.declarations

variable {m m' n n' k k' : Module} {declaration : Declaration}

theorem Stands.module {inner : Module} (stands : Stands m m' n n' inner.toDeclaration) :
    inner ∈ m.modules ∧ inner ∈ m'.modules :=
  ⟨Module.mem_modules.mpr (Module.mem_all_of_mem_declarations stands.within stands.present),
    Module.mem_modules.mpr (Module.mem_all_of_mem_declarations stands.within' stands.present')⟩

theorem Stands.inside {inner : Module} (stands : Stands m m' n n' inner.toDeclaration)
    (present : declaration ∈ inner.declarations) : Stands m m' inner inner declaration :=
  ⟨⟨stands.module.1, stands.module.2, rfl, rfl⟩, present, present⟩

theorem stands_self (within : n ∈ m.modules) (present : declaration ∈ n.declarations) :
    Stands m m n n declaration := ⟨⟨within, within, rfl, rfl⟩, present, present⟩

theorem readsAlike_of_lookup {signatures : SignatureTable} {sites : NodeId → Prop}
    (distinct : m.ids.Nodup) (distinct' : m'.ids.Nodup) (stands : Stands m m' n n' declaration)
    (owns : m.owner? n.name = some k) (owns' : m'.owner? n.name = some k') (same : k'.id = k.id)
    {expr : Expr} (holds : declaration.expr? = some expr)
    (lookup : ∀ node ∈ expr.nodes, ∀ name, node.used? = some name →
      (contextIn signatures m n).resolve name node.id =
        .ok (k.declarations.findSome? (Declaration.introduces? name)) →
      k'.declarations.findSome? (Declaration.introduces? name) =
        k.declarations.findSome? (Declaration.introduces? name) ∧
      ∀ definition site, k.declarations.findSome? (Declaration.introduces? name) = some definition →
        definition.reference = some site → sites site) :
    ReadsAlike sites (contextIn signatures m n) (contextIn signatures m' n') expr := by
  refine ⟨rfl, fun node inside name used => ?_⟩
  rw [← stands.name] at owns'
  have placed : Placed _ (contextIn signatures m n) [] expr :=
    placed_declared distinct stands.within owns stands.present holds
  have placed' : Placed _ (contextIn signatures m' n') [] expr :=
    placed_declared distinct' stands.within' owns' stands.present' holds
  rw [same, stands.id] at placed'
  obtain ⟨inner, each, resolved, resolved'⟩ := placed.resolve_both placed' inside used
  rw [table_of_owner owns, NameTable.meaning, Module.find?_unscoped] at resolved
  rw [table_of_owner owns', NameTable.meaning, Module.find?_unscoped] at resolved'
  cases found : inner.find? fun definition => definition.identifier = name with
  | some definition =>
    rw [found, Option.some_or] at resolved resolved'
    refine ⟨_, resolved, resolved', ?_⟩
    rintro _ site ⟨⟩ reference
    rcases each definition (List.mem_of_find?_eq_some found) with absurd | ⟨other, present, bound⟩
    · cases absurd
    · refine Or.inl (Expr.ownIds_subset present (Expr.site_of_mem_binders ?_ reference))
      generalize decide (k.id = n.id) = own at bound
      cases own with
      | true => exact bound
      | false => cases bound
  | none =>
    rw [found, Option.none_or] at resolved resolved'
    by_cases listed : name ∈ signatures.keys
    · rw [if_pos listed] at resolved resolved'
      refine ⟨_, resolved, resolved', ?_⟩
      rintro _ site ⟨⟩ reference
      cases reference
    · rw [if_neg listed] at resolved resolved'
      obtain ⟨equal, recorded⟩ := lookup node inside name used resolved
      refine ⟨_, resolved, equal ▸ resolved', fun definition site means reference => Or.inr ⟨?_, ?_⟩⟩
      · obtain ⟨other, _, introduced⟩ := List.exists_of_findSome?_eq_some means
        exact (Declaration.introduces?_spec introduced).2.2
      · exact recorded definition site means reference

def ReadAlike (signatures : SignatureTable) (sites : NodeId → Prop) (m m' : Module)
    (declaration : Declaration) : Prop :=
  ∀ inner ∈ declaration.all, ∀ n n', Stands m m' n n' inner → ∀ expr, inner.expr? = some expr →
    ReadsAlike sites (contextIn signatures m n) (contextIn signatures m' n') expr

variable {signatures : SignatureTable} {sites : NodeId → Prop}

theorem ReadAlike.here (reads : ReadAlike signatures sites m m' declaration)
    (stands : Stands m m' n n' declaration) {expr : Expr} (holds : declaration.expr? = some expr) :
    ReadsAlike sites (contextIn signatures m n) (contextIn signatures m' n') expr :=
  reads declaration declaration.mem_all_self n n' stands expr holds

theorem ReadAlike.inside {inner : Module} (reads : ReadAlike signatures sites m m' inner.toDeclaration)
    (present : declaration ∈ inner.declarations) :
    ReadAlike signatures sites m m' declaration := by
  intro deeper member
  refine reads deeper ?_
  rw [Module.toDeclaration, Declaration.all_submodule]
  exact List.mem_cons_of_mem _ (List.mem_flatMap.mpr ⟨declaration, present, member⟩)

theorem readAlike_self (distinct : m.ids.Nodup) :
    ReadAlike signatures (fun _ => True) m m declaration := by
  intro inner _ n n' stands expr holds
  obtain ⟨k, owns⟩ := Module.exists_owner stands.within
  exact readsAlike_of_lookup distinct distinct stands owns owns rfl holds
    fun _ _ _ _ _ => ⟨rfl, fun _ _ _ _ => trivial⟩

theorem ReadAlike.inferDeclaration (reads : ReadAlike signatures sites m m' declaration)
    (stands : Stands m m' n n' declaration) (state : State) :
    inferDeclaration (m'.environment signatures) (contextIn signatures m' n') state declaration =
      inferDeclaration (m.environment signatures) (contextIn signatures m n) state declaration := by
  induction declaration generalizing n n' state with
  | stateVariable id name => rfl
  | constant id name => rfl
  | operator definition =>
    simp only [Inference.inferDeclaration, (reads.here stands rfl).inferExpr]
  | assumption id name expr => exact (reads.here stands rfl).inferExpr state
  | submodule id name declarations ih =>
    obtain ⟨inner, rfl, rfl, rfl⟩ : ∃ inner : Module, inner.id = id ∧ inner.name = name ∧
        inner.declarations = declarations := ⟨⟨id, name, declarations⟩, rfl, rfl, rfl⟩
    have standing : Stands m m' n n' inner.toDeclaration := stands
    simp only [Inference.inferDeclaration, environment_context standing.module.1,
      environment_context standing.module.2]
    exact inferDeclarations_congr (fun declaration present state =>
      ih declaration present (ReadAlike.inside reads present) (standing.inside present) state) state

/-- A name that the one declaration uses is found to mean the other one. -/
def Refers (signatures : SignatureTable) (m : Module) (user used : Declaration) : Prop :=
  ∃ n ∈ m.modules, user ∈ n.declarations ∧ ∃ node ∈ user.nodes, ∃ name definition,
    node.used? = some name ∧
    (contextIn signatures m n).resolve name node.id = .ok (some definition) ∧
    definition.reference = some used.id

theorem not_refers (distinct : m.ids.Nodup) {user used : Declaration}
    (inside : used ∈ m.toDeclaration.all) (different : user ≠ used)
    (unused : ∀ node ∈ user.nodes, ∀ name, node.used? = some name → used.name? ≠ some name) :
    ¬ Refers signatures m user used := by
  rintro ⟨n, within, present, node, member, name, definition, uses, resolved, reference⟩
  obtain ⟨expr, holds, part⟩ := Declaration.expr_of_mem_nodes member
  obtain ⟨k, owns⟩ := Module.exists_owner within
  have declared : ∀ node ∈ expr.nodes, ∀ name, node.used? = some name → ∀ definition site,
      k.declarations.findSome? (Declaration.introduces? name) = some definition →
      definition.reference = some site → site ≠ used.id := by
    rintro node part name uses definition site found recorded rfl
    obtain ⟨other, declares, introduced⟩ := List.exists_of_findSome?_eq_some found
    obtain ⟨named, own, _⟩ := Declaration.introduces?_spec introduced
    have same := Declaration.eq_of_mem_ownIds distinct inside
      (Module.mem_all_of_mem_declarations (Module.owner?_inside owns) declares)
      (Option.some.inj (recorded.symm.trans own) ▸ List.mem_cons_self) List.mem_cons_self
    refine unused node ?_ name uses (same ▸ named)
    rwa [Declaration.nodes, holds]
  have reads : ReadsAlike (· ≠ used.id) (contextIn signatures m n) (contextIn signatures m n) expr :=
    readsAlike_of_lookup distinct distinct (stands_self within present) owns owns rfl holds
      fun node part name uses _ => ⟨rfl, declared node part name uses⟩
  obtain ⟨definition?, resolved', _, recorded⟩ := reads.resolves node part name uses
  cases resolved'.symm.trans resolved
  rcases recorded definition used.id rfl reference with own | ⟨_, other⟩
  · exact different (Declaration.eq_of_mem_ownIds distinct
      (Module.mem_all_of_mem_declarations within present) inside
      (Declaration.mem_ownIds_of_expr holds own) List.mem_cons_self)
  · exact other rfl

end Inference

end SpecEffects
