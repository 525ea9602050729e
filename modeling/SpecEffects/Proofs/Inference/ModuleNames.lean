import SpecEffects.Proofs.Inference.Totality

/-!
Names of modules. Tables are kept by the names of modules. Where these are distinct, every module is
gone through with the table of its own definitions, and other names that are distinct as well change
nothing.
-/
namespace SpecEffects

namespace Declaration

def moduleNames (declaration : Declaration) : List String := declaration.all.filterMap fun
  | .submodule _ name _ => some name
  | _ => none

mutual

def withNames (name : NodeId → String) : Declaration → Declaration
  | .submodule id _ declarations => .submodule id (name id) (withNamesOf name declarations)
  | declaration => declaration

def withNamesOf (name : NodeId → String) : List Declaration → List Declaration
  | [] => []
  | declaration :: rest => withNames name declaration :: withNamesOf name rest

end

theorem moduleNames_submodule (id : NodeId) (name : String) (declarations : List Declaration) :
    (submodule id name declarations).moduleNames = name :: declarations.flatMap moduleNames := by
  rw [moduleNames, all_submodule, List.filterMap_cons, List.filterMap_flatMap]
  rfl

theorem name_mem_moduleNames {n : Module} {declaration : Declaration}
    (member : n.toDeclaration ∈ declaration.all) : n.name ∈ declaration.moduleNames :=
  List.mem_filterMap.mpr ⟨n.toDeclaration, member, rfl⟩

theorem withNamesOf_eq (name : NodeId → String) (declarations : List Declaration) :
    withNamesOf name declarations = declarations.map (withNames name) := by
  induction declarations with
  | nil => rfl
  | cons declaration rest ih => rw [withNamesOf, ih, List.map_cons]

theorem definitions_withNames (name : NodeId → String) (declaration : Declaration) :
    (declaration.withNames name).definitions = declaration.definitions := by
  cases declaration <;> rfl

theorem scopeLinks_withNames (name : NodeId → String) (declaration : Declaration) (parent : NodeId) :
    (declaration.withNames name).scopeLinks parent = declaration.scopeLinks parent := by
  cases declaration <;> rfl

end Declaration

namespace NameTables

variable {names : List String}

theorem addAllDeclared_eq (tables : NameTables) (declarations : List Declaration) :
    addAllDeclared names tables declarations = declarations.foldl (addDeclared names) tables := by
  induction declarations generalizing tables with
  | nil => rfl
  | cons declaration rest ih => rw [addAllDeclared, ih, List.foldl_cons]

theorem get?_addDeclared_of_not_mem {key : String} {declaration : Declaration}
    (absent : key ∉ declaration.moduleNames) (tables : NameTables) :
    (addDeclared names tables declaration).get? key = tables.get? key := by
  induction declaration generalizing tables with
  | submodule id name declarations ih =>
    rw [Declaration.moduleNames_submodule, List.mem_cons, not_or] at absent
    obtain ⟨different, absent⟩ := absent
    rw [addDeclared, SortedMap.get?_insert, if_neg (Ne.symm different), addAllDeclared_eq]
    induction declarations generalizing tables with
    | nil => rfl
    | cons declaration rest ih' =>
      rw [List.flatMap_cons, List.mem_append, not_or] at absent
      rw [List.foldl_cons,
        ih' (fun other member => ih other (List.mem_cons_of_mem _ member)) _ absent.2]
      exact ih declaration List.mem_cons_self absent.1 tables
  | _ => rfl

theorem get?_foldl_of_not_mem {key : String} {declarations : List Declaration}
    (absent : key ∉ declarations.flatMap Declaration.moduleNames) (tables : NameTables) :
    (declarations.foldl (addDeclared names) tables).get? key = tables.get? key := by
  induction declarations generalizing tables with
  | nil => rfl
  | cons declaration rest ih =>
    rw [List.flatMap_cons, List.mem_append, not_or] at absent
    rw [List.foldl_cons, ih absent.2, get?_addDeclared_of_not_mem absent.1]

theorem get?_addDeclared_own {declaration : Declaration} (nodup : declaration.moduleNames.Nodup)
    {n : Module} (member : n.toDeclaration ∈ declaration.all) (tables : NameTables) :
    (addDeclared names tables declaration).get? n.name =
      some (.ofDeclarations names n.declarations) := by
  induction declaration generalizing tables with
  | submodule id name declarations ih =>
    have inside : ∀ (rest : List Declaration) (tables : NameTables), rest ⊆ declarations →
        (rest.flatMap Declaration.moduleNames).Nodup →
        n.toDeclaration ∈ rest.flatMap Declaration.all →
        (rest.foldl (addDeclared names) tables).get? n.name =
          some (.ofDeclarations names n.declarations) := by
      intro rest
      induction rest with
      | nil =>
        intro tables _ _ absurd
        cases absurd
      | cons declaration rest ih' =>
        intro tables part nodup member
        obtain ⟨first, part⟩ := List.cons_subset.mp part
        rw [List.flatMap_cons] at nodup member
        obtain ⟨nodup_first, nodup_rest, disjoint⟩ := List.nodup_append'.mp nodup
        rw [List.foldl_cons]
        rcases List.mem_append.mp member with here | later
        · rw [get?_foldl_of_not_mem (disjoint (Declaration.name_mem_moduleNames here))]
          exact ih declaration first nodup_first here tables
        · exact ih' _ part nodup_rest later
    rw [Declaration.moduleNames_submodule] at nodup
    obtain ⟨different, nodup⟩ := List.nodup_cons.mp nodup
    rw [Declaration.all_submodule] at member
    rw [addDeclared, SortedMap.get?_insert, addAllDeclared_eq]
    rcases List.mem_cons.mp member with itself | member
    · cases n
      cases itself
      rw [if_pos rfl]
    · obtain ⟨inner, present, within⟩ := List.mem_flatMap.mp member
      have other : name ≠ n.name := by
        intro same
        exact different (List.mem_flatMap.mpr
          ⟨inner, present, same ▸ Declaration.name_mem_moduleNames within⟩)
      rw [if_neg other]
      exact inside declarations tables (List.Subset.refl _) nodup member
  | _ =>
    cases n
    cases List.mem_singleton.mp member

end NameTables

namespace Module

def moduleNames (m : Module) : List String := m.toDeclaration.moduleNames

def withNames (name : NodeId → String) (m : Module) : Module :=
  ⟨m.id, name m.id, m.declarations.map (Declaration.withNames name)⟩

theorem toDeclaration_withNames (name : NodeId → String) (m : Module) :
    (m.withNames name).toDeclaration = m.toDeclaration.withNames name := by
  rw [toDeclaration, toDeclaration, Declaration.withNames, Declaration.withNamesOf_eq]
  rfl

theorem ofDeclarations_withNames (name : NodeId → String) (names : List String) (m : Module) :
    NameTable.ofDeclarations names (m.withNames name).declarations =
      .ofDeclarations names m.declarations := by
  simp only [NameTable.ofDeclarations, withNames, List.flatMap_map,
    Declaration.definitions_withNames]

theorem scopeTree_withNames (name : NodeId → String) (m : Module) :
    (m.withNames name).scopeTree = m.scopeTree := by
  simp only [scopeTree, withNames, List.flatMap_map, Declaration.scopeLinks_withNames]

end Module

namespace Inference

def OwnTables (env : Environment) (names : List String) (declaration : Declaration) : Prop :=
  ∀ n : Module, n.toDeclaration ∈ declaration.all →
    env.tables.get? n.name = some (.ofDeclarations names n.declarations)

theorem ownTables (signatures : SignatureTable) {m : Module} (apart : m.moduleNames.Nodup) :
    OwnTables (m.environment signatures) signatures.keys m.toDeclaration :=
  fun _ member => NameTables.get?_addDeclared_own apart member ∅

theorem OwnTables.context {env : Environment} {names : List String} {declaration : Declaration}
    (own : OwnTables env names declaration) {n : Module} (member : n.toDeclaration ∈ declaration.all)
    (state : State) : env.context state n =
      .ok ⟨env.signatures, .ofDeclarations names n.declarations, n.scopeTree⟩ := by
  rw [Environment.context, own n member]

variable {env env' : Environment} {names : List String} {name : NodeId → String}

theorem inferDeclaration_toDeclaration (env : Environment) (context : Context) (state : State)
    (n : Module) : inferDeclaration env context state n.toDeclaration = inferModule env state n := by
  rw [Module.toDeclaration, inferDeclaration]
  rfl

theorem inferDeclarations_withNames {context : Context} {declarations : List Declaration}
    (each : ∀ declaration ∈ declarations, ∀ state,
      inferDeclaration env' context state (declaration.withNames name) =
        inferDeclaration env context state declaration) (state : State) :
    inferDeclarations env' context state (declarations.map (Declaration.withNames name)) =
      inferDeclarations env context state declarations := by
  induction declarations generalizing state with
  | nil => rfl
  | cons declaration rest ih =>
    rw [List.map_cons, inferDeclarations, inferDeclarations, each declaration List.mem_cons_self]
    simp only [ih fun other member => each other (List.mem_cons_of_mem _ member)]

theorem inferDeclaration_withNames {declaration : Declaration} (own : OwnTables env names declaration)
    (own' : OwnTables env' names (declaration.withNames name))
    (same : env'.signatures = env.signatures) (context : Context) (state : State) :
    inferDeclaration env' context state (declaration.withNames name) =
      inferDeclaration env context state declaration := by
  induction declaration generalizing context state with
  | submodule id before declarations ih =>
    obtain ⟨n, rfl, rfl, rfl⟩ : ∃ n : Module, n.id = id ∧ n.name = before ∧
        n.declarations = declarations := ⟨⟨id, before, declarations⟩, rfl, rfl, rfl⟩
    change OwnTables env names n.toDeclaration at own
    change OwnTables env' names (n.toDeclaration.withNames name) at own'
    change inferDeclaration env' context state (n.toDeclaration.withNames name) =
      inferDeclaration env context state n.toDeclaration
    rw [← Module.toDeclaration_withNames] at own' ⊢
    rw [inferDeclaration_toDeclaration, inferDeclaration_toDeclaration, inferModule, inferModule]
    have found := own.context (n := n) (Declaration.mem_all_self _) state
    have found' := own'.context (n := n.withNames name) (Declaration.mem_all_self _) state
    rw [Module.ofDeclarations_withNames, Module.scopeTree_withNames, same] at found'
    rw [found, found']
    apply inferDeclarations_withNames
    intro declaration present state
    refine ih declaration present (fun k member => own k ?_) (fun k member => own' k ?_) _ state
    · rw [Module.toDeclaration, Declaration.all_submodule]
      exact List.mem_cons_of_mem _ (List.mem_flatMap.mpr ⟨declaration, present, member⟩)
    · rw [Module.toDeclaration, Declaration.all_submodule]
      refine List.mem_cons_of_mem _ (List.mem_flatMap.mpr ⟨_, ?_, member⟩)
      exact List.mem_map_of_mem present
  | _ => rfl

/-- Where names of modules are distinct, every module is gone through with the builtins and its own
definitions, and any other distinct names lead to the same analysis. -/
theorem analysis_is_independent_of_module_names {signatures : SignatureTable} {m : Module}
    {name : NodeId → String} (distinct : m.ids.Nodup) (apart : m.moduleNames.Nodup)
    (apart' : (m.withNames name).moduleNames.Nodup) :
    (∃ analysis, m.analyze signatures = .ok analysis ∧
      (m.withNames name).analyze signatures = .ok analysis) ∧
    ∀ n ∈ m.modules, ∀ state, (m.environment signatures).context state n =
      .ok ⟨signatures, .ofDeclarations signatures.keys n.declarations, n.scopeTree⟩ := by
  have own := ownTables signatures apart
  have own' := ownTables signatures apart'
  rw [Module.toDeclaration_withNames] at own'
  have same : (m.withNames name).infer signatures = m.infer signatures := by
    have runs := inferDeclaration_withNames own own' rfl ⟨signatures, ⟨[]⟩, m.scopeTree⟩ .start
    rwa [← Module.toDeclaration_withNames, inferDeclaration_toDeclaration,
      inferDeclaration_toDeclaration] at runs
  obtain ⟨state, run⟩ : ∃ state, m.infer signatures = .ok state := inferModule_total distinct .start
  refine ⟨⟨state.analysis, ?_, ?_⟩, fun n within => own.context (Module.mem_modules.mp within)⟩
  · rw [Module.analyze, run]
    rfl
  · rw [Module.analyze, same, run]
    rfl

/-- Three modules one in the other, of which the outer two exchange their names. -/
theorem analysis_of_exchanged_module_names :
    let signatures : SignatureTable := .ofList [("b", .propagate [.read])]
    let m : Module := ⟨⟨1⟩, "M",
      [.stateVariable ⟨2⟩ "x", .submodule ⟨3⟩ "N"
        [.stateVariable ⟨4⟩ "y", .operator ⟨⟨5⟩, "v", .app ⟨6⟩ "b" [.ref ⟨7⟩ "y", .ref ⟨8⟩ "x"]⟩,
          .submodule ⟨9⟩ "K" [.operator ⟨⟨10⟩, "w", .ref ⟨11⟩ "b"⟩]],
        .operator ⟨⟨12⟩, "v", .app ⟨13⟩ "b" [.ref ⟨14⟩ "x", .ref ⟨15⟩ "x"]⟩]⟩
    let name : NodeId → String :=
      fun id => if id = ⟨1⟩ then "N" else if id = ⟨3⟩ then "M" else "K"
    m.ids.Nodup ∧ m.moduleNames.Nodup ∧ (m.withNames name).moduleNames.Nodup ∧
      (∃ analysis, (m.withNames name).analyze signatures = .ok analysis ∧
        analysis.effects.get? ⟨7⟩ = some (.reads "y") ∧ analysis.effects.get? ⟨8⟩ = none ∧
        analysis.effects.get? ⟨12⟩ = some (.reads "x") ∧
        analysis.diagnostics.map Diagnostic.node = [⟨8⟩]) ∧
      (∃ analysis, m.analyze signatures = .ok analysis ∧
        (m.withNames name).analyze signatures = .ok analysis) ∧
      ∀ n ∈ m.modules, ∀ state, (m.environment signatures).context state n =
        .ok ⟨signatures, .ofDeclarations signatures.keys n.declarations, n.scopeTree⟩ := by
  intro signatures m name
  have distinct : m.ids.Nodup := by decide
  have apart : m.moduleNames.Nodup := by decide
  have apart' : (m.withNames name).moduleNames.Nodup := by decide
  obtain ⟨analysis, run, seen⟩ := exists_ok
    (fun analysis : Analysis => ([⟨7⟩, ⟨8⟩, ⟨12⟩].map analysis.effects.get?,
      analysis.diagnostics.map Diagnostic.node)) (show
    ((m.withNames name).analyze signatures).toOption.map _ =
      some ([some (.reads "y"), none, some (.reads "x")], [⟨8⟩]) by decide)
  simp only [List.map_cons, List.map_nil, Prod.mk.injEq, List.cons.injEq, and_true] at seen
  obtain ⟨⟨at_y, at_x, at_v⟩, failed⟩ := seen
  exact ⟨distinct, apart, apart', ⟨analysis, run, at_y, at_x, at_v, failed⟩,
    analysis_is_independent_of_module_names distinct apart apart'⟩

/-- Where a module has the name of the module around it, its own definitions are not found. -/
theorem equal_module_names_hide_definitions :
    let m : Module := ⟨⟨1⟩, "M",
      [.submodule ⟨2⟩ "N" [.stateVariable ⟨3⟩ "y", .operator ⟨⟨4⟩, "w", .ref ⟨5⟩ "y"⟩]]⟩
    let same : Module := m.withNames fun _ => "M"
    m.ids.Nodup ∧
      (∃ analysis, m.analyze ∅ = .ok analysis ∧ analysis.effects.get? ⟨5⟩ = some (.reads "y") ∧
        analysis.diagnostics = []) ∧
      (∃ analysis, same.analyze ∅ = .ok analysis ∧ analysis.effects.get? ⟨5⟩ = none ∧
        analysis.diagnostics = [⟨⟨5⟩, "Signature not found for name: y"⟩]) := by
  intro m same
  obtain ⟨analysis, run, seen⟩ := exists_ok
    (fun analysis : Analysis => (analysis.effects.get? ⟨5⟩, analysis.diagnostics))
    (show (m.analyze ∅).toOption.map _ = some (some (.reads "y"), []) by decide)
  obtain ⟨analysis', run', seen'⟩ := exists_ok
    (fun analysis : Analysis => (analysis.effects.get? ⟨5⟩, analysis.diagnostics))
    (show (same.analyze ∅).toOption.map _ =
      some (none, [⟨⟨5⟩, "Signature not found for name: y"⟩]) by decide)
  rw [Prod.mk.injEq] at seen seen'
  exact ⟨by decide, ⟨analysis, run, seen⟩, ⟨analysis', run', seen'⟩⟩

end Inference

end SpecEffects
