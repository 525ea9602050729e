import SpecEffects.Proofs.Inference.Marks
import SpecEffects.Proofs.Lexical
import SpecEffects.Report
import SpecEffects.Signature.Standard

/-!
Inference of a module with distinct ids never stops with a fault. Parameters are recorded before
their lambda is gone into, nothing recorded is lost, and where no error occurs every expression gets
an effect.
-/
namespace SpecEffects

namespace Inference

open Substitution

structure Keeps (state after : State) : Prop where
  recorded : ∀ id, (state.effects.get? id).isSome → (after.effects.get? id).isSome
  clean : after.errors.isEmpty = true → state.errors.isEmpty = true

structure Answers (id : NodeId) (state after : State) : Prop extends Keeps state after where
  answered : after.errors.isEmpty = true → (after.effects.get? id).isSome

variable {context : Context} {state after last : State} {id : NodeId}

namespace Keeps

theorem refl (state : State) : Keeps state state := ⟨fun _ found => found, fun clean => clean⟩

theorem trans (first : Keeps state after) (second : Keeps after last) : Keeps state last :=
  ⟨fun id found => second.recorded id (first.recorded id found),
    fun clean => first.clean (second.clean clean)⟩

end Keeps

theorem Answers.preceded (first : Keeps state after) (second : Answers id after last) :
    Answers id state last :=
  ⟨first.trans second.toKeeps, second.answered⟩

theorem Adds.keeps {effects errors : List NodeId} (adds : Adds effects errors state after) :
    Keeps state after :=
  ⟨adds.known, adds.calm⟩

theorem Decides.answers (decides : Decides id state after) : Answers id state after := by
  refine ⟨decides.keeps, fun clean => ?_⟩
  have unfailed := SortedMap.isEmpty_iff.mp clean id
  by_cases known : state.Known id
  · exact decides.known id known
  · rcases decides.decided known fun failed => unfailed (decides.failed id failed) with
      ⟨known, _⟩ | ⟨_, failed⟩
    · exact known
    · exact absurd failed unfailed

def Grounded (state : State) (definition? : Option NameDefinition) : Prop :=
  ∀ definition, definition? = some definition → definition.kind = .parameter →
    ∃ site, definition.reference = some site ∧ (state.effects.get? site).isSome

theorem Grounded.keeps {definition? : Option NameDefinition} (grounded : Grounded state definition?)
    (keeps : Keeps state after) : Grounded after definition? := by
  intro definition found parameter
  obtain ⟨site, reference, recorded⟩ := grounded definition found parameter
  exact ⟨site, reference, keeps.recorded site recorded⟩

theorem parameterEffect_total {definition : NameDefinition}
    (grounded : Grounded state (some definition)) (parameter : definition.kind = .parameter) :
    ∃ effect, state.parameterEffect definition = .ok effect := by
  obtain ⟨site, reference, recorded⟩ := grounded definition rfl parameter
  obtain ⟨effect, found⟩ := Option.isSome_iff_exists.mp recorded
  exact ⟨effect, by rw [State.parameterEffect, reference]; simp [found]⟩

theorem signature?_total {definition? : Option NameDefinition} (grounded : Grounded state definition?)
    (context : Context) (name : String) (arity : Nat) :
    ∃ general?, state.signature? context name arity definition? = .ok general? := by
  cases definition? with
  | none => exact ⟨_, rfl⟩
  | some definition =>
    simp only [State.signature?]
    split
    · rename_i parameter
      obtain ⟨effect, found⟩ := parameterEffect_total grounded parameter
      exact ⟨some effect, by rw [found]; rfl⟩
    all_goals exact ⟨_, rfl⟩

theorem inferRef_total {definition? : Option NameDefinition} {name : String}
    (resolved : context.resolve name id = .ok definition?) (grounded : Grounded state definition?) :
    ∃ after, state.inferRef context id name = .ok after ∧ Answers id state after := by
  obtain ⟨general?, looked⟩ := signature?_total grounded context name referenceArity
  obtain ⟨after, run⟩ := exists_inferRef resolved
    (fun definition same parameter => parameterEffect_total (same ▸ grounded) parameter) looked
  exact ⟨after, run, (decides_inferRef run).answers⟩

theorem inferApplication_total {definition? : Option NameDefinition} {operator : String}
    {args : List Expr} (resolved : context.resolve operator id = .ok definition?)
    (grounded : Grounded state definition?)
    (each : state.errors.isEmpty = true → ∀ arg ∈ args, (state.effects.get? arg.id).isSome) :
    ∃ after, state.inferApplication context id operator args = .ok after ∧
      Answers id state after := by
  obtain ⟨general?, looked⟩ := signature?_total grounded context operator args.length
  obtain ⟨after, run⟩ := exists_inferApplication resolved looked
  refine ⟨after, run, ?_⟩
  rcases inferApplication_cases run with ⟨⟨arg, member, unknown⟩, rfl⟩ | ⟨_, decides⟩
  · -- Without an error all arguments would have effects.
    exact ⟨.refl after, fun clean => absurd (each clean arg member) unknown⟩
  · exact decides.answers

theorem answers_closeLambda {params : List Param} {body : Expr}
    (answered : state.errors.isEmpty = true → (state.effects.get? body.id).isSome) :
    Answers id state (state.closeLambda id params body) := by
  rcases closeLambda_cases state id params body with ⟨unknown, same⟩ | ⟨_, decides⟩
  · rw [same]
    exact ⟨.refl state, fun clean => absurd (answered clean) unknown⟩
  · exact decides.answers

theorem closeLet_total (id : NodeId) {body : NodeId}
    (answered : state.errors.isEmpty = true → (state.effects.get? body).isSome) :
    ∃ after, state.closeLet id body = .ok after ∧ Answers id state after := by
  obtain ⟨after, run⟩ := exists_closeLet fun clean =>
    Option.isSome_iff_exists.mp (answered clean)
  refine ⟨after, run, ?_⟩
  rcases closeLet_cases run with ⟨failed, rfl⟩ | ⟨_, _, effect, rfl⟩
  · exact ⟨.refl after, fun clean => absurd clean (Bool.eq_false_iff.mp failed)⟩
  · exact (decides_record state id effect).answers

section Expressions

variable {visible : List NameDefinition}

def GroundedIn (state : State) (visible : List NameDefinition) : Prop :=
  ∀ definition ∈ visible, Grounded state (some definition)

theorem GroundedIn.keeps (grounded : GroundedIn state visible) (keeps : Keeps state after) :
    GroundedIn after visible :=
  fun definition member => (grounded definition member).keeps keeps

variable (unscoped : ∀ definition ∈ context.table.definitions, definition.scope = none →
  definition.kind ≠ .parameter)

include unscoped in
theorem grounded_meaning (grounded : GroundedIn state visible) (name : String) :
    Grounded state (context.table.meaning visible name) := by
  intro definition found parameter
  rw [NameTable.meaning, Option.or_eq_some_iff] at found
  rcases found with seen | ⟨_, global⟩
  · exact grounded definition (List.mem_of_find?_eq_some seen) definition rfl parameter
  · have at_top := List.find?_some global
    simp only [Bool.and_eq_true, decide_eq_true_eq] at at_top
    exact absurd parameter (unscoped definition (List.mem_of_find?_eq_some global) at_top.2)

theorem grounded_lambda {params : List Param} {body : Expr} (grounded : GroundedIn state visible)
    (locals : context.table.localsAt id ⊆ (Expr.lambda id params body).binders) :
    GroundedIn (state.openLambda id params) (context.table.localsAt id ++ visible) := by
  obtain ⟨adds, each⟩ := adds_openLambda state id params
  intro definition member
  rcases List.mem_append.mp member with own | outer
  · obtain ⟨param, present, rfl⟩ := List.mem_map.mp (locals own)
    intro definition same _
    cases same
    exact ⟨param.id, rfl, each param present⟩
  · exact (grounded definition outer).keeps adds.keeps

theorem grounded_letIn {defId : NodeId} {name : String} {bound body : Expr}
    (grounded : GroundedIn state visible)
    (locals : context.table.localsAt id ⊆ (Expr.letIn id defId name bound body).binders) :
    GroundedIn state (context.table.localsAt id ++ visible) := by
  intro definition member
  rcases List.mem_append.mp member with own | outer
  · cases List.mem_singleton.mp (locals own)
    intro definition same parameter
    cases same
    cases parameter
  · exact grounded definition outer

theorem inferExprs_total {args : List Expr}
    (each : ∀ arg ∈ args, ∀ state, GroundedIn state visible →
      ∃ after, inferExpr context state arg = .ok after ∧ Answers arg.id state after)
    (grounded : GroundedIn state visible) :
    ∃ after, inferExprs context state args = .ok after ∧ Keeps state after ∧
      (after.errors.isEmpty = true → ∀ arg ∈ args, (after.effects.get? arg.id).isSome) := by
  induction args generalizing state with
  | nil => exact ⟨state, rfl, .refl state, fun _ _ absurd => nomatch absurd⟩
  | cons arg rest ih =>
    obtain ⟨middle, first, answers⟩ := each arg List.mem_cons_self state grounded
    obtain ⟨after, later, keeps, answered⟩ :=
      ih (fun other member => each other (List.mem_cons_of_mem _ member))
        (grounded.keeps answers.toKeeps)
    refine ⟨after, ?_, answers.toKeeps.trans keeps, fun clean other member => ?_⟩
    · simp only [inferExprs, bind_eq_ok]
      exact ⟨middle, first, later⟩
    · rcases List.mem_cons.mp member with rfl | member
      · exact keeps.recorded _ (answers.answered (keeps.clean clean))
      · exact answered clean other member

include unscoped in
theorem inferExpr_total {expr : Expr} (placed : context.table.Scoped context.scopes visible expr)
    (locals : ∀ node ∈ expr.nodes, context.table.localsAt node.id ⊆ node.binders)
    (grounded : GroundedIn state visible) :
    ∃ after, inferExpr context state expr = .ok after ∧ Answers expr.id state after := by
  have resolve : ∀ {name id definition?},
      context.table.resolve context.scopes name id = .ok definition? →
      context.resolve name id = .ok definition? := fun found => mapError_eq_ok.mpr found
  induction expr generalizing visible state with
  | literal id value => exact ⟨_, rfl, (decides_record _ _ _).answers⟩
  | ref id name =>
    cases placed with
    | ref resolved =>
      exact inferRef_total (resolve resolved) (grounded_meaning unscoped grounded name)
  | app id operator args ih =>
    cases placed with
    | app resolved each =>
      obtain ⟨middle, first, keeps, answered⟩ := inferExprs_total
        (fun arg member state grounded => ih arg member (each arg member)
          (fun node inside => locals node (by
            rw [Expr.nodes, Expr.nodesOf_eq]
            exact List.mem_cons_of_mem _ (List.mem_flatMap.mpr ⟨arg, member, inside⟩))) grounded)
        grounded
      obtain ⟨after, second, answers⟩ := inferApplication_total (resolve resolved)
        (grounded_meaning unscoped (grounded.keeps keeps) operator) answered
      refine ⟨after, ?_, .preceded keeps answers⟩
      simp only [inferExpr, bind_eq_ok]
      exact ⟨middle, first, second⟩
  | lambda id params body ih =>
    cases placed with
    | lambda inner =>
      have own := grounded_lambda grounded (locals (.lambda id params body) (Expr.mem_nodes_self _))
      obtain ⟨middle, run, answers⟩ := ih inner
        (fun node inside => locals node (by simp [Expr.nodes, inside])) own
      refine ⟨middle.closeLambda id params body, ?_, .preceded ?_ (answers_closeLambda answers.answered)⟩
      · simp only [inferExpr, bind_eq_ok, pure_eq_ok]
        exact ⟨middle, run, rfl⟩
      · exact (adds_openLambda state id params).1.keeps.trans answers.toKeeps
  | letIn id defId name bound body ih ih' =>
    cases placed with
    | letIn inner inner' =>
      have own := grounded_letIn grounded
        (locals (.letIn id defId name bound body) (Expr.mem_nodes_self _))
      obtain ⟨first, run, answers⟩ := ih inner
        (fun node inside => locals node (by simp [Expr.nodes, inside])) own
      have keeps := answers.toKeeps.trans (adds_copyEffect first defId bound.id).keeps
      obtain ⟨second, run', answers'⟩ := ih' inner'
        (fun node inside => locals node (by simp [Expr.nodes, inside])) (own.keeps keeps)
      obtain ⟨after, closed, answers''⟩ := closeLet_total id answers'.answered
      refine ⟨after, ?_, .preceded (keeps.trans answers'.toKeeps) answers''⟩
      simp only [inferExpr, bind_eq_ok]
      exact ⟨first, run, second, run', closed⟩

end Expressions

end Inference

namespace NameTables

variable {names : List String} {key : String}

theorem exists_addDeclared {declaration : Declaration} {tables : NameTables}
    (present : (∃ table, tables.get? key = some table) ∨
      ∃ n : Module, n.toDeclaration ∈ declaration.all ∧ n.name = key) :
    ∃ table, (addDeclared names tables declaration).get? key = some table := by
  induction declaration generalizing tables with
  | submodule id name declarations ih =>
    have inside : ∀ (rest : List Declaration) (tables : NameTables), rest ⊆ declarations →
        ((∃ table, tables.get? key = some table) ∨
          ∃ n : Module, n.toDeclaration ∈ rest.flatMap Declaration.all ∧ n.name = key) →
        ∃ table, (addAllDeclared names tables rest).get? key = some table := by
      intro rest
      induction rest with
      | nil =>
        rintro tables _ (before | ⟨n, absurd, _⟩)
        · exact before
        · cases absurd
      | cons declaration rest ih' =>
        intro tables part present
        obtain ⟨first, part⟩ := List.cons_subset.mp part
        apply ih' _ part
        rcases present with before | ⟨n, member, same⟩
        · exact Or.inl (ih declaration first (Or.inl before))
        · rw [List.flatMap_cons, List.mem_append] at member
          rcases member with here | later
          · exact Or.inl (ih declaration first (Or.inr ⟨n, here, same⟩))
          · exact Or.inr ⟨n, later, same⟩
    rw [addDeclared, SortedMap.get?_insert]
    split
    · exact ⟨_, rfl⟩
    · rename_i different
      apply inside declarations tables (List.Subset.refl _)
      rcases present with before | ⟨n, member, same⟩
      · exact Or.inl before
      · rw [Declaration.all_submodule] at member
        rcases List.mem_cons.mp member with itself | member
        · cases n
          cases itself
          exact absurd same different
        · exact Or.inr ⟨n, member, same⟩
  | _ =>
    rcases present with before | ⟨n, member, _⟩
    · exact before
    · cases n
      cases List.mem_singleton.mp member

end NameTables

namespace Module

variable {m n : Module} {names : List String} {key : String} {table : NameTable}

theorem exists_table (names : List String) (within : n ∈ m.modules) :
    ∃ table, (m.nameTables names).get? n.name = some table :=
  NameTables.exists_addDeclared (Or.inr ⟨n, mem_modules.mp within, rfl⟩)

theorem unscoped_kind (found : (m.nameTables names).get? key = some table)
    {definition : NameDefinition} (member : definition ∈ table.definitions)
    (visible : definition.scope = none) : definition.kind ≠ .parameter := by
  rcases definitions_spec found member with ⟨operator, _⟩ | ⟨declaration, _, member⟩
  · rw [operator]
    exact nofun
  · rcases Declaration.definitions_spec member with ⟨other, _⟩ | ⟨expr, _, member⟩
    · exact other
    · obtain ⟨scope, _, _, _, limited, _⟩ := Expr.localDefinitions_spec member
      cases limited.symm.trans visible

end Module

namespace Inference

variable {signatures : SignatureTable} {m n : Module} {names : List String} {table : NameTable}
  {declaration : Declaration} {state : State}

section Declarations

variable (distinct : m.ids.Nodup)

include distinct in
theorem inferExpr_total_of_declared (within : n ∈ m.modules)
    (found : (m.nameTables names).get? n.name = some table)
    (present : declaration ∈ n.declarations) {expr : Expr} (holds : declaration.expr? = some expr)
    (state : State) :
    ∃ after, inferExpr ⟨signatures, table, n.scopeTree⟩ state expr = .ok after ∧
      Answers expr.id state after := by
  have all := Module.mem_all_of_mem_declarations within present
  have nodes : declaration.nodes = expr.nodes := by rw [Declaration.nodes, holds]; rfl
  exact inferExpr_total
    (fun definition => Module.unscoped_kind found)
    (Module.scoped_declaration distinct found within present holds)
    (fun node inside => Module.localsAt_subset distinct found all (nodes ▸ inside))
    (List.forall_mem_nil _)

theorem inferDeclarations_total {env : Environment} {context : Context}
    {declarations : List Declaration} (each : ∀ declaration ∈ declarations, ∀ state,
      ∃ after, inferDeclaration env context state declaration = .ok after) (state : State) :
    ∃ after, inferDeclarations env context state declarations = .ok after := by
  induction declarations generalizing state with
  | nil => exact ⟨state, rfl⟩
  | cons declaration rest ih =>
    obtain ⟨middle, first⟩ := each declaration List.mem_cons_self state
    obtain ⟨after, later⟩ := ih (fun other member => each other (List.mem_cons_of_mem _ member)) middle
    refine ⟨after, ?_⟩
    simp only [inferDeclarations, bind_eq_ok]
    exact ⟨middle, first, later⟩

include distinct in
theorem inferDeclaration_total (signatures : SignatureTable) (within : n ∈ m.modules)
    (found : (m.nameTables names).get? n.name = some table)
    (present : declaration ∈ n.declarations) (state : State) :
    ∃ after, inferDeclaration ⟨signatures, m.nameTables names⟩ ⟨signatures, table, n.scopeTree⟩
      state declaration = .ok after := by
  induction declaration generalizing n table state with
  | stateVariable id name => exact ⟨state, rfl⟩
  | constant id name => exact ⟨state, rfl⟩
  | operator definition =>
    obtain ⟨after, run, _⟩ := inferExpr_total_of_declared distinct within found present rfl state
    refine ⟨after.copyEffect definition.id definition.body.id, ?_⟩
    simp only [inferDeclaration, bind_eq_ok, pure_eq_ok]
    exact ⟨after, run, rfl⟩
  | assumption id name expr =>
    obtain ⟨after, run, _⟩ := inferExpr_total_of_declared distinct within found present rfl state
    exact ⟨after, run⟩
  | submodule id name declarations ih =>
    have inner : (⟨id, name, declarations⟩ : Module) ∈ m.modules :=
      Module.mem_modules.mpr (Module.mem_all_of_mem_declarations within present)
    obtain ⟨table', found'⟩ := Module.exists_table names inner
    obtain ⟨after, run⟩ := inferDeclarations_total
      (fun declaration member state => ih declaration member inner found' member state) state
    refine ⟨after, ?_⟩
    simp only [inferDeclaration, Environment.context, bind_eq_ok]
    exact ⟨_, by rw [found'], run⟩

include distinct in
theorem inferModule_total (state : State) :
    ∃ after, inferModule ⟨signatures, m.nameTables names⟩ state m = .ok after := by
  have itself : m ∈ m.modules := Module.mem_modules.mpr m.toDeclaration.mem_all_self
  obtain ⟨table, found⟩ := Module.exists_table names itself
  obtain ⟨after, run⟩ := inferDeclarations_total
    (fun declaration member state =>
      inferDeclaration_total distinct signatures itself found member state) state
  refine ⟨after, ?_⟩
  simp only [inferModule, Environment.context, bind_eq_ok]
  exact ⟨_, by rw [found], run⟩

end Declarations

/-- Analysis of a module with distinct ids returns, whatever its names and the builtins are, so no
fault is met. The scopes of every node can be followed to the root, where every name can be looked up,
and footprints that are solved for have all their components. -/
theorem analysis_always_returns (signatures : SignatureTable) {m : Module} (distinct : m.ids.Nodup) :
    (∃ analysis, m.analyze signatures = .ok analysis) ∧
      (∀ n ∈ m.modules, ∃ table, (m.nameTables signatures.keys).get? n.name = some table ∧
        ∀ declaration ∈ n.declarations, ∀ node ∈ declaration.nodes,
          (∃ path, n.scopeTree.path node.id = .ok path) ∧
          ∀ name, ∃ definition?, table.resolve n.scopeTree name node.id = .ok definition?) ∧
      ∀ (footprint : Footprint) (component : Component),
        ∃ set, (Effect.concrete footprint).component? component = some set := by
  refine ⟨?_, fun n within => ?_, fun footprint component => ⟨_, rfl⟩⟩
  · obtain ⟨state, run⟩ : ∃ state, m.infer signatures = .ok state := inferModule_total distinct .start
    refine ⟨state.analysis, ?_⟩
    simp only [Module.analyze, bind_eq_ok, pure_eq_ok]
    exact ⟨state, run, rfl⟩
  · obtain ⟨table, found⟩ := Module.exists_table signatures.keys within
    refine ⟨table, found, fun declaration present node inside => ?_⟩
    obtain ⟨path, leads⟩ := Module.exists_leads (Module.nodup_ids distinct within) present inside
    exact ⟨⟨path, leads.path_eq⟩, fun name => ⟨_, table.resolve_of_leads leads name⟩⟩

/-- A module in which names are used over and over, a name is unknown, and a let comes after the error. -/
theorem analysis_of_repeated_names :
    let m : Module := ⟨⟨1⟩, "M",
      [.operator ⟨⟨2⟩, "M", .ref ⟨3⟩ "y"⟩,
        .submodule ⟨4⟩ "M" [.operator ⟨⟨5⟩, "M", .lambda ⟨6⟩ [⟨⟨7⟩, "M"⟩, ⟨⟨8⟩, "M"⟩] (.ref ⟨9⟩ "M")⟩],
        .operator ⟨⟨10⟩, "M", .letIn ⟨11⟩ ⟨12⟩ "M" (.app ⟨13⟩ "M" [.ref ⟨14⟩ "M"]) (.ref ⟨15⟩ "M")⟩]⟩
    m.ids.Nodup ∧ ∃ analysis, m.analyze .standard = .ok analysis := by
  intro m
  have distinct : m.ids.Nodup := by decide
  exact ⟨distinct, (analysis_always_returns .standard distinct).1⟩

end Inference

end SpecEffects
