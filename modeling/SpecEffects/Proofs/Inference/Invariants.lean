import SpecEffects.Proofs.Inference.Outcome
import SpecEffects.Proofs.Inference.Tidy

/-!
Properties that inference keeps. Its state changes in a few ways only. An error or an effect is
recorded, a name is numbered, a copy of the effect of an operator is made, and what an application
asks for is solved. An invariant is a property of states, together with the effects that may be
recorded in them, that each of these changes keeps. It then holds of every state that inference of a
module comes by, also in the middle of an application.
-/
namespace SpecEffects

namespace Expr

def NamesParams (P : String → Prop) (expr : Expr) : Prop :=
  ∀ node ∈ expr.nodes, ∀ param ∈ node.params, P param.name

variable {P : String → Prop} {expr : Expr}

theorem localDefinitions_kind {definition : NameDefinition}
    (member : definition ∈ expr.localDefinitions) : definition.kind ≠ .stateVariable := by
  induction expr with
  | literal id value => cases member
  | ref id name => cases member
  | app id operator args ih =>
    rw [localDefinitions, localDefinitionsOf_eq] at member
    obtain ⟨arg, present, member⟩ := List.mem_flatMap.mp member
    exact ih arg present member
  | lambda id params body ih =>
    rw [localDefinitions] at member
    rcases List.mem_append.mp member with own | member
    · obtain ⟨param, _, rfl⟩ := List.mem_map.mp own
      exact DefinitionKind.noConfusion
    · exact ih member
  | letIn id defId name bound body ih ih' =>
    rw [localDefinitions] at member
    rcases List.mem_append.mp member with member | member
    · rcases List.mem_cons.mp member with rfl | member
      · exact DefinitionKind.noConfusion
      · exact ih member
    · exact ih' member

theorem NamesParams.own (named : expr.NamesParams P) : ∀ param ∈ expr.params, P param.name :=
  named expr expr.mem_nodes_self

theorem NamesParams.part (named : expr.NamesParams P) {part : Expr} (member : part ∈ expr.parts) :
    part.NamesParams P :=
  fun node inside => named node (expr.innerNodes_subset (part_nodes_subset member inside))

end Expr

namespace Declaration

def stateVariable? : Declaration → Option String
  | .stateVariable _ name => some name
  | _ => none

theorem stateVariable?_of_definition {declaration : Declaration} {definition : NameDefinition}
    (member : definition ∈ declaration.definitions) (kind : definition.kind = .stateVariable) :
    declaration.stateVariable? = some definition.identifier := by
  cases declaration with
  | stateVariable id name =>
    cases List.mem_singleton.mp member
    rfl
  | constant id name =>
    cases List.mem_singleton.mp member
    cases kind
  | operator own =>
    rcases List.mem_cons.mp member with rfl | member
    · cases kind
    · exact absurd kind (Expr.localDefinitions_kind member)
  | assumption id name expr => exact absurd kind (Expr.localDefinitions_kind member)
  | submodule id name declarations => cases member

def NamesParams (P : String → Prop) (declaration : Declaration) : Prop :=
  ∀ inner ∈ declaration.all, ∀ expr, inner.expr? = some expr → expr.NamesParams P

variable {P : String → Prop} {declaration : Declaration}

theorem NamesParams.own (named : declaration.NamesParams P) {expr : Expr}
    (holds : declaration.expr? = some expr) : expr.NamesParams P :=
  named declaration declaration.mem_all_self expr holds

theorem NamesParams.inside {id : NodeId} {name : String} {declarations : List Declaration}
    (named : (submodule id name declarations).NamesParams P) (member : declaration ∈ declarations) :
    declaration.NamesParams P := by
  intro inner present
  apply named inner
  rw [all_submodule]
  exact List.mem_cons_of_mem _ (List.mem_flatMap.mpr ⟨declaration, member, present⟩)

end Declaration

namespace Module

def stateVariables (m : Module) : List String :=
  m.toDeclaration.all.filterMap Declaration.stateVariable?

theorem namesParams {P : String → Prop} {m : Module} (named : ∀ param ∈ m.params, P param.name) :
    m.toDeclaration.NamesParams P := by
  intro inner present expr holds node inside param member
  have stands : node ∈ inner.nodes := by
    rw [Declaration.nodes, holds]
    exact inside
  exact named param (List.mem_flatMap.mpr
    ⟨node, List.mem_flatMap.mpr ⟨inner, present, stands⟩, member⟩)

end Module

namespace Inference

inductive Supplies (signatures : SignatureTable) (state : State) : Effect → Prop
  | builtin {name : String} {arity : Nat} {effect : Effect}
    (found : signatures.signature? name arity = some effect) : Supplies signatures state effect
  | constant (components : List Component) (arity : Nat) :
    Supplies signatures state (Signature.instantiate (.propagate components) arity)
  | recorded {id : NodeId} {effect : Effect} (found : state.effects.get? id = some effect) :
    Supplies signatures state effect

structure Suits (signatures : SignatureTable) (vars : String → Prop) (context : Context) :
    Prop where
  signatures : context.signatures = signatures
  vars : ∀ definition ∈ context.table.definitions,
    definition.kind = .stateVariable → vars definition.identifier

theorem Suits.supplies {signatures : SignatureTable} {vars : String → Prop} {context : Context}
    (suits : Suits signatures vars context) {state : State} {name : String} {arity : Nat}
    {definition? : Option NameDefinition} {general : Effect}
    (looked : state.signature? context name arity definition? = .ok (some general)) :
    Supplies signatures state general := by
  rcases signature?_cases looked with ⟨_, found⟩ | ⟨_, components, _, _, rfl⟩ |
    ⟨_, site, _, _, recorded⟩
  · exact .builtin (suits.signatures ▸ found)
  · exact .constant components arity
  · exact .recorded recorded

theorem Suits.declares {signatures : SignatureTable} {vars : String → Prop} {context : Context}
    (suits : Suits signatures vars context) {name : String} {id : NodeId}
    {definition : NameDefinition} (resolved : context.resolve name id = .ok (some definition))
    (kind : definition.kind = .stateVariable) : vars name := by
  have listed := NameTable.mem_definitionsOf_of_resolve (mapError_eq_ok.mp resolved)
  obtain ⟨present, same⟩ := List.mem_filter.mp listed
  rw [← of_decide_eq_true same]
  exact suits.vars definition present kind

/-- A property of states and the effects that may be recorded in them, for these builtins and for
state variables and parameters with such names. -/
structure Invariant (signatures : SignatureTable) (vars params : String → Prop) where
  Holds : State → Prop
  Fits : State → Effect → Prop
  start : Holds .start
  later {state : State} (holds : Holds state) {fresh : FreshNames} (order : state.fresh ≤ fresh) :
    Holds { state with fresh }
  failed {state : State} (holds : Holds state) (id : NodeId) (error : InferenceError) :
    Holds (state.recordError id error)
  record {state : State} (holds : Holds state) {effect : Effect} (fits : Fits state effect)
    (id : NodeId) : Holds (state.record id effect)
  recorded {state : State} (holds : Holds state) {id : NodeId} {effect : Effect}
    (found : state.effects.get? id = some effect) : Fits state effect
  empty (state : State) : Fits state .empty
  reads (state : State) {name : String} (declared : vars name) : Fits state (.reads name)
  param (state : State) {name : String} (named : params name) (lambda : NodeId) :
    Fits state (.quantified (placeholder name lambda))
  learned {state : State} (holds : Holds state) {name : String} (named : params name)
    {lambda : NodeId} {effect : Effect}
    (run : state.running.apply (.quantified (placeholder name lambda)) = .ok effect) :
    Fits state effect
  arrow {state : State} {inputs : List Effect} {output : Effect}
    (each : ∀ input ∈ inputs, Fits state input) (fits : Fits state output) :
    Fits state (.arrow inputs output)
  copied {state opened : State} (holds : Holds state) {general : Effect}
    (supplied : Supplies signatures state general) {result : Except KindClash Effect}
    (run : state.instantiate general = (result, opened)) :
    Holds opened ∧ ∀ copy, result = .ok copy → Fits opened copy
  solved {opened after : State} (holds : Holds opened) {copy effect : Effect} {inputs : List Effect}
    (fits : Fits opened copy) (each : ∀ input ∈ inputs, Fits opened input)
    (run : (withResult opened).solve copy (usedAs opened inputs)
      (.quantified (resultName opened)) = .ok (effect, after)) :
    Holds after ∧ Fits after effect

/-- While a copy of the effect is made, names are numbered one by one, first those for effects and
then those for sets. -/
inductive Copying (state : State) (general : Effect) : State → Prop
  | effects {before rest : List String} (listed : general.effectNames.toList = before ++ rest) :
    Copying state general
      { state with fresh := (State.freshBindings state.fresh (stem .effect)
          Kind.effect.quantified before).2 }
  | sets {before rest : List String} (listed : general.variableNames.toList = before ++ rest) :
    Copying state general
      { state with fresh := (State.freshBindings (State.freshBindings state.fresh (stem .effect)
          Kind.effect.quantified general.effectNames.toList).2 (stem .variables)
          Kind.variables.quantified before).2 }
  | done : Copying state general (state.instantiate general).2

/-- While an operator is applied, a copy of its effect is made, the result gets a name, and what is
asked for is solved. -/
inductive Applying (state : State) (general : Effect) (inputs : List Effect) : State → Prop
  | copying {through : State} (inside : Copying state general through) :
    Applying state general inputs through
  | named {copy : Effect} {opened : State} (run : state.instantiate general = (.ok copy, opened)) :
    Applying state general inputs (withResult opened)
  | solved {copy effect : Effect} {opened after : State}
    (run : state.instantiate general = (.ok copy, opened))
    (solution : (withResult opened).solve copy (usedAs opened inputs)
      (.quantified (resultName opened)) = .ok (effect, after)) :
    Applying state general inputs after

inductive Visits (context : Context) : State → Expr → State → Prop
  | entered (state : State) (expr : Expr) : Visits context state expr state
  | left {state after : State} {expr : Expr} (run : inferExpr context state expr = .ok after) :
    Visits context state expr after
  | reference {state through : State} {id : NodeId} {name : String}
    {definition? : Option NameDefinition} {general : Effect}
    (resolved : context.resolve name id = .ok definition?)
    (operator : ∀ definition, definition? = some definition → definition.kind = .operator)
    (looked : state.signature? context name referenceArity definition? = .ok (some general))
    (inside : Copying state general through) : Visits context state (.ref id name) through
  | arg {state middle through : State} {id : NodeId} {operator : String} {before rest : List Expr}
    {arg : Expr} (early : inferExprs context state before = .ok middle)
    (inside : Visits context middle arg through) :
    Visits context state (.app id operator (before ++ arg :: rest)) through
  | application {state middle through : State} {id : NodeId} {operator : String}
    {args : List Expr} {inputs : List Effect} {definition? : Option NameDefinition}
    {general : Effect} (early : inferExprs context state args = .ok middle)
    (known : args.mapM (fun arg => middle.effects.get? arg.id) = some inputs)
    (resolved : context.resolve operator id = .ok definition?)
    (looked : middle.signature? context operator args.length definition? = .ok (some general))
    (inside : Applying middle general inputs through) :
    Visits context state (.app id operator args) through
  | params {state : State} {id : NodeId} {before rest : List Param} {body : Expr} :
    Visits context state (.lambda id (before ++ rest) body) (state.openLambda id before)
  | lambda {state through : State} {id : NodeId} {params : List Param} {body : Expr}
    (inside : Visits context (state.openLambda id params) body through) :
    Visits context state (.lambda id params body) through
  | bound {state through : State} {id defId : NodeId} {name : String} {bound body : Expr}
    (inside : Visits context state bound through) :
    Visits context state (.letIn id defId name bound body) through
  | body {state middle through : State} {id defId : NodeId} {name : String} {bound body : Expr}
    (early : inferExpr context state bound = .ok middle)
    (inside : Visits context (middle.copyEffect defId bound.id) body through) :
    Visits context state (.letIn id defId name bound body) through

inductive VisitsIn (env : Environment) : Context → State → Declaration → State → Prop
  | entered (context : Context) (state : State) (declaration : Declaration) :
    VisitsIn env context state declaration state
  | left {context : Context} {state after : State} {declaration : Declaration}
    (run : inferDeclaration env context state declaration = .ok after) :
    VisitsIn env context state declaration after
  | expr {context : Context} {state through : State} {declaration : Declaration} {expr : Expr}
    (holds : declaration.expr? = some expr) (inside : Visits context state expr through) :
    VisitsIn env context state declaration through
  | submodule {context inner : Context} {state middle through : State} {id : NodeId}
    {name : String} {before rest : List Declaration} {declaration : Declaration}
    (entered : env.context state ⟨id, name, before ++ declaration :: rest⟩ = .ok inner)
    (early : inferDeclarations env inner state before = .ok middle)
    (inside : VisitsIn env inner middle declaration through) :
    VisitsIn env context state (.submodule id name (before ++ declaration :: rest)) through

def VisitsModule (env : Environment) (m : Module) (through : State) : Prop :=
  ∃ context, VisitsIn env context .start m.toDeclaration through

namespace Invariant

variable {signatures : SignatureTable} {vars params : String → Prop} {context : Context}
  {state after through : State} {id : NodeId} (I : Invariant signatures vars params)

theorem copyEffect (holds : I.Holds state) (id source : NodeId) :
    I.Holds (state.copyEffect id source) := by
  have step := copyEffect_step state id source
  generalize state.copyEffect id source = after at step ⊢
  cases step with
  | copied found => exact I.record holds (I.recorded holds found) id
  | skipped => exact holds

theorem openLambda (holds : I.Holds state) (id : NodeId) {ps : List Param}
    (named : ∀ param ∈ ps, params param.name) : I.Holds (state.openLambda id ps) := by
  unfold State.openLambda
  induction ps generalizing state with
  | nil => exact holds
  | cons param rest ih =>
    obtain ⟨first, others⟩ := List.forall_mem_cons.mp named
    exact ih (I.record holds (I.param state first id) param.id) others

theorem learnedParams (holds : I.Holds state) {ps : List Param}
    (named : ∀ param ∈ ps, params param.name) {inputs : List Effect}
    (run : State.learnedParams state.running id ps = .ok inputs) :
    ∀ input ∈ inputs, I.Fits state input := by
  induction ps generalizing inputs with
  | nil =>
    cases run
    exact List.forall_mem_nil _
  | cons param rest ih =>
    obtain ⟨first, others⟩ := List.forall_mem_cons.mp named
    simp only [State.learnedParams, bind_eq_ok, pure_eq_ok] at run
    obtain ⟨effect, applied, effects, later, rfl⟩ := run
    exact List.forall_mem_cons.mpr ⟨I.learned holds first applied, ih others later⟩

theorem closeLambda (holds : I.Holds state) {ps : List Param}
    (named : ∀ param ∈ ps, params param.name) (body : Expr) :
    I.Holds (state.closeLambda id ps body) := by
  have step := closeLambda_step state id ps body
  generalize state.closeLambda id ps body = after at step ⊢
  cases step with
  | skipped => exact holds
  | closed found run =>
    exact I.record holds (I.arrow (I.learnedParams holds named run) (I.recorded holds found)) id
  | clashed => exact I.failed holds id _

theorem closeLet (holds : I.Holds state) {body : NodeId}
    (run : state.closeLet id body = .ok after) : I.Holds after := by
  cases closeLet_step run with
  | closed _ found => exact I.record holds (I.recorded holds found) id
  | skipped => exact holds

theorem copying (holds : I.Holds state) {general : Effect}
    (supplied : Supplies signatures state general)
    (inside : Copying state general through) : I.Holds through := by
  cases inside with
  | effects listed =>
    exact I.later holds (State.freshBindings_spec .effect _ _ _ _ rfl).1
  | sets listed =>
    exact I.later holds (FreshNames.le_trans (State.freshBindings_spec .effect _ _ _ _ rfl).1
      (State.freshBindings_spec .variables _ _ _ _ rfl).1)
  | done => exact (I.copied holds supplied rfl).1

section Applications

variable (holds : I.Holds state) {general : Effect}
  (supplied : Supplies signatures state general) {inputs : List Effect}
  (each : ∀ input ∈ inputs, ∃ id, state.effects.get? id = some input)

include holds supplied

include each in
theorem solution {copy effect : Effect} {opened : State}
    (run : state.instantiate general = (.ok copy, opened))
    (solution : (withResult opened).solve copy (usedAs opened inputs)
      (.quantified (resultName opened)) = .ok (effect, after)) :
    I.Holds after ∧ I.Fits after effect := by
  obtain ⟨begun, fits⟩ := I.copied holds supplied run
  refine I.solved begun (fits copy rfl) (fun input member => ?_) solution
  obtain ⟨id, found⟩ := each input member
  rw [← (instantiated run).effects] at found
  exact I.recorded begun found

theorem named {copy : Effect} {opened : State}
    (run : state.instantiate general = (.ok copy, opened)) : I.Holds (withResult opened) :=
  I.later (I.copied holds supplied run).1 (opened.fresh.le_next effectStem)

include each in
theorem applying (inside : Applying state general inputs through) : I.Holds through := by
  cases inside with
  | copying inside => exact I.copying holds supplied inside
  | named run => exact I.named holds supplied run
  | solved run solution => exact (I.solution holds supplied each run solution).1

include each in
theorem applySignature (expr : Expr) : I.Holds (state.applySignature expr inputs general) := by
  have step := applySignature_step state expr inputs general
  generalize state.applySignature expr inputs general = after at step ⊢
  cases step with
  | clashed run => exact I.failed (I.copied holds supplied run).1 expr.id _
  | failed run => exact I.failed (I.named holds supplied run) expr.id _
  | solved run found =>
    obtain ⟨done, fits⟩ := I.solution holds supplied each run found
    exact I.record done fits expr.id

end Applications

section Expressions

variable (suits : Suits signatures vars context)

include suits

theorem inferOperatorRef (holds : I.Holds state) {name : String}
    {definition? : Option NameDefinition}
    (run : state.inferOperatorRef context id name definition? = .ok after) : I.Holds after := by
  cases inferOperatorRef_step run with
  | unresolved => exact I.failed holds id _
  | copied looked instantiation =>
    obtain ⟨begun, fits⟩ := I.copied holds (suits.supplies looked) instantiation
    exact I.record begun (fits _ rfl) id
  | clashed looked instantiation =>
    exact I.failed (I.copied holds (suits.supplies looked) instantiation).1 id _

theorem inferApplication (holds : I.Holds state) {operator : String} {args : List Expr}
    (run : state.inferApplication context id operator args = .ok after) : I.Holds after := by
  cases inferApplication_step run with
  | skipped => exact holds
  | unresolved => exact I.failed holds id _
  | applied known _ looked =>
    refine I.applySignature holds (suits.supplies looked) (fun input member => ?_) _
    obtain ⟨arg, _, found⟩ := forall₂_mem_right known member
    exact ⟨arg.id, found⟩

theorem inferRef (holds : I.Holds state) {name : String}
    (run : state.inferRef context id name = .ok after) : I.Holds after := by
  cases inferRef_step run with
  | parameter _ _ _ recorded => exact I.record holds (I.recorded holds recorded) id
  | constant => exact I.record holds (I.empty state) id
  | stateVariable resolved kind =>
    exact I.record holds (I.reads state (suits.declares resolved kind)) id
  | operator _ _ run => exact I.inferOperatorRef suits holds run

theorem inferExpr {expr : Expr} (named : expr.NamesParams params) (holds : I.Holds state)
    (run : inferExpr context state expr = .ok after) : I.Holds after := by
  refine inferExpr_preserves (fun node member => ?_) holds run
  have own := named node member
  cases node with
  | literal id value =>
    intro state holds
    exact I.record holds (I.empty state) id
  | ref id name =>
    intro _ _ holds run
    exact I.inferRef suits holds run
  | app id operator args =>
    intro _ _ holds run
    exact I.inferApplication suits holds run
  | lambda id params body =>
    exact ⟨fun holds => I.openLambda holds id own, fun holds => I.closeLambda holds own body⟩
  | letIn id defId name bound body =>
    exact ⟨fun holds => I.copyEffect holds defId bound.id, fun holds run => I.closeLet holds run⟩

theorem visits {expr : Expr} (named : expr.NamesParams params) (holds : I.Holds state)
    (visits : Visits context state expr through) : I.Holds through := by
  have args : ∀ {state after : State} {args : List Expr}, (∀ arg ∈ args, arg.NamesParams params) →
      I.Holds state → Inference.inferExprs context state args = .ok after → I.Holds after :=
    fun named => inferExprs_preserve fun arg member _ _ => I.inferExpr suits (named arg member)
  induction visits with
  | entered state expr => exact holds
  | left run => exact I.inferExpr suits named holds run
  | reference _ _ looked inside => exact I.copying holds (suits.supplies looked) inside
  | arg early inside ih =>
    refine ih (named.part (by simp [Expr.parts])) (args (fun arg member => ?_) holds early)
    exact named.part (List.mem_append_left _ member)
  | application early known _ looked inside =>
    have begun := args (fun arg member => named.part member) holds early
    refine I.applying begun (suits.supplies looked) (fun input member => ?_) inside
    obtain ⟨arg, _, found⟩ := forall₂_mem_right (mapM_eq_some.mp known) member
    exact ⟨arg.id, found⟩
  | params =>
    exact I.openLambda holds _ fun param member => named.own param (List.mem_append_left _ member)
  | lambda inside ih =>
    exact ih (named.part List.mem_cons_self) (I.openLambda holds _ named.own)
  | bound inside ih => exact ih (named.part List.mem_cons_self) holds
  | body early inside ih =>
    have first := I.inferExpr suits (named.part List.mem_cons_self) holds early
    exact ih (named.part (by simp [Expr.parts])) (I.copyEffect first _ _)

end Expressions

section Declarations

variable {env : Environment}

variable (inside : ∀ {state n inner}, env.context state n = .ok inner →
  Suits signatures vars inner)

include inside

theorem inferDeclaration {declaration : Declaration}
    (named : declaration.NamesParams params)
    (suits : ∀ expr, declaration.expr? = some expr → Suits signatures vars context)
    (holds : I.Holds state) (run : inferDeclaration env context state declaration = .ok after) :
    I.Holds after :=
  inferDeclaration_preserves inside
    (fun inner member expr found _ _ _ suits holds run =>
      I.inferExpr suits (named inner member expr found) holds run)
    (fun _ _ _ holds => I.copyEffect holds _ _) suits holds run

theorem visitsIn {declaration : Declaration} (named : declaration.NamesParams params)
    (suits : ∀ expr, declaration.expr? = some expr → Suits signatures vars context)
    (holds : I.Holds state) (visits : VisitsIn env context state declaration through) :
    I.Holds through := by
  induction visits with
  | entered context state declaration => exact holds
  | left run => exact I.inferDeclaration inside named suits holds run
  | expr found visits => exact I.visits (suits _ found) (named.own found) holds visits
  | submodule entered early visits ih =>
    refine ih (named.inside (by simp)) (fun _ _ => inside entered) ?_
    exact inferDeclarations_preserve (fun declaration member _ _ =>
      I.inferDeclaration inside (named.inside (List.mem_append_left _ member))
        fun _ _ => inside entered) holds early

end Declarations

theorem suits_of_module {m n : Module} {names : List String} {inner : Context}
    (declared : ∀ name ∈ m.stateVariables, vars name)
    (entered : Environment.context ⟨signatures, m.nameTables names⟩ state n = .ok inner) :
    Suits signatures vars inner := by
  obtain ⟨table, found, rfl⟩ := context_eq_ok.mp entered
  refine ⟨rfl, fun definition member kind => ?_⟩
  rcases Module.definitions_spec found member with ⟨operator, _⟩ | ⟨declaration, all, member⟩
  · cases operator.symm.trans kind
  · exact declared _ (List.mem_filterMap.mpr
      ⟨declaration, all, Declaration.stateVariable?_of_definition member kind⟩)

/-- An invariant holds of all states that inference of a module comes by. -/
theorem holds_of_visits {m : Module} {names : List String}
    (declared : ∀ name ∈ m.stateVariables, vars name)
    (named : ∀ param ∈ m.params, params param.name)
    (visits : VisitsModule ⟨signatures, m.nameTables names⟩ m through) : I.Holds through := by
  obtain ⟨context, visits⟩ := visits
  have none : ∀ expr, m.toDeclaration.expr? = some expr → Suits signatures vars context :=
    fun expr found => absurd found.symm (Option.some_ne_none expr)
  exact I.visitsIn (suits_of_module declared) (Module.namesParams named) none I.start visits

end Invariant

theorem visitsModule_of_run {env : Environment} {m : Module} {after : State}
    (run : inferModule env .start m = .ok after) : VisitsModule env m after :=
  ⟨⟨env.signatures, ⟨[]⟩, m.scopeTree⟩, .left run⟩

end Inference

end SpecEffects
