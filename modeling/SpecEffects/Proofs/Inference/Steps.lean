import SpecEffects.Inference.Traversal
import SpecEffects.Proofs.Application
import SpecEffects.Proofs.Tree

/-!
What each step of inference can do. A step has a few outcomes, and an outcome says what was known
before and which state there is afterwards. Properties of the steps are read off these outcomes, so
that a step is taken apart in one place. What the steps at all nodes of an expression or of a module
keep is kept by inference of the whole.
-/
namespace SpecEffects.Inference

variable {context : Context} {state after : State} {id : NodeId} {name : String}

def resultName (state : State) : String := (state.fresh.next effectStem).1

def withResult (state : State) : State := { state with fresh := (state.fresh.next effectStem).2 }

def usedAs (state : State) (args : List Effect) : Effect := .arrow args (.quantified (resultName state))

theorem parameterEffect_eq_ok {definition : NameDefinition} {effect : Effect}
    (run : state.parameterEffect definition = .ok effect) :
    ∃ site, definition.reference = some site ∧ state.effects.get? site = some effect := by
  unfold State.parameterEffect at run
  split at run
  · cases run
  · rename_i site reference
    split at run
    · cases run
    · rename_i found recorded
      cases run
      exact ⟨site, reference, recorded⟩

inductive OperatorRefStep (context : Context) (id : NodeId) (name : String)
    (definition? : Option NameDefinition) (state : State) : State → Prop
  | unresolved (looked : state.signature? context name referenceArity definition? = .ok none) :
    OperatorRefStep context id name definition? state
      (state.recordError id (.unresolvedSignature name))
  | copied {general copy : Effect} {opened : State}
    (looked : state.signature? context name referenceArity definition? = .ok (some general))
    (run : state.instantiate general = (.ok copy, opened)) :
    OperatorRefStep context id name definition? state (opened.record id copy)
  | clashed {general : Effect} {clash : KindClash} {opened : State}
    (looked : state.signature? context name referenceArity definition? = .ok (some general))
    (run : state.instantiate general = (.error clash, opened)) :
    OperatorRefStep context id name definition? state
      (opened.recordError id (.instantiation (.ref id name) (.kindMismatch clash)))

theorem inferOperatorRef_step {definition? : Option NameDefinition}
    (run : state.inferOperatorRef context id name definition? = .ok after) :
    OperatorRefStep context id name definition? state after := by
  simp only [State.inferOperatorRef, bind_eq_ok, State.orHalt, mapError_eq_ok] at run
  obtain ⟨general?, looked, run⟩ := run
  split at run
  · cases run
    exact .unresolved looked
  · split at run
    · rename_i copied
      cases run
      exact .copied looked copied
    · rename_i clashed
      cases run
      exact .clashed looked clashed

theorem inferOperatorRef_of_copy {definition? : Option NameDefinition} {general copy : Effect}
    {opened : State}
    (looked : state.signature? context name referenceArity definition? = .ok (some general))
    (run : state.instantiate general = (.ok copy, opened)) :
    state.inferOperatorRef context id name definition? = .ok (opened.record id copy) := by
  simp only [State.inferOperatorRef, looked, run, State.orHalt, Except.mapError, bind, Except.bind,
    pure, Except.pure]

theorem exists_inferOperatorRef {definition? : Option NameDefinition} {general? : Option Effect}
    (looked : state.signature? context name referenceArity definition? = .ok general?) :
    ∃ after, state.inferOperatorRef context id name definition? = .ok after := by
  unfold State.inferOperatorRef
  rw [looked]
  simp only [State.orHalt, Except.mapError, bind, Except.bind]
  cases general? with
  | none => exact ⟨_, rfl⟩
  | some general =>
    dsimp only
    split <;> exact ⟨_, rfl⟩

inductive RefStep (context : Context) (id : NodeId) (name : String) (state : State) : State → Prop
  | parameter {definition : NameDefinition} {site : NodeId} {effect : Effect}
    (resolved : context.resolve name id = .ok (some definition))
    (kind : definition.kind = .parameter) (reference : definition.reference = some site)
    (recorded : state.effects.get? site = some effect) :
    RefStep context id name state (state.record id effect)
  | constant {definition : NameDefinition}
    (resolved : context.resolve name id = .ok (some definition))
    (kind : definition.kind = .constant) : RefStep context id name state (state.record id .empty)
  | stateVariable {definition : NameDefinition}
    (resolved : context.resolve name id = .ok (some definition))
    (kind : definition.kind = .stateVariable) :
    RefStep context id name state (state.record id (.reads name))
  | operator {definition? : Option NameDefinition} {after : State}
    (resolved : context.resolve name id = .ok definition?)
    (kind : ∀ definition, definition? = some definition → definition.kind = .operator)
    (run : state.inferOperatorRef context id name definition? = .ok after) :
    RefStep context id name state after

theorem inferRef_step (run : state.inferRef context id name = .ok after) :
    RefStep context id name state after := by
  simp only [State.inferRef, bind_eq_ok, State.orHalt, mapError_eq_ok] at run
  obtain ⟨definition?, resolved, run⟩ := run
  split at run
  · exact .operator resolved (fun _ same => by cases same) run
  · split at run
    · rename_i kind
      simp only [bind_eq_ok, mapError_eq_ok, pure_eq_ok] at run
      obtain ⟨effect, found, rfl⟩ := run
      obtain ⟨site, reference, recorded⟩ := parameterEffect_eq_ok found
      exact .parameter resolved kind reference recorded
    · rename_i kind
      cases run
      exact .constant resolved kind
    · rename_i kind
      cases run
      exact .stateVariable resolved kind
    · rename_i kind
      refine .operator resolved (fun other same => ?_) run
      cases same
      exact kind

theorem exists_inferRef {definition? : Option NameDefinition} {general? : Option Effect}
    (resolved : context.resolve name id = .ok definition?)
    (grounded : ∀ definition, definition? = some definition → definition.kind = .parameter →
      ∃ effect, state.parameterEffect definition = .ok effect)
    (looked : state.signature? context name referenceArity definition? = .ok general?) :
    ∃ after, state.inferRef context id name = .ok after := by
  unfold State.inferRef
  rw [resolved]
  simp only [State.orHalt, Except.mapError, bind, Except.bind]
  cases definition? with
  | none => exact exists_inferOperatorRef looked
  | some definition =>
    dsimp only
    split
    · rename_i kind
      obtain ⟨effect, found⟩ := grounded definition rfl kind
      rw [found]
      exact ⟨_, rfl⟩
    · exact ⟨_, rfl⟩
    · exact ⟨_, rfl⟩
    · exact exists_inferOperatorRef looked

/-- The signature cannot be copied, or it does not allow the use, or it does and the application gets
the effect that comes out. -/
inductive SignatureStep (expr : Expr) (args : List Effect) (general : Effect) (state : State) :
    State → Prop
  | clashed {clash : KindClash} {opened : State}
    (run : state.instantiate general = (.error clash, opened)) :
    SignatureStep expr args general state
      (opened.recordError expr.id (.instantiation expr (.kindMismatch clash)))
  | failed {copy : Effect} {opened : State} {cause : UnificationError}
    (run : state.instantiate general = (.ok copy, opened))
    (failure : (withResult opened).solve copy (usedAs opened args)
      (.quantified (resultName opened)) = .error cause) :
    SignatureStep expr args general state
      ((withResult opened).recordError expr.id (.application expr cause))
  | solved {copy effect : Effect} {opened last : State}
    (run : state.instantiate general = (.ok copy, opened))
    (solution : (withResult opened).solve copy (usedAs opened args)
      (.quantified (resultName opened)) = .ok (effect, last)) :
    SignatureStep expr args general state (last.record expr.id effect)

theorem applySignature_step (state : State) (expr : Expr) (args : List Effect) (general : Effect) :
    SignatureStep expr args general state (state.applySignature expr args general) := by
  unfold State.applySignature
  split
  · rename_i clashed
    exact .clashed clashed
  · rename_i copied
    dsimp only
    split
    · rename_i solution
      exact .solved copied solution
    · rename_i failure
      exact .failed copied failure

theorem applySignature_of_clash {general : Effect} {clash : KindClash} {opened : State}
    (run : state.instantiate general = (.error clash, opened)) (expr : Expr) (args : List Effect) :
    state.applySignature expr args general =
      opened.recordError expr.id (.instantiation expr (.kindMismatch clash)) := by
  rw [State.applySignature, run]

inductive ApplicationStep (context : Context) (id : NodeId) (operator : String) (args : List Expr)
    (state : State) : State → Prop
  | skipped {arg : Expr} (member : arg ∈ args) (missing : state.effects.get? arg.id = none) :
    ApplicationStep context id operator args state state
  | unresolved {inputs : List Effect} {definition? : Option NameDefinition}
    (known : List.Forall₂ (fun arg input => state.effects.get? arg.id = some input) args inputs)
    (resolved : context.resolve operator id = .ok definition?)
    (looked : state.signature? context operator args.length definition? = .ok none) :
    ApplicationStep context id operator args state
      (state.recordError id (.unresolvedSignature operator))
  | applied {inputs : List Effect} {definition? : Option NameDefinition} {general : Effect}
    (known : List.Forall₂ (fun arg input => state.effects.get? arg.id = some input) args inputs)
    (resolved : context.resolve operator id = .ok definition?)
    (looked : state.signature? context operator args.length definition? = .ok (some general)) :
    ApplicationStep context id operator args state
      (state.applySignature (.app id operator args) inputs general)

theorem exists_missing {args : List Expr}
    (unknown : (args.mapM fun arg => state.effects.get? arg.id) = none) :
    ∃ arg ∈ args, state.effects.get? arg.id = none := by
  by_contra all
  have present : ∀ arg ∈ args, ∃ effect, state.effects.get? arg.id = some effect :=
    fun arg member => Option.ne_none_iff_exists'.mp fun missing => all ⟨arg, member, missing⟩
  obtain ⟨inputs, known⟩ := exists_forall₂ present
  cases unknown.symm.trans (mapM_eq_some.mpr known)

theorem inferApplication_step {operator : String} {args : List Expr}
    (run : state.inferApplication context id operator args = .ok after) :
    ApplicationStep context id operator args state after := by
  unfold State.inferApplication at run
  split at run
  · rename_i unknown
    cases run
    obtain ⟨arg, member, missing⟩ := exists_missing unknown
    exact .skipped member missing
  · rename_i inputs known
    simp only [bind_eq_ok, State.orHalt, mapError_eq_ok] at run
    obtain ⟨definition?, resolved, general?, looked, run⟩ := run
    split at run
    · cases run
      exact .unresolved (mapM_eq_some.mp known) resolved looked
    · cases run
      exact .applied (mapM_eq_some.mp known) resolved looked

theorem inferApplication_of_known {operator : String} {args : List Expr} {inputs : List Effect}
    {definition? : Option NameDefinition} {general : Effect}
    (known : List.Forall₂ (fun arg input => state.effects.get? arg.id = some input) args inputs)
    (resolved : context.resolve operator id = .ok definition?)
    (looked : state.signature? context operator args.length definition? = .ok (some general)) :
    state.inferApplication context id operator args =
      .ok (state.applySignature (.app id operator args) inputs general) := by
  rw [State.inferApplication, mapM_eq_some.mpr known]
  simp only [resolved, looked, State.orHalt, Except.mapError, bind, Except.bind, pure, Except.pure]

theorem exists_inferApplication {operator : String} {args : List Expr}
    {definition? : Option NameDefinition} {general? : Option Effect}
    (resolved : context.resolve operator id = .ok definition?)
    (looked : state.signature? context operator args.length definition? = .ok general?) :
    ∃ after, state.inferApplication context id operator args = .ok after := by
  unfold State.inferApplication
  split
  · exact ⟨_, rfl⟩
  · rw [resolved]
    simp only [State.orHalt, Except.mapError, bind, Except.bind]
    rw [looked]
    cases general? <;> exact ⟨_, rfl⟩

inductive LambdaStep (id : NodeId) (params : List Param) (body : Expr) (state : State) :
    State → Prop
  | skipped (missing : state.effects.get? body.id = none) : LambdaStep id params body state state
  | closed {inputs : List Effect} {output : Effect}
    (recorded : state.effects.get? body.id = some output)
    (learned : State.learnedParams state.running id params = .ok inputs) :
    LambdaStep id params body state (state.record id (.arrow inputs output))
  | clashed {output : Effect} {clash : KindClash}
    (recorded : state.effects.get? body.id = some output)
    (unlearned : State.learnedParams state.running id params = .error clash) :
    LambdaStep id params body state
      (state.recordError id (.instantiation (.lambda id params body) (.kindMismatch clash)))

theorem closeLambda_step (state : State) (id : NodeId) (params : List Param) (body : Expr) :
    LambdaStep id params body state (state.closeLambda id params body) := by
  unfold State.closeLambda
  split
  · rename_i missing
    exact .skipped missing
  · rename_i recorded
    split
    · rename_i learned
      exact .closed recorded learned
    · rename_i unlearned
      exact .clashed recorded unlearned

inductive LetStep (id body : NodeId) (state : State) : State → Prop
  | closed {effect : Effect} (calm : state.errors.isEmpty = true)
    (recorded : state.effects.get? body = some effect) :
    LetStep id body state (state.record id effect)
  | skipped (failed : state.errors.isEmpty = false) : LetStep id body state state

theorem closeLet_step {body : NodeId} (run : state.closeLet id body = .ok after) :
    LetStep id body state after := by
  unfold State.closeLet at run
  split at run
  · rename_i calm
    split at run
    · rename_i recorded
      cases run
      exact .closed calm recorded
    · cases run
  · rename_i failed
    cases run
    exact .skipped (Bool.eq_false_iff.mpr failed)

theorem exists_closeLet {body : NodeId}
    (known : state.errors.isEmpty = true → ∃ effect, state.effects.get? body = some effect) :
    ∃ after, state.closeLet id body = .ok after := by
  unfold State.closeLet
  split
  · rename_i calm
    obtain ⟨effect, recorded⟩ := known calm
    rw [recorded]
    exact ⟨_, rfl⟩
  · exact ⟨_, rfl⟩

inductive CopyStep (id source : NodeId) (state : State) : State → Prop
  | copied {effect : Effect} (recorded : state.effects.get? source = some effect) :
    CopyStep id source state (state.record id effect)
  | skipped (missing : state.effects.get? source = none) : CopyStep id source state state

theorem copyEffect_step (state : State) (id source : NodeId) :
    CopyStep id source state (state.copyEffect id source) := by
  unfold State.copyEffect
  split
  · rename_i recorded
    exact .copied recorded
  · rename_i missing
    exact .skipped missing

theorem context_eq_ok {env : Environment} {m : Module} :
    env.context state m = .ok context ↔
      ∃ table, env.tables.get? m.name = some table ∧ context = ⟨env.signatures, table, m.scopeTree⟩ := by
  unfold Environment.context
  constructor
  · intro entered
    split at entered
    · rename_i table found
      cases entered
      exact ⟨table, found, rfl⟩
    · cases entered
  · rintro ⟨table, found, rfl⟩
    rw [found]

theorem signatures_of_context {env : Environment} {m : Module}
    (entered : env.context state m = .ok context) : context.signatures = env.signatures := by
  obtain ⟨table, _, rfl⟩ := context_eq_ok.mp entered
  rfl

/-- The steps that inference takes at this node itself keep the property. -/
def StepsKeep (P : State → Prop) (context : Context) : Expr → Prop
  | .literal id _ => ∀ {state}, P state → P (state.record id .empty)
  | .ref id name => ∀ {state after}, P state → state.inferRef context id name = .ok after → P after
  | .app id operator args => ∀ {state after}, P state →
    state.inferApplication context id operator args = .ok after → P after
  | .lambda id params body => (∀ {state}, P state → P (state.openLambda id params)) ∧
    ∀ {state}, P state → P (state.closeLambda id params body)
  | .letIn id defId _ bound body => (∀ {state}, P state → P (state.copyEffect defId bound.id)) ∧
    ∀ {state after}, P state → state.closeLet id body.id = .ok after → P after

section Whole

variable {P : State → Prop} {env : Environment}

theorem inferExprs_preserve {args : List Expr}
    (each : ∀ arg ∈ args, ∀ {state after}, P state → inferExpr context state arg = .ok after → P after)
    (holds : P state) (run : inferExprs context state args = .ok after) : P after := by
  induction args generalizing state with
  | nil =>
    cases run
    exact holds
  | cons arg rest ih =>
    simp only [inferExprs, bind_eq_ok] at run
    obtain ⟨middle, first, later⟩ := run
    exact ih (fun other member => each other (List.mem_cons_of_mem _ member))
      (each arg List.mem_cons_self holds first) later

theorem inferExpr_preserves {expr : Expr} (steps : ∀ node ∈ expr.nodes, StepsKeep P context node)
    (holds : P state) (run : inferExpr context state expr = .ok after) : P after := by
  have own := steps expr expr.mem_nodes_self
  induction expr generalizing state after with
  | literal id value =>
    cases run
    exact own holds
  | ref id name => exact own holds run
  | app id operator args ih =>
    simp only [inferExpr, bind_eq_ok] at run
    obtain ⟨middle, parts, whole⟩ := run
    have inside : ∀ arg ∈ args, ∀ node ∈ arg.nodes, StepsKeep P context node := by
      intro arg member node within
      refine steps node ?_
      rw [Expr.nodes, Expr.nodesOf_eq]
      exact List.mem_cons_of_mem _ (List.mem_flatMap.mpr ⟨arg, member, within⟩)
    exact own (inferExprs_preserve (fun arg member _ _ holds run =>
      ih arg member (inside arg member) holds run (inside arg member arg arg.mem_nodes_self))
      holds parts) whole
  | lambda id params body ih =>
    simp only [inferExpr, bind_eq_ok, pure_eq_ok] at run
    obtain ⟨middle, inner, rfl⟩ := run
    have inside : ∀ node ∈ body.nodes, StepsKeep P context node := fun node within =>
      steps node (List.mem_cons_of_mem _ within)
    exact own.2 (ih inside (own.1 holds) inner (inside body body.mem_nodes_self))
  | letIn id defId name bound body ih ih' =>
    simp only [inferExpr, bind_eq_ok] at run
    obtain ⟨defined, first, between, second, close⟩ := run
    have early : ∀ node ∈ bound.nodes, StepsKeep P context node := fun node within =>
      steps node (List.mem_append_left _ (List.mem_cons_of_mem _ within))
    have late : ∀ node ∈ body.nodes, StepsKeep P context node := fun node within =>
      steps node (List.mem_append_right _ within)
    have bound := ih early holds first (early bound bound.mem_nodes_self)
    exact own.2 (ih' late (own.1 bound) second (late body body.mem_nodes_self)) close

theorem inferDeclarations_preserve {declarations : List Declaration}
    (each : ∀ declaration ∈ declarations, ∀ {state after}, P state →
      inferDeclaration env context state declaration = .ok after → P after)
    (holds : P state) (run : inferDeclarations env context state declarations = .ok after) :
    P after := by
  induction declarations generalizing state with
  | nil =>
    cases run
    exact holds
  | cons declaration rest ih =>
    simp only [inferDeclarations, bind_eq_ok] at run
    obtain ⟨middle, first, later⟩ := run
    exact ih (fun other member => each other (List.mem_cons_of_mem _ member))
      (each declaration List.mem_cons_self holds first) later

/-- Modules inside are entered with contexts of their own, and something may be known of all these. -/
theorem inferDeclaration_preserves {Q : Context → Prop}
    (enters : ∀ {state n inner}, env.context state n = .ok inner → Q inner)
    {declaration : Declaration}
    (exprs : ∀ inner ∈ declaration.all, ∀ expr, inner.expr? = some expr →
      ∀ {context state after}, Q context → P state → inferExpr context state expr = .ok after → P after)
    (copies : ∀ definition, .operator definition ∈ declaration.all → ∀ {state}, P state →
      P (state.copyEffect definition.id definition.body.id))
    (here : ∀ expr, declaration.expr? = some expr → Q context) (holds : P state)
    (run : inferDeclaration env context state declaration = .ok after) : P after := by
  induction declaration generalizing context state after with
  | stateVariable id name =>
    cases run
    exact holds
  | constant id name =>
    cases run
    exact holds
  | operator definition =>
    simp only [inferDeclaration, bind_eq_ok, pure_eq_ok] at run
    obtain ⟨middle, inner, rfl⟩ := run
    have itself := Declaration.mem_all_self (.operator definition)
    exact copies definition itself (exprs _ itself _ rfl (here _ rfl) holds inner)
  | assumption id name expr =>
    exact exprs _ (Declaration.mem_all_self _) expr rfl (here expr rfl) holds run
  | submodule id name declarations ih =>
    simp only [inferDeclaration, bind_eq_ok] at run
    obtain ⟨inner, entered, run⟩ := run
    have inside : ∀ declaration ∈ declarations, declaration.all ⊆
        (Declaration.submodule id name declarations).all := by
      intro declaration member other within
      rw [Declaration.all_submodule]
      exact List.mem_cons_of_mem _ (List.mem_flatMap.mpr ⟨declaration, member, within⟩)
    exact inferDeclarations_preserve (fun declaration member _ _ => ih declaration member
      (fun other within => exprs other (inside declaration member within))
      (fun definition within => copies definition (inside declaration member within))
      fun _ _ => enters entered) holds run

end Whole

end SpecEffects.Inference
