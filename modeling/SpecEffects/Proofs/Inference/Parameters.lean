import SpecEffects.Proofs.Inference.Evaluation
import SpecEffects.Proofs.Inference.Replacement
import SpecEffects.Proofs.Inference.SignatureNames

/-!
The two records of a parameter. What is learned about a parameter is put into the effect at its own
site, and it is composed into the running substitution as well, from which a lambda takes the effects
of its parameters when it is closed. Without lets, and where no parameter is applied, each step of
inference changes both in the same way.
-/
namespace SpecEffects

theorem Module.site_not_mem_ids {m : Module} {names : List String} {key : String} {table : NameTable}
    (distinct : m.ids.Nodup)
    (lets : ∀ declaration ∈ m.toDeclaration.all, ∀ node ∈ declaration.nodes, node.isLet = false)
    (found : (m.nameTables names).get? key = some table) {declaration : Declaration}
    (member : declaration ∈ m.toDeclaration.all) {expr : Expr} (holds : declaration.expr? = some expr)
    {definition : NameDefinition} (listed : definition ∈ table.definitions)
    (other : definition.kind ≠ .parameter) {site : NodeId}
    (reference : definition.reference = some site) : site ∉ expr.ids := by
  intro within
  rcases definitions_spec found listed with ⟨_, none⟩ | ⟨origin, inside, defined⟩
  · cases none.symm.trans reference
  rcases Declaration.definitions_spec defined with ⟨_, _, own⟩ | ⟨body, holds', bound⟩
  · cases own.symm.trans reference
    exact Declaration.not_mem_headIds distinct member holds within (Declaration.id_mem_headIds inside)
  · rw [Expr.localDefinitions_eq] at bound
    obtain ⟨node, part, bound⟩ := List.mem_flatMap.mp bound
    cases node with
    | lambda id params body =>
      obtain ⟨param, _, rfl⟩ := List.mem_map.mp bound
      exact other rfl
    | letIn id defId name value rest =>
      have part : .letIn id defId name value rest ∈ origin.nodes := by
        rw [Declaration.nodes, holds']
        exact part
      cases lets origin inside _ part
    | _ => cases bound

namespace Inference

open Substitution

variable {frame : Frame} {foreign : String → Prop} {stable : NodeId → Prop} {context : Context}
  {state after last : State} {id : NodeId}

def Agrees (state : State) (site : NodeId) (name : String) : Prop :=
  ∃ effect, state.effects.get? site = some effect ∧
    state.running.apply (.quantified name) = .ok effect

def StillAgrees (frame : Frame) (state after : State) : Prop :=
  ∀ ⦃site name⦄, frame.ids site → Agrees state site name → Agrees after site name

theorem StillAgrees.trans (first : StillAgrees frame state after)
    (second : StillAgrees frame after last) : StillAgrees frame state last :=
  fun _ _ inside agrees => second inside (first inside agrees)

theorem StillAgrees.of_same (effects : after.effects = state.effects)
    (running : after.running = state.running) : StillAgrees frame state after := by
  rintro site name _ ⟨effect, recorded, learned⟩
  exact ⟨effect, effects ▸ recorded, running ▸ learned⟩

theorem agrees_recordError (state : State) (id : NodeId) (error : InferenceError) :
    StillAgrees frame state (state.recordError id error) :=
  .of_same (effects_recordError _ _ _) (running_recordError _ _ _)

theorem agrees_record (missing : state.effects.get? id = none) (effect : Effect) :
    StillAgrees frame state (state.record id effect) := by
  rintro site name _ ⟨old, recorded, learned⟩
  exact ⟨old, get?_record_of_missing missing recorded, learned⟩

theorem agrees_learned {new : Substitution} (canonical : new.Canonical)
    (values : state.running.Canonical) (composed : new.compose state.running = .ok after.running)
    (changed : ∀ {site effect}, frame.ids site → state.effects.get? site = some effect →
      ∃ result, new.apply effect = .ok result ∧ after.effects.get? site = some result) :
    StillAgrees frame state after := by
  rintro site name inside ⟨effect, recorded, learned⟩
  obtain ⟨result, applied, recorded'⟩ := changed inside recorded
  exact ⟨result, recorded', (apply_compose canonical values composed).mpr ⟨effect, learned, applied⟩⟩

def Avoids (frame : Frame) (general : Effect) : Prop :=
  ∀ ⦃name⦄, general.Uses .effect name → isPlaceholder name = true →
    ∀ kind now, ¬ frame.own now kind name

theorem agrees_instantiate (holds : frame.Holds foreign state) {general : Effect}
    {result : Except KindClash Effect} (avoids : Avoids frame general)
    (run : Instantiated state general result after) : StillAgrees frame state after := by
  rcases run.running with same | ⟨learned, renames, keys, composed⟩
  · exact .of_same run.effects same
  · -- New names are not put into the effects, so they must not be for names that are used there.
    refine agrees_learned renames.canonical holds.values composed fun inside recorded => ?_
    rw [run.effects]
    refine ⟨_, apply_self (holds.canonical recorded) fun kind name used => ?_, recorded⟩
    cases found : learned.get? name with
    | none => rfl
    | some value =>
      obtain ⟨used', marked⟩ := keys _ (mem_of_get? found)
      exact absurd (holds.inside recorded inside kind name used) (avoids used' marked kind _)

theorem agrees_solve (holds : frame.Holds foreign state) {signature used result effect : Effect}
    (canonical : signature.Canonical) (canonical' : used.Canonical)
    (run : state.solve signature used result = .ok (effect, after)) :
    StillAgrees frame state after ∧
      ∀ {id}, state.effects.get? id = none → after.effects.get? id = none := by
  obtain ⟨learned, running, effects, solved, added, changed, _, rfl⟩ := solve_eq_ok run
  have rewritten := SortedMap.get?_mapValues changed
  exact ⟨agrees_learned (Effect.unify_canonical canonical canonical' solved).1 holds.values added
    fun _ recorded => (rewritten _).1 _ recorded, fun missing => (rewritten _).2 missing⟩

section Steps

variable (plain : Plain context.signatures) (holds : frame.Holds foreign state)

include plain holds in
theorem avoids_of_signature {name : String} {arity : Nat} {definition? : Option NameDefinition}
    {general : Effect} (outer : ∀ definition site, definition? = some definition →
      definition.reference = some site → ¬ frame.ids site)
    (run : state.signature? context name arity definition? = .ok (some general)) :
    Avoids frame general := by
  intro other used marked kind now
  rcases signature?_cases run with ⟨_, found⟩ | ⟨_, components, _, _, rfl⟩ |
    ⟨definition, site, same, reference, recorded⟩
  · cases marked.symm.trans ((plain found).2 other used)
  · exact absurd used ((propagate_spec components arity).2 other)
  · exact Frame.not_own_of_outside
      (holds.outside recorded (outer definition site same reference) _ _ used)

variable (missing : state.effects.get? id = none)

include missing

include plain holds in
theorem agrees_inferOperatorRef {name : String} {definition? : Option NameDefinition}
    (outer : ∀ definition site, definition? = some definition →
      definition.reference = some site → ¬ frame.ids site)
    (run : state.inferOperatorRef context id name definition? = .ok after) :
    StillAgrees frame state after := by
  cases inferOperatorRef_step run with
  | unresolved => exact agrees_recordError _ _ _
  | copied looked instantiation =>
    have avoids := avoids_of_signature plain holds outer looked
    have inst := instantiated instantiation
    exact (agrees_instantiate holds avoids inst).trans (agrees_record (inst.effects ▸ missing) _)
  | clashed looked instantiation =>
    have avoids := avoids_of_signature plain holds outer looked
    exact (agrees_instantiate holds avoids (instantiated instantiation)).trans
      (agrees_recordError _ _ _)

include holds in
theorem agrees_applySignature {operator : String} {args : List Expr} {inputs : List Effect}
    {general : Effect} (avoids : Avoids frame general) (canonical : general.Canonical)
    (named : ∀ other, general.Uses .effect other →
      (∃ kind, frame.known state.fresh kind other) ∨ foreign other)
    (given : ∀ input ∈ inputs, input.Canonical) :
    StillAgrees frame state (state.applySignature (.app id operator args) inputs general) := by
  have begun {copy : Effect} {opened : State}
      (instantiation : state.instantiate general = (.ok copy, opened)) :
      StillAgrees frame state (withResult opened) :=
    (agrees_instantiate holds avoids (instantiated instantiation)).trans (.of_same rfl rfl)
  have step := applySignature_step state (.app id operator args) inputs general
  generalize state.applySignature (.app id operator args) inputs general = after at step ⊢
  cases step with
  | clashed instantiation =>
    exact (agrees_instantiate holds avoids (instantiated instantiation)).trans
      (agrees_recordError _ _ _)
  | failed instantiation => exact (begun instantiation).trans (agrees_recordError _ _ _)
  | @solved copy effect opened last instantiation solution =>
    have inst := instantiated instantiation
    have moved := (holds.instantiate inst named).later (opened.fresh.le_next effectStem)
    obtain ⟨solves, unrecorded⟩ := agrees_solve moved (holds.copy inst canonical).1
      (.arrow given (.quantified _)) solution
    exact ((begun instantiation).trans solves).trans
      (agrees_record (unrecorded (inst.effects ▸ missing)) _)

end Steps

def Outward (frame : Frame) (context : Context) : Expr → Prop
  | .ref id name => ∀ definition site, context.resolve name id = .ok (some definition) →
    definition.kind ≠ .parameter → definition.reference = some site → ¬ frame.ids site
  | .app id operator _ => ∀ definition site, context.resolve operator id = .ok (some definition) →
    definition.reference = some site → ¬ frame.ids site
  | .letIn _ _ _ _ _ => False
  | _ => True

section Nodes

variable (fitting : Fitting frame foreign stable context) (plain : Plain context.signatures)
  (holds : frame.Holds foreign state) (missing : state.effects.get? id = none)

include plain holds missing

theorem agrees_inferRef {name : String} (outward : Outward frame context (.ref id name))
    (run : state.inferRef context id name = .ok after) : StillAgrees frame state after := by
  cases inferRef_step run with
  | parameter => exact agrees_record missing _
  | constant => exact agrees_record missing _
  | stateVariable => exact agrees_record missing _
  | operator resolved kind run =>
    refine agrees_inferOperatorRef plain holds missing (fun definition site same => ?_) run
    subst same
    exact outward definition site resolved (by
      rw [kind definition rfl]
      exact DefinitionKind.noConfusion)

include fitting

theorem agrees_inferApplication {operator : String} {args : List Expr}
    (outward : Outward frame context (.app id operator args))
    (run : state.inferApplication context id operator args = .ok after) :
    StillAgrees frame state after := by
  cases inferApplication_step run with
  | skipped => exact .of_same rfl rfl
  | unresolved => exact agrees_recordError _ _ _
  | applied known resolved looked =>
    have avoids := avoids_of_signature plain holds
      (fun definition site same => outward definition site (same ▸ resolved)) looked
    obtain ⟨canonical, named⟩ := signature?_known holds fitting.signatures looked
    refine agrees_applySignature holds missing avoids canonical named fun input member => ?_
    obtain ⟨arg, _, recorded⟩ := forall₂_mem_right known member
    exact holds.canonical recorded

end Nodes

/-- What the effect of a lambda takes for its parameters is what is recorded at their sites. -/
def ParamsAgree (effects : SortedMap NodeId Effect) : Expr → Prop
  | .lambda id params _ => ∀ effect, effects.get? id = some effect →
    ∃ inputs output, effect = .arrow inputs output ∧
      List.Forall₂ (fun param input => effects.get? param.id = some input) params inputs
  | _ => True

theorem ParamsAgree.evolves {effects later : SortedMap NodeId Effect} {node : Expr}
    (agree : ParamsAgree effects node) {touched : NodeId → Prop}
    (evolves : Evolves stable effects touched later) (untouched : ¬ touched node.id) :
    ParamsAgree later node := by
  obtain ⟨σ, evolves⟩ := evolves
  cases node with
  | lambda id params body =>
    intro result recorded
    obtain ⟨effect, before, applied⟩ := evolves.origin untouched recorded
    obtain ⟨inputs, output, rfl, each⟩ := agree effect before
    obtain ⟨inputs', output', changed, _, rfl⟩ := apply_arrow.mp applied
    refine ⟨inputs', output', rfl, ?_⟩
    refine (forall₂_exists_middle.mpr ⟨inputs, each, changed⟩).imp fun param input' both => ?_
    obtain ⟨input, recorded, run⟩ := both
    obtain ⟨result, run', found, _⟩ := evolves.kept recorded
    cases run.symm.trans run'
    exact found
  | _ => trivial

section Lambda

variable {params : List Param}

theorem agrees_openLambda (missing : ∀ param ∈ params, state.effects.get? param.id = none) :
    StillAgrees frame state (state.openLambda id params) := by
  rintro site name _ ⟨effect, recorded, learned⟩
  refine ⟨effect, (get?_openLambda_of_not_mem fun inside => ?_).trans recorded, ?_⟩
  · obtain ⟨param, member, rfl⟩ := List.mem_map.mp inside
    cases (missing param member).symm.trans recorded
  · rw [running_openLambda]
    exact learned

theorem closeLambda_agrees (missing : state.effects.get? id = none)
    (agree : ∀ param ∈ params, Agrees state param.id (placeholder param.name id)) (body : Expr) :
    StillAgrees frame state (state.closeLambda id params body) ∧
      ParamsAgree (state.closeLambda id params body).effects (.lambda id params body) := by
  obtain ⟨inputs, each⟩ := exists_forall₂ agree
  have learned := learnedParams_eq (each.imp fun _ _ both => both.2)
  have step := closeLambda_step state id params body
  generalize state.closeLambda id params body = after at step ⊢
  cases step with
  | skipped =>
    refine ⟨.of_same rfl rfl, fun effect recorded => ?_⟩
    cases missing.symm.trans recorded
  | @closed _ output found learned' =>
    cases learned.symm.trans learned'
    refine ⟨agrees_record missing _, fun effect recorded => ?_⟩
    rw [get?_record_self] at recorded
    cases recorded
    exact ⟨inputs, output, rfl,
      each.imp fun _ _ both => get?_record_of_missing missing both.1⟩
  | clashed _ unlearned => cases learned.symm.trans unlearned

end Lambda

def KeepsRecords (frame : Frame) (foreign : String → Prop) (context : Context) (expr : Expr) : Prop :=
  ∀ {state after}, inferExpr context state expr = .ok after → frame.Holds foreign state →
    Ready frame state expr.ids expr.placeholders → Unseen expr.ids state →
    StillAgrees frame state after ∧ ∀ node ∈ expr.nodes, ParamsAgree after.effects node

section Expressions

variable (fitting : Fitting frame foreign stable context) (plain : Plain context.signatures)

include fitting plain

theorem inferExprs_keepsRecords {args : List Expr}
    (each : ∀ arg ∈ args, KeepsRecords frame foreign context arg)
    (run : inferExprs context state args = .ok after) (holds : frame.Holds foreign state)
    (ready : Ready frame state (args.flatMap Expr.ids) (args.flatMap Expr.placeholders))
    (unseen : Unseen (args.flatMap Expr.ids) state) :
    StillAgrees frame state after ∧
      ∀ node ∈ args.flatMap Expr.nodes, ParamsAgree after.effects node := by
  induction args generalizing state with
  | nil =>
    cases run
    exact ⟨.of_same rfl rfl, List.forall_mem_nil _⟩
  | cons arg rest ih =>
    simp only [inferExprs, bind_eq_ok] at run
    obtain ⟨between, first, later⟩ := run
    simp only [List.flatMap_cons] at ready unseen ⊢
    have disjoint := (List.nodup_append'.mp ready.nodup).2.2
    have arg_ready := ready.part (List.sublist_append_left _ _) (List.subset_append_left _ _)
    obtain ⟨agrees, early⟩ := each arg List.mem_cons_self first holds arg_ready
      (unseen.mono (List.subset_append_left _ _))
    have head := inferExpr_extends fitting arg first holds arg_ready
    have rest_ready := (ready.part (List.sublist_append_right _ _)
      (List.subset_append_right _ _)).advance head.toAdvances fun _ late now => disjoint now late
    have unseen_rest := (inferExpr_leaves plain (unseen.mono (List.subset_append_right _ _))
      (fun _ inside => disjoint inside) first).unseen
    obtain ⟨agrees', late⟩ := ih (fun other member => each other (List.mem_cons_of_mem _ member))
      later head.holds rest_ready unseen_rest
    have tail := inferExprs_extends (fun other _ => inferExpr_extends fitting other) later head.holds
      rest_ready
    refine ⟨agrees.trans agrees', fun node member => ?_⟩
    rcases List.mem_append.mp member with inside | inside
    · exact (early node inside).evolves tail.evolves
        (disjoint (Expr.ownIds_subset inside node.id_mem_ownIds))
    · exact late node inside

theorem app_keepsRecords {operator : String} {args : List Expr}
    (each : ∀ arg ∈ args, KeepsRecords frame foreign context arg)
    (outward : Outward frame context (.app id operator args)) :
    KeepsRecords frame foreign context (.app id operator args) := by
  intro state after run holds ready unseen
  simp only [inferExpr, bind_eq_ok] at run
  obtain ⟨between, parts, whole⟩ := run
  rw [Expr.ids_app, Expr.placeholders_app] at ready
  rw [Expr.ids_app] at unseen
  obtain ⟨different, _⟩ := List.nodup_cons.mp ready.nodup
  have args_ready := ready.part (List.sublist_cons_self _ _) (List.Subset.refl _)
  have first := inferExprs_extends (fun arg _ => inferExpr_extends fitting arg) parts holds args_ready
  obtain ⟨agrees, early⟩ := inferExprs_keepsRecords fitting plain each parts holds args_ready
    (unseen.mono (List.subset_cons_self _ _))
  have missing := first.missing (ready.missing id List.mem_cons_self) different
  have insides : ∀ arg ∈ args, frame.ids arg.id := fun arg member =>
    args_ready.insides arg.id (List.mem_flatMap.mpr ⟨arg, member, arg.id_mem_ids⟩)
  have second := inferApplication_extends first.holds fitting.outside fitting.signatures
    (ready.insides id List.mem_cons_self) missing insides whole
  refine ⟨agrees.trans (agrees_inferApplication fitting plain first.holds missing outward whole),
    fun node member => ?_⟩
  rw [Expr.nodes, Expr.nodesOf_eq] at member
  rcases List.mem_cons.mp member with rfl | inside
  · trivial
  · refine (early node inside).evolves second.evolves fun same => ?_
    obtain ⟨arg, present, inside⟩ := List.mem_flatMap.mp inside
    refine different (List.mem_flatMap.mpr ⟨arg, present, ?_⟩)
    exact List.mem_singleton.mp same ▸ Expr.ownIds_subset inside node.id_mem_ownIds

omit plain in
theorem lambda_keepsRecords {params : List Param} {body : Expr}
    (inner : KeepsRecords frame foreign context body) :
    KeepsRecords frame foreign context (.lambda id params body) := by
  intro state after run holds ready unseen
  simp only [inferExpr, bind_eq_ok, pure_eq_ok] at run
  obtain ⟨between, inside_run, rfl⟩ := run
  obtain ⟨entered, missing⟩ := enter_lambda unseen ready.nodup inside_run
  have different : id ∉ body.ids := fun inside => by
    have nodup := ready.nodup
    rw [Expr.ids_lambda] at nodup
    exact (List.nodup_cons.mp nodup).1 (List.mem_append_right _ inside)
  rw [Expr.ids_lambda, Expr.placeholders_lambda] at ready
  obtain ⟨nodup, _, disjoint⟩ := List.nodup_append'.mp (List.nodup_cons.mp ready.nodup).2
  have here : ∀ param ∈ params, frame.here (placeholder param.name id) :=
    fun param member => ready.here _ (List.mem_append_left _ (List.mem_map_of_mem member))
  have params_ready := ready.part (((List.sublist_append_left _ _).cons _) :
    (params.map Param.id).Sublist (id :: (params.map Param.id ++ body.ids)))
    (List.nil_subset _)
  have insides : ∀ param ∈ params, frame.ids param.id :=
    fun param member => params_ready.insides _ (List.mem_map_of_mem member)
  have unrecorded : ∀ param ∈ params, state.effects.get? param.id = none :=
    fun param member => params_ready.missing _ (List.mem_map_of_mem member)
  have opened : Advances frame foreign stable _ state (state.openLambda id params) :=
    openLambda_advances holds nodup insides unrecorded here
  have body_ready := (ready.part (((List.sublist_append_right _ _).cons _) :
    body.ids.Sublist (id :: (params.map Param.id ++ body.ids))) (List.subset_append_right _ _)).advance
      opened fun _ late early => disjoint early late
  have middle := inferExpr_extends fitting body inside_run opened.holds body_ready
  obtain ⟨agrees, early⟩ := inner inside_run opened.holds body_ready entered
  -- The parameters have agreed since the lambda was opened, and so they do when it is closed.
  obtain ⟨closes, own⟩ := closeLambda_agrees missing (fun param member =>
    agrees (insides param member)
      ⟨_, get?_openLambda_of_mem nodup member, apply_openLambda unseen param.name⟩) body
  have closed : Extends frame foreign stable context [id] [.lambda id params body] between
      (between.closeLambda id params body) :=
    closeLambda_extends middle.holds (ready.insides id List.mem_cons_self) missing
      (body_ready.insides _ body.id_mem_ids) here
  refine ⟨((agrees_openLambda unrecorded).trans agrees).trans closes, fun node member => ?_⟩
  rw [Expr.nodes] at member
  rcases List.mem_cons.mp member with rfl | inside
  · exact own
  · refine (early node inside).evolves closed.evolves fun same => different ?_
    exact List.mem_singleton.mp same ▸ Expr.ownIds_subset inside node.id_mem_ownIds

theorem inferExpr_keepsRecords (expr : Expr)
    (outward : ∀ node ∈ expr.nodes, Outward frame context node) :
    KeepsRecords frame foreign context expr := by
  induction expr with
  | literal id value =>
    intro state after run holds ready _
    cases run
    refine ⟨agrees_record (ready.missing id List.mem_cons_self) _, fun node member => ?_⟩
    cases List.mem_singleton.mp member
    trivial
  | ref id name =>
    intro state after run holds ready _
    refine ⟨agrees_inferRef plain holds (ready.missing id List.mem_cons_self)
      (outward _ List.mem_cons_self) run, fun node member => ?_⟩
    cases List.mem_singleton.mp member
    trivial
  | app id operator args ih =>
    rw [Expr.nodes, Expr.nodesOf_eq] at outward
    refine app_keepsRecords fitting plain (fun arg member => ih arg member fun node inside => ?_)
      (outward _ List.mem_cons_self)
    exact outward node (List.mem_cons_of_mem _ (List.mem_flatMap.mpr ⟨arg, member, inside⟩))
  | lambda id params body ih =>
    exact lambda_keepsRecords fitting
      (ih fun node inside => outward node (List.mem_cons_of_mem _ inside))
  | letIn id defId name bound body => exact (outward _ List.mem_cons_self).elim

end Expressions

def appliesParameter (table : NameTable) (scopes : ScopeTree) : Expr → Bool
  | .app id operator _ => match table.resolve scopes operator id with
    | .ok (some definition) => definition.kind == .parameter
    | _ => false
  | _ => false

/-- A module with distinct ids and without lets, in which no parameter is applied. -/
structure FirstOrderModule (m : Module) (names : List String) : Prop where
  distinct : m.ids.Nodup
  lets : ∀ declaration ∈ m.toDeclaration.all, ∀ node ∈ declaration.nodes, node.isLet = false
  applied : ∀ n ∈ m.modules, ∀ table ∈ (m.nameTables names).get? n.name,
    ∀ declaration ∈ n.declarations, ∀ node ∈ declaration.nodes,
      appliesParameter table n.scopeTree node = false

section Plain

variable {signatures : SignatureTable}
  (fixed : ∀ operator effect, signatures.get? operator = some (.fixed effect) → effect.IsPlain)

include fixed

theorem canonical_of_plain (operator : String) (effect : Effect)
    (listed : signatures.get? operator = some (.fixed effect)) : effect.Canonical :=
  (fixed operator effect listed).1

theorem apart_of_plain (m : Module) : Apart signatures m := by
  rintro name placed ⟨operator, effect, listed, used⟩
  cases (isPlaceholder_of_module placed).symm.trans ((fixed operator effect listed).2 name used)

end Plain

section Modules

variable {signatures : SignatureTable} {m n : Module} {names : List String} {table : NameTable}
  {declaration : Declaration} {done : List NodeId}
  (fixed : ∀ operator effect, signatures.get? operator = some (.fixed effect) → effect.IsPlain)
  (ordered : FirstOrderModule m names) (within : n ∈ m.modules)
  (found : (m.nameTables names).get? n.name = some table) (present : declaration ∈ n.declarations)

include ordered within found present

theorem outward_of_declared {expr : Expr} (holds : declaration.expr? = some expr)
    {now : FreshNames} (disjoint : ∀ id ∈ expr.ids, id ∉ done) {node : Expr}
    (inside : node ∈ expr.nodes) :
    Outward (.ofExpr now done expr disjoint) ⟨signatures, table, n.scopeTree⟩ node := by
  have member := Module.mem_all_of_mem_declarations within present
  have listed : node ∈ declaration.nodes := by
    rw [Declaration.nodes, holds]
    exact inside
  have outside : ∀ {name id definition site}, table.resolve n.scopeTree name id = .ok (some definition) →
      definition.kind ≠ .parameter → definition.reference = some site → site ∉ expr.ids :=
    fun resolved other reference => Module.site_not_mem_ids ordered.distinct ordered.lets found member
      holds (NameTable.resolve_spec resolved).1 other reference
  cases node with
  | literal id value => trivial
  | ref id name =>
    intro definition site resolved other reference
    exact outside (mapError_eq_ok.mp resolved) other reference
  | app id operator args =>
    intro definition site resolved reference
    have resolved := mapError_eq_ok.mp resolved
    refine outside resolved (fun parameter => ?_) reference
    have checked := ordered.applied n within table found declaration present _ listed
    simp [appliesParameter, resolved, parameter] at checked
  | lambda id params body => trivial
  | letIn id defId name bound body => cases ordered.lets declaration member _ listed

include fixed

theorem inferExpr_paramsAgree {expr : Expr} (holds : declaration.expr? = some expr)
    (between : Between signatures m done state) (disjoint : ∀ id ∈ expr.ids, id ∉ done)
    (nodup : expr.ids.Nodup) (unseen : Unseen expr.ids state)
    (run : inferExpr ⟨signatures, table, n.scopeTree⟩ state expr = .ok after) :
    ∀ node ∈ expr.nodes, ParamsAgree after.effects node := by
  have plain : Plain signatures := SignatureTable.plain_of_fixed fixed
  have apart := apart_of_plain fixed m
  have missing : ∀ id ∈ expr.ids, state.effects.get? id = none :=
    fun id member => between.missing (disjoint id member)
  have begun := (between.apart apart).start disjoint missing
    (apart.unmentioned (Module.mem_all_of_mem_declarations within present) holds)
  have fits : Fitting (.ofExpr state.fresh done expr disjoint) (Mentioned signatures)
      (Stable signatures m) ⟨signatures, table, n.scopeTree⟩ :=
    fitting_expr (canonical_of_plain fixed) ordered.distinct within found present holds disjoint
  exact (inferExpr_keepsRecords fits plain expr
    (fun _ inside => outward_of_declared ordered within found present holds disjoint inside) run begun
    ⟨nodup, fun _ member => member, missing, fun _ member => member⟩ unseen).2

theorem inferDeclaration_paramsAgree (between : Between signatures m done state)
    (disjoint : ∀ id ∈ declaration.ids, id ∉ done) (nodup : declaration.ids.Nodup)
    (unseen : Unseen declaration.ids state)
    (run : inferDeclaration ⟨signatures, m.nameTables names⟩ ⟨signatures, table, n.scopeTree⟩ state
      declaration = .ok after) :
    ∀ node ∈ declaration.nodes, ParamsAgree after.effects node := by
  cases declaration with
  | operator definition =>
    simp only [inferDeclaration, bind_eq_ok, pure_eq_ok] at run
    obtain ⟨middle, inner, rfl⟩ := run
    rw [Declaration.ids_operator] at disjoint nodup unseen
    obtain ⟨different, nodup_body⟩ := List.nodup_cons.mp nodup
    have disjoint_body : ∀ id ∈ definition.body.ids, id ∉ done :=
      fun id member => disjoint id (List.mem_cons_of_mem _ member)
    have agree := inferExpr_paramsAgree fixed ordered within found present rfl between disjoint_body
      nodup_body (unseen.mono (List.subset_cons_self _ _)) inner
    have first := (inferExpr_between (canonical_of_plain fixed) ordered.distinct within found present
      rfl between disjoint_body nodup_body inner).1
    have new : definition.id ∉ done ++ definition.body.ids := fun old =>
      (List.mem_append.mp old).elim (disjoint _ List.mem_cons_self) different
    intro node inside
    refine (agree node inside).evolves (copyEffect_between first definition.body.id new).2.1 ?_
    intro same
    exact different (List.mem_singleton.mp same ▸ Expr.ownIds_subset inside node.id_mem_ownIds)
  | assumption id name expr =>
    rw [Declaration.ids_assumption] at disjoint nodup unseen
    exact inferExpr_paramsAgree fixed ordered within found present rfl between
      (fun other member => disjoint other (List.mem_cons_of_mem _ member)) (List.nodup_cons.mp nodup).2
      (unseen.mono (List.subset_cons_self _ _)) run
  | _ => exact List.forall_mem_nil _

omit present in
theorem reached_declaration {before rest : List Declaration} {current : Declaration} {middle : State}
    (parts : n.declarations = before ++ current :: rest)
    (nodup : (n.declarations.flatMap Declaration.ids).Nodup)
    (new : ∀ id ∈ n.declarations.flatMap Declaration.ids, id ∉ done)
    (between : Between signatures m done state)
    (unseen : Unseen (n.declarations.flatMap Declaration.ids) state)
    (early : inferDeclarations ⟨signatures, m.nameTables names⟩ ⟨signatures, table, n.scopeTree⟩ state
      before = .ok middle) :
    Between signatures m (done ++ before.flatMap Declaration.ids) middle ∧
      (∀ id ∈ current.ids, id ∉ done ++ before.flatMap Declaration.ids) ∧ current.ids.Nodup ∧
      Unseen current.ids middle := by
  have member : ∀ {declaration}, declaration ∈ before ++ current :: rest →
      declaration ∈ n.declarations := fun inside => parts ▸ inside
  rw [parts, List.flatMap_append, List.flatMap_cons] at nodup new unseen
  obtain ⟨nodup_before, nodup_rest, disjoint⟩ := List.nodup_append'.mp nodup
  have started := inferDeclarations_completed within found
    (fun declaration _ => inferDeclaration_completes (canonical_of_plain fixed) ordered.distinct
      declaration)
    (fun _ inside => member (List.mem_append_left _ inside)) nodup_before
    (fun id inside => new id (List.mem_append_left _ inside)) between early
  have leaves := leaves_declarations (SignatureTable.plain_of_fixed fixed) rfl
    (unseen.mono (List.subset_append_right _ _)) (fun _ inside => disjoint inside) early
  refine ⟨started.between, fun id inside old => ?_, (List.nodup_append'.mp nodup_rest).1,
    leaves.unseen.mono (List.subset_append_left _ _)⟩
  have inside := List.mem_append_left (rest.flatMap Declaration.ids) inside
  rcases List.mem_append.mp old with earlier | now
  · exact new id (List.mem_append_right _ inside) earlier
  · exact disjoint now inside

omit present in
theorem Finishes.paramsAgree {finished : State}
    (finishes : Finishes ⟨signatures, m.nameTables names⟩ declaration finished
      ⟨signatures, table, n.scopeTree⟩ state n.declarations)
    (nodup : (n.declarations.flatMap Declaration.ids).Nodup)
    (new : ∀ id ∈ n.declarations.flatMap Declaration.ids, id ∉ done)
    (between : Between signatures m done state)
    (unseen : Unseen (n.declarations.flatMap Declaration.ids) state) :
    ∀ node ∈ declaration.nodes, ParamsAgree finished.effects node := by
  -- By induction on how deep in modules the declaration stands.
  generalize own : (⟨signatures, table, n.scopeTree⟩ : Context) = context at finishes
  generalize listed : n.declarations = declarations at finishes
  induction finishes generalizing n table done with
  | @here context state middle _ before rest parts early now =>
    subst own listed
    obtain ⟨started, fresh, nodup_current, unseen'⟩ := reached_declaration fixed ordered within found
      parts nodup new between unseen early
    have present : declaration ∈ n.declarations := by simp [parts]
    exact inferDeclaration_paramsAgree fixed ordered within found present started fresh nodup_current
      unseen' now
  | @inside context inner state middle _ before rest k parts early entered deeper ih =>
    subst own listed
    obtain ⟨started, fresh, nodup_module, unseen'⟩ := reached_declaration fixed ordered within found
      parts nodup new between unseen early
    have present : k.toDeclaration ∈ n.declarations := by simp [parts]
    have among : k ∈ m.modules :=
      Module.mem_modules.mpr (Module.mem_all_of_mem_declarations within present)
    rw [Module.toDeclaration, Declaration.ids_submodule] at nodup_module fresh unseen'
    obtain ⟨table', found', rfl⟩ := context_eq_ok.mp entered
    exact ih among found' (List.nodup_cons.mp nodup_module).2
      (fun id member => fresh id (List.mem_cons_of_mem _ member)) started
      (unseen'.mono (List.subset_cons_self _ _)) rfl rfl

end Modules

/-- The two records of a parameter agree when a module is done. A lambda that has an effect has an
arrow, made from what was learned about its parameters until it was closed, and the effect that each
parameter has in the end is the one that stands in this arrow. -/
theorem parameter_records_agree {signatures : SignatureTable} {m : Module} {names : List String}
    (fixed : ∀ operator effect, signatures.get? operator = some (.fixed effect) → effect.IsPlain)
    (ordered : FirstOrderModule m names) :
    ∃ final, inferModule ⟨signatures, m.nameTables names⟩ .start m = .ok final ∧
      ∀ n ∈ m.modules, ∀ declaration ∈ n.declarations, ∀ id params body,
        .lambda id params body ∈ declaration.nodes →
        ∀ effect, final.effects.get? id = some effect →
          ∃ inputs output, effect = .arrow inputs output ∧
            List.Forall₂ (fun param input => final.effects.get? param.id = some input) params
              inputs := by
  have itself : m ∈ m.modules := Module.mem_modules.mpr m.toDeclaration.mem_all_self
  obtain ⟨table, found⟩ := Module.exists_table names itself
  obtain ⟨final, run⟩ : ∃ final, inferModule ⟨signatures, m.nameTables names⟩ .start m = .ok final :=
    inferModule_total ordered.distinct .start
  have inner : inferDeclarations ⟨signatures, m.nameTables names⟩ ⟨signatures, table, m.scopeTree⟩
      .start m.declarations = .ok final := by
    simpa only [inferModule, Environment.context, found, bind, Except.bind] using run
  have nodup := Module.nodup_declarations ordered.distinct
  refine ⟨final, run, fun n within declaration present id params body inside effect recorded => ?_⟩
  obtain ⟨finished, finishes⟩ := exists_finishes ordered.distinct itself found
    (Module.mem_modules.mp within) present .start
  have unchanged := finishes.unchanged (canonical_of_plain fixed) ordered.distinct
    (apart_of_plain fixed m) itself found nodup (fun _ _ => List.not_mem_nil) (.start signatures m)
    inner
  have agree := finishes.paramsAgree fixed ordered itself found nodup
    (fun _ _ => List.not_mem_nil) (.start signatures m) (unseen_start _) _ inside
  have same : ∀ other ∈ (Expr.lambda id params body).ownIds,
      final.effects.get? other = finished.effects.get? other := by
    intro other own
    obtain ⟨expr, holds, part⟩ := Declaration.expr_of_mem_nodes inside
    exact unchanged other (Declaration.ownIds_subset declaration.mem_all_self
      (Declaration.mem_ownIds_of_expr holds (Expr.ownIds_subset part own)))
  rw [same id (Expr.id_mem_ownIds _)] at recorded
  obtain ⟨inputs, output, rfl, each⟩ := agree effect recorded
  refine ⟨inputs, output, rfl, (forall₂_congr_mem fun param member input => ?_).mpr each⟩
  rw [same param.id (List.mem_cons_of_mem _ (List.mem_map_of_mem member))]

/-- An outer lambda learns about its parameters from a use of `f`, whose own parameter gets a new name
there, and from a lambda inside of it. -/
theorem records_of_nested_lambdas :
    let signatures : SignatureTable := .ofList
      [("b", .fixed (.arrow [.reads "x", .quantified "k"] (.quantified "k")))]
    let inner : Expr := .lambda ⟨13⟩ [⟨⟨14⟩, "s"⟩] (.app ⟨15⟩ "b" [.ref ⟨16⟩ "s", .ref ⟨17⟩ "r"])
    let m : Module := ⟨⟨1⟩, "M",
      [.operator ⟨⟨2⟩, "f", .lambda ⟨3⟩ [⟨⟨4⟩, "p"⟩] (.ref ⟨5⟩ "p")⟩,
        .submodule ⟨18⟩ "N" [.assumption ⟨19⟩ "h" (.lambda ⟨20⟩ [⟨⟨21⟩, "p"⟩] (.ref ⟨22⟩ "p"))],
        .operator ⟨⟨6⟩, "g", .lambda ⟨7⟩ [⟨⟨8⟩, "q"⟩, ⟨⟨9⟩, "r"⟩]
          (.app ⟨10⟩ "b" [.app ⟨11⟩ "f" [.ref ⟨12⟩ "q"], inner])⟩]⟩
    (∀ operator effect, signatures.get? operator = some (.fixed effect) → effect.IsPlain) ∧
      FirstOrderModule m ["b"] ∧
      ∃ final, inferModule ⟨signatures, m.nameTables ["b"]⟩ .start m = .ok final ∧
        [⟨7⟩, ⟨8⟩, ⟨9⟩].map final.effects.get? =
          [some (.arrow [.reads "x", .quantified "_e3"] (.arrow [.reads "x"] (.quantified "_e3"))),
            some (.reads "x"), some (.quantified "_e3")] ∧
        ∀ n ∈ m.modules, ∀ declaration ∈ n.declarations, ∀ id params body,
          .lambda id params body ∈ declaration.nodes →
          ∀ effect, final.effects.get? id = some effect →
            ∃ inputs output, effect = .arrow inputs output ∧
              List.Forall₂ (fun param input => final.effects.get? param.id = some input) params
                inputs := by
  intro signatures inner m
  have fixed : ∀ operator effect, signatures.get? operator = some (.fixed effect) →
      effect.IsPlain := by
    intro operator effect found
    cases List.mem_singleton.mp (SortedMap.mem_of_get?_ofList found)
    decide
  have ordered : FirstOrderModule m ["b"] := ⟨by decide, by decide, by decide⟩
  obtain ⟨final, run, agree⟩ := parameter_records_agree fixed ordered
  obtain ⟨state, run', effects⟩ := exists_ok _ (show
    ((inferModule ⟨signatures, m.nameTables ["b"]⟩ .start m).toOption.map fun state =>
      [⟨7⟩, ⟨8⟩, ⟨9⟩].map state.effects.get?) =
      some [some (.arrow [.reads "x", .quantified "_e3"] (.arrow [.reads "x"] (.quantified "_e3"))),
        some (.reads "x"), some (.quantified "_e3")] by decide)
  cases run.symm.trans run'
  exact ⟨fixed, ordered, final, run, effects, agree⟩

/-- A parameter that is applied gets a new name there, which its own site does not learn about. -/
example :
    let m : Module := ⟨⟨1⟩, "M", [.assumption ⟨2⟩ "a"
      (.lambda ⟨3⟩ [⟨⟨4⟩, "p"⟩] (.app ⟨5⟩ "p" [.literal ⟨6⟩ (.int 1)]))]⟩
    ((inferModule ⟨.ofList [], m.nameTables []⟩ .start m).toOption.map fun state =>
      [⟨3⟩, ⟨4⟩].map state.effects.get?) =
        some [some (.arrow [.arrow [.empty] (.quantified "_e1")] (.quantified "_e1")),
          some (.quantified "e_p_3")] := by decide

end Inference

end SpecEffects
