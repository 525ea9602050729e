import SpecEffects.Proofs.Inference.StateSteps

/-!
Inference of an expression inside of a stretch: all effects in the expression fit together when it
is done, and they do so for any expression that is inferred before or after it.
-/
namespace SpecEffects.Inference

open Substitution

/-- What has to be known about a module and a stretch of inference in it. The placeholders in
`foreign` come from signatures, and nodes that are `stable` are not of the stretch. -/
structure Fitting (frame : Frame) (foreign : String → Prop) (stable : NodeId → Prop)
    (context : Context) : Prop where
  outside : ∀ id, stable id → ¬ frame.ids id
  signatures : ∀ {name arity signature},
    context.signatures.signature? name arity = some signature →
      signature.Canonical ∧ ∀ other, signature.Uses .effect other → foreign other
  sites : ∀ {name id definition site}, frame.ids id →
    context.resolve name id = .ok (some definition) → definition.kind = .parameter →
    definition.reference = some site → frame.ids site

variable {frame : Frame} {foreign : String → Prop} {stable : NodeId → Prop} {context : Context}
  {state after last : State} {id : NodeId}

theorem canonical_empty : Effect.empty.Canonical := by decide

theorem over_empty_effect (V : Vocabulary) : Effect.empty.Over V := by
  intro kind name used
  obtain ⟨component, used⟩ := Effect.uses_concrete.mp used
  cases component <;> exact absurd used VariableSet.uses_concrete

theorem canonical_reads (name : String) : (Effect.reads name).Canonical := by
  refine .concrete fun component => ?_
  cases component <;> trivial

theorem over_reads (V : Vocabulary) (name : String) : (Effect.reads name).Over V := by
  intro kind other used
  obtain ⟨component, used⟩ := Effect.uses_concrete.mp used
  cases component <;> exact absurd used VariableSet.uses_concrete

section Names

variable (fitting : Fitting frame foreign stable context) (holds : frame.Holds foreign state)
  (inside : frame.ids id) (missing : state.effects.get? id = none)

include fitting holds inside missing

theorem inferOperatorRef_advances {name : String} {definition? : Option NameDefinition}
    (run : state.inferOperatorRef context id name definition? = .ok after) :
    Advances frame foreign stable [id] state after := by
  cases inferOperatorRef_step run with
  | unresolved => exact .of_same (holds.recordError _ _) (effects_recordError _ _ _) _
  | @copied general copy opened looked instantiation =>
    obtain ⟨canonical, named⟩ := signature?_known holds fitting.signatures looked
    have inst := instantiated instantiation
    obtain ⟨canonical', own, _⟩ := holds.copy inst canonical
    have missing' : opened.effects.get? id = none := by
      rw [inst.effects]
      exact missing
    have advanced : Advances frame foreign stable [id] opened (opened.record id copy) :=
      .of_record (holds.instantiate inst named) inside missing' canonical' own
    exact ⟨advanced.holds, inst.effects ▸ advanced.evolves⟩
  | clashed looked instantiation =>
    obtain ⟨_, named⟩ := signature?_known holds fitting.signatures looked
    have inst := instantiated instantiation
    exact .of_same ((holds.instantiate inst named).recordError _ _)
      ((effects_recordError _ _ _).trans inst.effects) _

theorem inferRef_extends {name : String} (run : state.inferRef context id name = .ok after) :
    Extends frame foreign stable context [id] [.ref id name] state after := by
  -- Only a parameter has to have the effect of its own site.
  have other : ∀ {definition? : Option NameDefinition},
      context.resolve name id = .ok definition? → Advances frame foreign stable [id] state after →
      (∀ definition, definition? = some definition → definition.kind ≠ .parameter) →
      Extends frame foreign stable context [id] [.ref id name] state after := by
    intro definition? resolved advanced different
    refine ⟨advanced, fun node member => ?_⟩
    cases List.mem_singleton.mp member
    intro definition resolved' parameter
    cases resolved.symm.trans resolved'
    exact absurd parameter (different definition rfl)
  cases inferRef_step run with
  | @parameter definition site effect resolved kind reference recorded =>
    have own := holds.inside recorded (fitting.sites inside resolved kind reference)
    refine ⟨.of_record holds inside missing (holds.canonical recorded) own, fun node member => ?_⟩
    cases List.mem_singleton.mp member
    intro definition' resolved' _
    cases resolved.symm.trans resolved'
    exact ⟨site, effect, reference, get?_record_of_missing missing recorded,
      get?_record_self _ _ _⟩
  | constant resolved kind =>
    exact other resolved (.of_record holds inside missing canonical_empty (over_empty_effect _))
      (by simp [kind])
  | stateVariable resolved kind =>
    exact other resolved (.of_record holds inside missing (canonical_reads _) (over_reads _ _))
      (by simp [kind])
  | operator resolved kind run =>
    exact other resolved (inferOperatorRef_advances fitting holds inside missing run)
      fun definition same => by simp [kind definition same]

end Names

theorem openLambda_advances (holds : frame.Holds foreign state) {params : List Param}
    (nodup : (params.map Param.id).Nodup) (insides : ∀ param ∈ params, frame.ids param.id)
    (missing : ∀ param ∈ params, state.effects.get? param.id = none)
    (here : ∀ param ∈ params, frame.here (placeholder param.name id)) :
    Advances frame foreign stable (params.map Param.id) state (state.openLambda id params) := by
  induction params generalizing state with
  | nil => exact .of_same holds rfl []
  | cons param rest ih =>
    obtain ⟨different, nodup⟩ := List.nodup_cons.mp nodup
    have own : (Effect.quantified (placeholder param.name id)).Over (frame.own state.fresh) := by
      intro kind name used
      obtain ⟨rfl, rfl⟩ := Effect.uses_quantified.mp used
      exact Or.inr ⟨rfl, here param List.mem_cons_self⟩
    have first : Advances frame foreign stable [param.id] state
        (state.record param.id (.quantified (placeholder param.name id))) :=
      .of_record holds (insides param List.mem_cons_self) (missing param List.mem_cons_self)
        (.quantified _) own
    refine first.trans (ih first.holds nodup ?_ ?_ ?_)
    · exact fun other member => insides other (List.mem_cons_of_mem _ member)
    · intro other member
      apply first.missing (missing other (List.mem_cons_of_mem _ member))
      intro same
      rw [List.mem_singleton] at same
      exact different (same ▸ List.mem_map_of_mem member)
    · exact fun other member => here other (List.mem_cons_of_mem _ member)

theorem apply_placeholder (holds : frame.Holds foreign state) {name : String}
    (here : frame.here name) {effect : Effect}
    (run : state.running.apply (.quantified name) = .ok effect) :
    effect.Canonical ∧ effect.Over (frame.own state.fresh) := by
  have value := apply_quantified.mp run
  cases found : state.running.get? name with
  | none =>
    rw [valueAt_of_unbound found] at value
    cases value
    refine ⟨.quantified name, fun kind other used => ?_⟩
    obtain ⟨rfl, rfl⟩ := Effect.uses_quantified.mp used
    exact Or.inr ⟨rfl, here⟩
  | some bound =>
    rw [valueAt_of_get? found] at value
    subst value
    exact ⟨holds.values _ (mem_of_get? found), holds.learned found (Or.inr here)⟩

theorem learnedParams_spec (holds : frame.Holds foreign state) {params : List Param}
    (here : ∀ param ∈ params, frame.here (placeholder param.name id)) {effects : List Effect}
    (run : State.learnedParams state.running id params = .ok effects) :
    effects.length = params.length ∧
      ∀ effect ∈ effects, effect.Canonical ∧ effect.Over (frame.own state.fresh) := by
  induction params generalizing effects with
  | nil =>
    cases run
    exact ⟨rfl, List.forall_mem_nil _⟩
  | cons param rest ih =>
    simp only [State.learnedParams, bind_eq_ok, pure_eq_ok] at run
    obtain ⟨effect, applied, others, later, rfl⟩ := run
    obtain ⟨same, each⟩ := ih (fun other member => here other (List.mem_cons_of_mem _ member)) later
    refine ⟨congrArg Nat.succ same, fun other member => ?_⟩
    rcases List.mem_cons.mp member with rfl | member
    · exact apply_placeholder holds (here param List.mem_cons_self) applied
    · exact each other member

theorem closeLambda_extends (holds : frame.Holds foreign state) {params : List Param} {body : Expr}
    (inside : frame.ids id) (missing : state.effects.get? id = none) (within : frame.ids body.id)
    (here : ∀ param ∈ params, frame.here (placeholder param.name id)) :
    Extends frame foreign stable context [id] [.lambda id params body] state
      (state.closeLambda id params body) := by
  have failed : ∀ after : State, frame.Holds foreign after → after.effects = state.effects →
      Extends frame foreign stable context [id] [.lambda id params body] state after := by
    intro after holds' same
    refine ⟨.of_same holds' same [id], fun node member => ?_⟩
    cases List.mem_singleton.mp member
    intro effect recorded
    rw [same, missing] at recorded
    cases recorded
  have step := closeLambda_step state id params body
  generalize state.closeLambda id params body = after at step ⊢
  cases step with
  | skipped => exact failed state holds rfl
  | @closed inputs output recorded learned =>
    obtain ⟨arity, each⟩ := learnedParams_spec holds here learned
    refine ⟨.of_record holds inside missing ?_ ?_, fun node member => ?_⟩
    · exact .arrow (fun input member => (each input member).1) (holds.canonical recorded)
    · intro kind name used
      rcases Effect.uses_arrow.mp used with ⟨input, member, used⟩ | used
      · exact (each input member).2 kind name used
      · exact holds.inside recorded within kind name used
    · cases List.mem_singleton.mp member
      intro effect found
      rw [get?_record_self] at found
      cases found
      exact ⟨inputs, output, rfl, arity, get?_record_of_missing missing recorded⟩
  | clashed => exact failed _ (holds.recordError _ _) (effects_recordError _ _ _)

theorem get?_of_copy {source : NodeId} {effect other : Effect}
    (missing : state.effects.get? id = none) (recorded : state.effects.get? source = some effect)
    (found : (state.record id effect).effects.get? id = some other) :
    (state.record id effect).effects.get? source = some other := by
  rw [get?_record_self] at found
  cases found
  exact get?_record_of_missing missing recorded

theorem copy_advances (holds : frame.Holds foreign state) {source : NodeId} {effect : Effect}
    (inside : frame.ids id) (missing : state.effects.get? id = none) (within : frame.ids source)
    (recorded : state.effects.get? source = some effect) :
    Advances frame foreign stable [id] state (state.record id effect) :=
  .of_record holds inside missing (holds.canonical recorded) (holds.inside recorded within)

theorem copyEffect_advances (holds : frame.Holds foreign state) {source : NodeId}
    (inside : frame.ids id) (missing : state.effects.get? id = none) (within : frame.ids source) :
    Advances frame foreign stable [id] state (state.copyEffect id source) ∧
      ∀ effect, (state.copyEffect id source).effects.get? id = some effect →
        (state.copyEffect id source).effects.get? source = some effect := by
  have step := copyEffect_step state id source
  generalize state.copyEffect id source = after at step ⊢
  cases step with
  | copied recorded =>
    exact ⟨copy_advances holds inside missing within recorded,
      fun _ => get?_of_copy missing recorded⟩
  | skipped =>
    refine ⟨.of_same holds rfl _, fun effect found => ?_⟩
    cases missing.symm.trans found

theorem closeLet_advances (holds : frame.Holds foreign state) {body : NodeId}
    (inside : frame.ids id) (missing : state.effects.get? id = none) (within : frame.ids body)
    (run : state.closeLet id body = .ok after) :
    Advances frame foreign stable [id] state after ∧
      ∀ effect, after.effects.get? id = some effect → after.effects.get? body = some effect := by
  cases closeLet_step run with
  | closed _ recorded =>
    exact ⟨copy_advances holds inside missing within recorded,
      fun _ => get?_of_copy missing recorded⟩
  | skipped =>
    refine ⟨.of_same holds rfl _, fun effect found => ?_⟩
    cases missing.symm.trans found

structure Ready (frame : Frame) (state : State) (ids : List NodeId) (placeholders : List String) :
    Prop where
  nodup : ids.Nodup
  insides : ∀ id ∈ ids, frame.ids id
  missing : ∀ id ∈ ids, state.effects.get? id = none
  here : ∀ name ∈ placeholders, frame.here name

namespace Ready

variable {ids ids' : List NodeId} {placeholders placeholders' : List String}

theorem part (ready : Ready frame state ids placeholders) (fewer : ids'.Sublist ids)
    (fewer' : placeholders' ⊆ placeholders) : Ready frame state ids' placeholders' :=
  ⟨ready.nodup.sublist fewer, fun id member => ready.insides id (fewer.subset member),
    fun id member => ready.missing id (fewer.subset member),
    fun name member => ready.here name (fewer' member)⟩

theorem advance {touched : List NodeId} (ready : Ready frame state ids placeholders)
    (advanced : Advances frame foreign stable touched state after)
    (apart : ∀ id ∈ ids, id ∉ touched) : Ready frame after ids placeholders :=
  ⟨ready.nodup, ready.insides,
    fun id member => advanced.missing (ready.missing id member) (apart id member), ready.here⟩

end Ready

def Infers (frame : Frame) (foreign : String → Prop) (stable : NodeId → Prop) (context : Context)
    (expr : Expr) : Prop :=
  ∀ {state after}, inferExpr context state expr = .ok after → frame.Holds foreign state →
    Ready frame state expr.ids expr.placeholders →
    Extends frame foreign stable context expr.ids expr.nodes state after

theorem inferExprs_extends {args : List Expr}
    (each : ∀ arg ∈ args, Infers frame foreign stable context arg)
    (run : inferExprs context state args = .ok after) (holds : frame.Holds foreign state)
    (ready : Ready frame state (args.flatMap Expr.ids) (args.flatMap Expr.placeholders)) :
    Extends frame foreign stable context (args.flatMap Expr.ids) (args.flatMap Expr.nodes)
      state after := by
  induction args generalizing state with
  | nil =>
    cases run
    exact ⟨.of_same holds rfl _, List.forall_mem_nil _⟩
  | cons arg rest ih =>
    simp only [inferExprs, bind_eq_ok] at run
    obtain ⟨between, first, later⟩ := run
    simp only [List.flatMap_cons] at ready ⊢
    have disjoint := (List.nodup_append'.mp ready.nodup).2.2
    have head := each arg List.mem_cons_self first holds
      (ready.part (List.sublist_append_left _ _) (List.subset_append_left _ _))
    have rest_ready := (ready.part (List.sublist_append_right _ _)
      (List.subset_append_right _ _)).advance head.toAdvances
        fun id late early => disjoint early late
    refine head.trans (ih (fun other member => each other (List.mem_cons_of_mem _ member)) later
      head.holds rest_ready) ?_
    intro node member id own
    exact disjoint (Expr.ownIds_subset member own)

theorem infers_app (fitting : Fitting frame foreign stable context) {operator : String}
    {args : List Expr} (each : ∀ arg ∈ args, Infers frame foreign stable context arg) :
    Infers frame foreign stable context (.app id operator args) := by
  intro state after run holds ready
  simp only [inferExpr, bind_eq_ok] at run
  obtain ⟨between, parts, whole⟩ := run
  rw [Expr.ids_app, Expr.placeholders_app] at ready
  obtain ⟨different, _⟩ := List.nodup_cons.mp ready.nodup
  have inside := ready.insides id List.mem_cons_self
  have insides : ∀ arg ∈ args, frame.ids arg.id := by
    intro arg member
    apply ready.insides arg.id (List.mem_cons_of_mem _ _)
    exact List.mem_flatMap.mpr ⟨arg, member, arg.id_mem_ids⟩
  have first := inferExprs_extends each parts holds
    (ready.part (List.sublist_cons_self _ _) (List.Subset.refl _))
  have missing := first.missing (ready.missing id List.mem_cons_self) different
  have second := inferApplication_extends first.holds fitting.outside fitting.signatures inside
    missing insides whole
  have apart : ∀ node ∈ args.flatMap Expr.nodes, ∀ other ∈ node.ownIds, other ∉ [id] := by
    intro node member other own same
    obtain ⟨arg, present, member⟩ := List.mem_flatMap.mp member
    rw [List.mem_singleton.mp same] at own
    exact different (List.mem_flatMap.mpr ⟨arg, present, Expr.ownIds_subset member own⟩)
  rw [Expr.ids_app, Expr.nodes, Expr.nodesOf_eq]
  exact (first.trans second apart).mono (by simp) (by simp)

theorem infers_lambda {params : List Param} {body : Expr}
    (inner : Infers frame foreign stable context body) :
    Infers frame foreign stable context (.lambda id params body) := by
  intro state after run holds ready
  simp only [inferExpr, bind_eq_ok, pure_eq_ok] at run
  obtain ⟨between, inside_run, rfl⟩ := run
  rw [Expr.ids_lambda, Expr.placeholders_lambda] at ready
  obtain ⟨different, nodup⟩ := List.nodup_cons.mp ready.nodup
  obtain ⟨nodup_params, _, disjoint⟩ := List.nodup_append'.mp nodup
  have param_ids : ∀ param ∈ params, param.id ∈ id :: (params.map Param.id ++ body.ids) :=
    fun param member => List.mem_cons_of_mem _ (List.mem_append_left _ (List.mem_map_of_mem member))
  have here : ∀ param ∈ params, frame.here (placeholder param.name id) :=
    fun param member => ready.here _ (List.mem_append_left _ (List.mem_map_of_mem member))
  have opened : Advances frame foreign stable (params.map Param.id) state
      (state.openLambda id params) :=
    openLambda_advances holds nodup_params
      (fun param member => ready.insides _ (param_ids param member))
      (fun param member => ready.missing _ (param_ids param member)) here
  have body_ready := ready.part (((List.sublist_append_right _ _).cons _) :
    body.ids.Sublist (id :: (params.map Param.id ++ body.ids))) (List.subset_append_right _ _)
  have middle := inner inside_run opened.holds
    (body_ready.advance opened fun other late early => disjoint early late)
  have missing := middle.missing (opened.missing (ready.missing id List.mem_cons_self)
    fun early => different (List.mem_append_left _ early))
    fun late => different (List.mem_append_right _ late)
  have closed : Extends frame foreign stable context [id] [.lambda id params body] between
      (between.closeLambda id params body) :=
    closeLambda_extends middle.holds (ready.insides id List.mem_cons_self) missing
      (body_ready.insides _ body.id_mem_ids) here
  have apart : ∀ node ∈ body.nodes, ∀ other ∈ node.ownIds, other ∉ [id] := by
    intro node member other own same
    rw [List.mem_singleton.mp same] at own
    exact different (List.mem_append_right _ (Expr.ownIds_subset member own))
  rw [Expr.ids_lambda, Expr.nodes]
  exact (Extends.preceded opened (middle.trans closed apart)).mono (by simp) (by simp)

theorem infers_letIn {defId : NodeId} {name : String} {bound body : Expr}
    (first : Infers frame foreign stable context bound)
    (second : Infers frame foreign stable context body) :
    Infers frame foreign stable context (.letIn id defId name bound body) := by
  intro state after run holds ready
  simp only [inferExpr, bind_eq_ok] at run
  obtain ⟨defined, bound_run, between, body_run, close⟩ := run
  rw [Expr.ids_letIn, Expr.placeholders_letIn] at ready
  obtain ⟨different, nodup⟩ := List.nodup_cons.mp ready.nodup
  obtain ⟨different', nodup⟩ := List.nodup_cons.mp nodup
  obtain ⟨_, _, disjoint⟩ := List.nodup_append'.mp nodup
  simp only [List.mem_cons, List.mem_append, not_or] at different different'
  obtain ⟨id_def, id_bound, id_body⟩ := different
  obtain ⟨def_bound, def_body⟩ := different'
  have self : id ∈ id :: defId :: (bound.ids ++ body.ids) := List.mem_cons_self
  have own : defId ∈ id :: defId :: (bound.ids ++ body.ids) :=
    List.mem_cons_of_mem _ List.mem_cons_self
  have bound_ready := ready.part ((((List.sublist_append_left _ _).cons _).cons _) :
    bound.ids.Sublist (id :: defId :: (bound.ids ++ body.ids))) (List.subset_append_left _ _)
  have body_ready := ready.part ((((List.sublist_append_right _ _).cons _).cons _) :
    body.ids.Sublist (id :: defId :: (bound.ids ++ body.ids))) (List.subset_append_right _ _)
  have bound_done := first bound_run holds bound_ready
  have def_missing := bound_done.missing (ready.missing defId own) def_bound
  obtain ⟨copied, same⟩ : Advances frame foreign stable [defId] defined
      (defined.copyEffect defId bound.id) ∧ _ :=
    copyEffect_advances bound_done.holds (ready.insides defId own) def_missing
      (bound_ready.insides _ bound.id_mem_ids)
  have still_ready := body_ready.advance bound_done.toAdvances
    fun _ late early => disjoint early late
  have body_done := second body_run copied.holds <| still_ready.advance copied
    fun other late at_def => def_body (List.mem_singleton.mp at_def ▸ late)
  have missing : between.effects.get? id = none := by
    have early := bound_done.missing (ready.missing id self) id_bound
    exact body_done.missing (copied.missing early (List.mem_singleton.not.mpr id_def)) id_body
  obtain ⟨closed, same'⟩ : Advances frame foreign stable [id] between after ∧ _ :=
    closeLet_advances body_done.holds (ready.insides id self) missing
      (body_ready.insides _ body.id_mem_ids) close
  -- The definition is recorded after the first part, the let itself after the second.
  have early := bound_done.followed copied fun node member other own at_def =>
    def_bound (List.mem_singleton.mp at_def ▸ Expr.ownIds_subset member own)
  have late := body_done.followed closed fun node member other own at_id =>
    id_body (List.mem_singleton.mp at_id ▸ Expr.ownIds_subset member own)
  have parts := early.trans late fun node member other own => by
    have inside := Expr.ownIds_subset member own
    simp only [List.mem_append, List.mem_singleton, not_or]
    exact ⟨disjoint inside, fun at_id => id_bound (at_id ▸ inside)⟩
  rw [Expr.ids_letIn, Expr.nodes]
  refine ⟨parts.toAdvances.mono ?_, fun node member => ?_⟩
  · intro other member
    simp only [List.mem_append, List.mem_cons, List.not_mem_nil, or_false] at member ⊢
    tauto
  · rcases List.mem_cons.mp member with rfl | member
    · obtain ⟨σ, evolves⟩ := late.evolves
      refine ⟨same', evolves.copied ?_ same⟩
      simp only [List.mem_append, List.mem_singleton, not_or]
      exact ⟨def_body, Ne.symm id_def⟩
    · exact parts.consistent node member

theorem inferExpr_extends (fitting : Fitting frame foreign stable context) (expr : Expr) :
    Infers frame foreign stable context expr := by
  induction expr with
  | literal id value =>
    intro state after run holds ready
    cases run
    refine ⟨.of_record holds (ready.insides id List.mem_cons_self)
      (ready.missing id List.mem_cons_self) canonical_empty (over_empty_effect _), ?_⟩
    intro node member
    cases List.mem_singleton.mp member
    trivial
  | ref id name =>
    intro state after run holds ready
    exact inferRef_extends fitting holds (ready.insides id List.mem_cons_self)
      (ready.missing id List.mem_cons_self) run
  | app id operator args ih => exact infers_app fitting ih
  | lambda id params body ih => exact infers_lambda ih
  | letIn id defId name bound body ih ih' => exact infers_letIn ih ih'

end SpecEffects.Inference
