import SpecEffects.Proofs.Inference.Stretches
import SpecEffects.Proofs.Inference.Tidy
import SpecEffects.Proofs.Inference.Totality

/-!
Nodes that inference has not come to. Nothing is recorded for them and no name belongs to them, and
inferring an expression elsewhere leaves it so.
-/
namespace SpecEffects.Inference

open Substitution

/-- Signatures are canonical and use no placeholders. -/
def Plain (signatures : SignatureTable) : Prop :=
  ∀ {name arity effect}, signatures.signature? name arity = some effect →
    effect.Canonical ∧ ∀ other, effect.Uses .effect other → isPlaceholder other = false

def Elsewhere (ids : List NodeId) (name : String) : Prop :=
  isPlaceholder name = true ∧ ¬ PlaceholderOf ids name

theorem marked_of_elsewhere (ids : List NodeId) (name : String) (elsewhere : Elsewhere ids name) :
    isPlaceholder name = true := elsewhere.1

theorem elsewhere_placeholder {ids : List NodeId} {id : NodeId} (outside : id ∉ ids)
    (param : String) : Elsewhere ids (placeholder param id) := by
  refine ⟨isPlaceholder_placeholder param id, ?_⟩
  rintro ⟨param', other, member, same⟩
  exact outside (placeholder_injective same ▸ member)

structure Unseen (ids : List NodeId) (state : State) : Prop where
  tidy : Tidy (Elsewhere ids) state
  effects : ∀ id ∈ ids, state.effects.get? id = none
  errors : ∀ id ∈ ids, state.errors.get? id = none

structure Leaves (ids : List NodeId) (state after : State) : Prop where
  unseen : Unseen ids after
  order : state.fresh ≤ after.fresh
  clean : after.errors.isEmpty = true → state.errors.isEmpty = true

variable {ids : List NodeId} {context : Context} {state after last : State} {id : NodeId}

theorem Unseen.mono (unseen : Unseen ids state) {fewer : List NodeId} (part : fewer ⊆ ids) :
    Unseen fewer state :=
  ⟨unseen.tidy.mono fun name elsewhere => ⟨elsewhere.1, fun placed =>
      elsewhere.2 (PlaceholderOf.mono part name placed)⟩,
    fun id member => unseen.effects id (part member), fun id member => unseen.errors id (part member)⟩

theorem unseen_start (ids : List NodeId) : Unseen ids .start := ⟨.start _, fun _ _ => rfl, fun _ _ => rfl⟩

namespace Leaves

theorem refl (unseen : Unseen ids state) : Leaves ids state state :=
  ⟨unseen, FreshNames.le_refl _, fun clean => clean⟩

theorem trans (first : Leaves ids state after) (second : Leaves ids after last) :
    Leaves ids state last :=
  ⟨second.unseen, FreshNames.le_trans first.order second.order,
    fun clean => first.clean (second.clean clean)⟩

end Leaves

section Steps

variable (unseen : Unseen ids state)

include unseen

theorem leaves_fresh {fresh : FreshNames} (order : state.fresh ≤ fresh) :
    Leaves ids state { state with fresh } :=
  ⟨⟨unseen.tidy.later order, unseen.effects, unseen.errors⟩, order, fun clean => clean⟩

theorem leaves_spent (effect : Effect) : Leaves ids state (spent state effect) :=
  leaves_fresh unseen (le_variableBindings effect state.fresh)

theorem leaves_record (outside : id ∉ ids) {effect : Effect} (canonical : effect.Canonical)
    (spelled : effect.Over (made .empty state.fresh (Elsewhere ids))) :
    Leaves ids state (state.record id effect) := by
  refine ⟨⟨unseen.tidy.record id canonical spelled, fun other member => ?_, unseen.errors⟩,
    FreshNames.le_refl _, fun clean => clean⟩
  have different : id ≠ other := fun same => outside (same ▸ member)
  rw [get?_record, if_neg different]
  exact unseen.effects other member

theorem leaves_recordError (outside : id ∉ ids) (error : InferenceError) :
    Leaves ids state (state.recordError id error) := by
  unfold State.recordError
  split
  · exact .refl unseen
  · refine ⟨⟨unseen.tidy.congr rfl rfl rfl, unseen.effects, fun other member => ?_⟩,
      FreshNames.le_refl _, fun clean => ?_⟩
    · have different : id ≠ other := fun same => outside (same ▸ member)
      rw [SortedMap.get?_insert, if_neg different]
      exact unseen.errors other member
    · cases clean.symm.trans (SortedMap.isEmpty_insert _ _ _)

theorem leaves_copyEffect (outside : id ∉ ids) (source : NodeId) :
    Leaves ids state (state.copyEffect id source) := by
  have step := copyEffect_step state id source
  generalize state.copyEffect id source = after at step ⊢
  cases step with
  | copied recorded =>
    exact leaves_record unseen outside (unseen.tidy.canonical recorded) (unseen.tidy.spelled recorded)
  | skipped => exact .refl unseen

theorem leaves_closeLet (outside : id ∉ ids) {body : NodeId}
    (run : state.closeLet id body = .ok after) : Leaves ids state after := by
  cases closeLet_step run with
  | closed _ recorded =>
    exact leaves_record unseen outside (unseen.tidy.canonical recorded) (unseen.tidy.spelled recorded)
  | skipped => exact .refl unseen

theorem leaves_openLambda (outside : id ∉ ids) {params : List Param}
    (outsides : ∀ param ∈ params, param.id ∉ ids) :
    Leaves ids state (state.openLambda id params) := by
  unfold State.openLambda
  induction params generalizing state with
  | nil => exact .refl unseen
  | cons param rest ih =>
    have first := leaves_record unseen (outsides param List.mem_cons_self)
      (.quantified (placeholder param.name id)) (by
        intro kind name used
        obtain ⟨rfl, rfl⟩ := Effect.uses_quantified.mp used
        exact Or.inr ⟨rfl, elsewhere_placeholder outside param.name⟩)
    exact first.trans (ih first.unseen fun other member => outsides other (List.mem_cons_of_mem _ member))

theorem learnedParams_tidy (outside : id ∉ ids) {params : List Param} {effects : List Effect}
    (run : State.learnedParams state.running id params = .ok effects) :
    ∀ effect ∈ effects, effect.Canonical ∧ effect.Over (made .empty state.fresh (Elsewhere ids)) := by
  induction params generalizing effects with
  | nil =>
    cases run
    exact List.forall_mem_nil _
  | cons param rest ih =>
    simp only [State.learnedParams, bind_eq_ok, pure_eq_ok] at run
    obtain ⟨effect, applied, others, later, rfl⟩ := run
    intro other member
    rcases List.mem_cons.mp member with rfl | member
    · refine ⟨everySet_apply unseen.tidy.values
        (fun _ => canonical_applyToVariables unseen.tidy.values) (.quantified _) applied, ?_⟩
      refine over_apply unseen.tidy.running.values ?_ applied
      intro kind name used
      obtain ⟨rfl, rfl⟩ := Effect.uses_quantified.mp used
      exact Or.inr ⟨rfl, elsewhere_placeholder outside param.name⟩
    · exact ih later other member

theorem leaves_closeLambda (outside : id ∉ ids) (params : List Param) (body : Expr) :
    Leaves ids state (state.closeLambda id params body) := by
  have step := closeLambda_step state id params body
  generalize state.closeLambda id params body = after at step ⊢
  cases step with
  | skipped => exact .refl unseen
  | closed recorded learned =>
    have each := learnedParams_tidy unseen outside learned
    refine leaves_record unseen outside
      (.arrow (fun input member => (each input member).1) (unseen.tidy.canonical recorded)) ?_
    intro kind name used
    rcases Effect.uses_arrow.mp used with ⟨input, member, used⟩ | used
    · exact (each input member).2 kind name used
    · exact unseen.tidy.spelled recorded kind name used
  | clashed => exact leaves_recordError unseen outside _

variable (plain : Plain context.signatures)

include plain

theorem signature?_plain {name : String} {arity : Nat} {definition? : Option NameDefinition}
    {general : Effect}
    (run : state.signature? context name arity definition? = .ok (some general)) :
    general.Canonical ∧
      ∀ other, general.Uses .effect other → isPlaceholder other = true → Elsewhere ids other := by
  rcases signature?_cases run with ⟨_, found⟩ | ⟨_, components, _, _, rfl⟩ |
    ⟨_, site, _, _, recorded⟩
  · obtain ⟨canonical, plain⟩ := plain found
    refine ⟨canonical, fun other used marked => ?_⟩
    cases marked.symm.trans (plain other used)
  · obtain ⟨canonical, unused⟩ := propagate_spec components arity
    exact ⟨canonical, fun other used => absurd used (unused other)⟩
  · exact ⟨unseen.tidy.canonical recorded, fun other => unseen.tidy.placed recorded⟩

theorem leaves_copied {name : String} {arity : Nat} {definition? : Option NameDefinition}
    {general : Effect} (looked : state.signature? context name arity definition? = .ok (some general))
    (separate : (Vocabulary.usedIn [general]).Separate) :
    ∃ opened, Copied state general opened ∧ Leaves ids state opened ∧
      (general.rename (freshName general state.fresh)).Over
        (made .empty opened.fresh (Elsewhere ids)) := by
  obtain ⟨canonical, held⟩ := signature?_plain unseen plain looked
  obtain ⟨opened, copied, order, tidy, spelled⟩ :=
    unseen.tidy.instantiate (marked_of_elsewhere ids) canonical separate held
  refine ⟨opened, copied, ⟨⟨tidy, ?_, ?_⟩, order, ?_⟩, spelled⟩
  · rw [copied.effects]
    exact unseen.effects
  · rw [copied.errors]
    exact unseen.errors
  · rw [copied.errors]
    exact fun clean => clean

theorem leaves_instantiate {name : String} {arity : Nat} {definition? : Option NameDefinition}
    {general : Effect} (looked : state.signature? context name arity definition? = .ok (some general))
    {result : Except KindClash Effect} {opened : State}
    (run : state.instantiate general = (result, opened)) :
    Leaves ids state opened ∧ ∀ copy, result = .ok copy →
      copy.Canonical ∧ copy.Over (made .empty opened.fresh (Elsewhere ids)) := by
  by_cases separate : (Vocabulary.usedIn [general]).Separate
  · obtain ⟨opened, copied, leaves, spelled⟩ := leaves_copied unseen plain looked separate
    cases copied.run.symm.trans run
    refine ⟨leaves, fun copy same => ?_⟩
    cases same
    exact ⟨Effect.canonical_rename _ _, spelled⟩
  · obtain ⟨clash, clashed⟩ := instantiate_mixed separate state
    cases clashed.symm.trans run
    exact ⟨leaves_spent unseen general, fun copy same => by cases same⟩

theorem leaves_inferOperatorRef (outside : id ∉ ids) {name : String}
    {definition? : Option NameDefinition}
    (run : state.inferOperatorRef context id name definition? = .ok after) :
    Leaves ids state after := by
  cases inferOperatorRef_step run with
  | unresolved => exact leaves_recordError unseen outside _
  | copied looked instantiation =>
    obtain ⟨leaves, fits⟩ := leaves_instantiate unseen plain looked instantiation
    obtain ⟨canonical, spelled⟩ := fits _ rfl
    exact leaves.trans (leaves_record leaves.unseen outside canonical spelled)
  | clashed looked instantiation =>
    have leaves := (leaves_instantiate unseen plain looked instantiation).1
    exact leaves.trans (leaves_recordError leaves.unseen outside _)

theorem leaves_inferRef (outside : id ∉ ids) {name : String}
    (run : state.inferRef context id name = .ok after) : Leaves ids state after := by
  cases inferRef_step run with
  | parameter _ _ _ recorded =>
    exact leaves_record unseen outside (unseen.tidy.canonical recorded) (unseen.tidy.spelled recorded)
  | constant => exact leaves_record unseen outside canonical_empty (over_empty_effect _)
  | stateVariable => exact leaves_record unseen outside (canonical_reads _) (over_reads _ _)
  | operator _ _ run => exact leaves_inferOperatorRef unseen plain outside run

theorem leaves_applySignature (outside : id ∉ ids) {operator : String} {args : List Expr}
    {inputs : List Effect} {arity : Nat} {definition? : Option NameDefinition} {general : Effect}
    (each : ∀ input ∈ inputs, ∃ id, state.effects.get? id = some input)
    (looked : state.signature? context operator arity definition? = .ok (some general)) :
    Leaves ids state (state.applySignature (.app id operator args) inputs general) := by
  by_cases separate : (Vocabulary.usedIn [general]).Separate
  case neg =>
    obtain ⟨clash, copied⟩ := instantiate_mixed separate state
    rw [applySignature_of_clash copied]
    have leaves := leaves_spent unseen general
    exact leaves.trans (leaves_recordError leaves.unseen outside _)
  obtain ⟨opened, copied, leaves, spelled⟩ := leaves_copied unseen plain looked separate
  obtain ⟨tidy, outcome⟩ := leaves.unseen.tidy.applySignature (marked_of_elsewhere ids) copied spelled
    (by rw [copied.effects]; exact each) (.app id operator args)
  have moved : Leaves ids opened (withResult opened) :=
    leaves_fresh leaves.unseen (opened.fresh.le_next _)
  generalize state.applySignature (.app id operator args) inputs general = after at tidy outcome ⊢
  cases outcome with
  | failed clash => exact (leaves.trans moved).trans (leaves_recordError moved.unseen outside _)
  | @solved learned effect solved unified uses _ =>
    refine (leaves.trans moved).trans ⟨⟨tidy, fun other member => ?_, ?_⟩, ?_, ?_⟩
    · have different : id ≠ other := fun same => outside (same ▸ member)
      rw [Expr.id, get?_record, if_neg different]
      exact (SortedMap.get?_mapValues uses.effects other).2 (moved.unseen.effects other member)
    · exact uses.errors ▸ moved.unseen.errors
    · exact uses.fresh ▸ FreshNames.le_refl _
    · exact fun clean => uses.errors ▸ clean

theorem leaves_inferApplication (outside : id ∉ ids) {operator : String} {args : List Expr}
    (run : state.inferApplication context id operator args = .ok after) : Leaves ids state after := by
  cases inferApplication_step run with
  | skipped => exact .refl unseen
  | unresolved => exact leaves_recordError unseen outside _
  | applied known _ looked =>
    refine leaves_applySignature unseen plain outside (fun input member => ?_) looked
    obtain ⟨arg, _, recorded⟩ := forall₂_mem_right known member
    exact ⟨arg.id, recorded⟩

end Steps

theorem leaves_inferExprs {args : List Expr}
    (each : ∀ arg ∈ args, ∀ {state after}, Unseen ids state →
      inferExpr context state arg = .ok after → Leaves ids state after)
    (unseen : Unseen ids state) (run : inferExprs context state args = .ok after) :
    Leaves ids state after :=
  inferExprs_preserve (fun arg member _ _ leaves first =>
    leaves.trans (each arg member leaves.unseen first)) (.refl unseen) run

theorem inferExpr_leaves (plain : Plain context.signatures) {expr : Expr} (unseen : Unseen ids state)
    (outside : ∀ id ∈ expr.ids, id ∉ ids) (run : inferExpr context state expr = .ok after) :
    Leaves ids state after := by
  refine inferExpr_preserves (fun node member => ?_) (.refl unseen) run
  have own : ∀ id ∈ node.ownIds, id ∉ ids := fun id owned =>
    outside id (Expr.ownIds_subset member owned)
  have here := own node.id node.id_mem_ownIds
  cases node with
  | literal id value =>
    intro _ leaves
    exact leaves.trans (leaves_record leaves.unseen here canonical_empty (over_empty_effect _))
  | ref id name =>
    intro _ _ leaves run
    exact leaves.trans (leaves_inferRef leaves.unseen plain here run)
  | app id operator args =>
    intro _ _ leaves run
    exact leaves.trans (leaves_inferApplication leaves.unseen plain here run)
  | lambda id params body =>
    constructor
    · intro _ leaves
      exact leaves.trans (leaves_openLambda leaves.unseen here fun param member =>
        own param.id (List.mem_cons_of_mem _ (List.mem_map_of_mem member)))
    · intro _ leaves
      exact leaves.trans (leaves_closeLambda leaves.unseen here params body)
  | letIn id defId name bound body =>
    constructor
    · intro _ leaves
      exact leaves.trans (leaves_copyEffect leaves.unseen
        (own defId (List.mem_cons_of_mem _ List.mem_cons_self)) bound.id)
    · intro _ _ leaves run
      exact leaves.trans (leaves_closeLet leaves.unseen here run)

end SpecEffects.Inference
