import SpecEffects.Proofs.Inference.Frame
import SpecEffects.Proofs.Inference.Steps

/-!
What each step of inference does inside of a stretch: the stretch stays as it should be, only the
node itself may get an effect, and its effect fits those of its parts.
-/
namespace SpecEffects.Inference

open Substitution

structure Advances (frame : Frame) (foreign : String → Prop) (stable : NodeId → Prop)
    (ids : List NodeId) (state after : State) : Prop where
  holds : frame.Holds foreign after
  evolves : Evolves stable state.effects (fun id => id ∈ ids) after.effects

structure Extends (frame : Frame) (foreign : String → Prop) (stable : NodeId → Prop)
    (context : Context) (ids : List NodeId) (nodes : List Expr) (state after : State) : Prop
    extends Advances frame foreign stable ids state after where
  consistent : ∀ node ∈ nodes, Consistent stable context after.effects node

variable {frame : Frame} {foreign : String → Prop} {stable : NodeId → Prop} {context : Context}
  {state after last : State} {ids ids' : List NodeId} {nodes nodes' : List Expr}

namespace Advances

theorem trans (first : Advances frame foreign stable ids state after)
    (second : Advances frame foreign stable ids' after last) :
    Advances frame foreign stable (ids ++ ids') state last := by
  refine ⟨second.holds, (first.evolves.trans second.evolves).mono ?_⟩
  intro id touched
  exact List.mem_append.mpr touched

theorem mono (advanced : Advances frame foreign stable ids state after) (more : ids ⊆ ids') :
    Advances frame foreign stable ids' state after :=
  ⟨advanced.holds, advanced.evolves.mono fun _ touched => more touched⟩

theorem missing (advanced : Advances frame foreign stable ids state after) {id : NodeId}
    (before : state.effects.get? id = none) (untouched : id ∉ ids) :
    after.effects.get? id = none := by
  obtain ⟨σ, evolves⟩ := advanced.evolves
  exact evolves.unrecorded before untouched

theorem of_same (holds : frame.Holds foreign after) (same : after.effects = state.effects)
    (ids : List NodeId) : Advances frame foreign stable ids state after := by
  refine ⟨holds, ?_⟩
  rw [same]
  exact Evolves.refl stable state.effects _

theorem of_record (holds : frame.Holds foreign state) {id : NodeId} (inside : frame.ids id)
    (missing : state.effects.get? id = none) {effect : Effect} (canonical : effect.Canonical)
    (own : effect.Over (frame.own state.fresh)) :
    Advances frame foreign stable [id] state (state.record id effect) := by
  refine ⟨holds.record inside canonical own, (Evolves.insert missing effect).mono ?_⟩
  intro other same
  exact List.mem_singleton.mpr same

end Advances

namespace Extends

theorem mono (extended : Extends frame foreign stable context ids nodes state after)
    (more : ids ⊆ ids') (fewer : nodes' ⊆ nodes) :
    Extends frame foreign stable context ids' nodes' state after :=
  ⟨extended.toAdvances.mono more, fun node member => extended.consistent node (fewer member)⟩

theorem preceded (first : Advances frame foreign stable ids state after)
    (second : Extends frame foreign stable context ids' nodes after last) :
    Extends frame foreign stable context (ids ++ ids') nodes state last :=
  ⟨first.trans second.toAdvances, second.consistent⟩

theorem followed (first : Extends frame foreign stable context ids nodes state after)
    (second : Advances frame foreign stable ids' after last)
    (apart : ∀ node ∈ nodes, ∀ id ∈ node.ownIds, id ∉ ids') :
    Extends frame foreign stable context (ids ++ ids') nodes state last := by
  refine ⟨first.toAdvances.trans second, ?_⟩
  intro node member
  exact (first.consistent node member).evolves second.evolves (apart node member)

theorem trans (first : Extends frame foreign stable context ids nodes state after)
    (second : Extends frame foreign stable context ids' nodes' after last)
    (apart : ∀ node ∈ nodes, ∀ id ∈ node.ownIds, id ∉ ids') :
    Extends frame foreign stable context (ids ++ ids') (nodes ++ nodes') state last := by
  have early := first.followed second.toAdvances apart
  refine ⟨early.toAdvances, ?_⟩
  intro node member
  rcases List.mem_append.mp member with member | member
  · exact early.consistent node member
  · exact second.consistent node member

end Extends

theorem get?_record (state : State) (id other : NodeId) (effect : Effect) :
    (state.record id effect).effects.get? other =
      if id = other then some effect else state.effects.get? other :=
  SortedMap.get?_insert _ _ _ _

theorem get?_record_self (state : State) (id : NodeId) (effect : Effect) :
    (state.record id effect).effects.get? id = some effect := by
  rw [get?_record, if_pos rfl]

theorem eq_or_found_of_record {id other : NodeId} {effect found : Effect}
    (recorded : (state.record id effect).effects.get? other = some found) :
    found = effect ∨ state.effects.get? other = some found := by
  rw [get?_record] at recorded
  split at recorded
  · cases recorded
    exact Or.inl rfl
  · exact Or.inr recorded

theorem get?_record_of_missing {id other : NodeId} {effect found : Effect}
    (missing : state.effects.get? id = none) (recorded : state.effects.get? other = some found) :
    (state.record id effect).effects.get? other = some found := by
  have different : id ≠ other := by
    intro same
    subst same
    cases missing.symm.trans recorded
  rw [get?_record, if_neg different]
  exact recorded

theorem effects_recordError (state : State) (id : NodeId) (error : InferenceError) :
    (state.recordError id error).effects = state.effects := by
  unfold State.recordError
  split <;> rfl

theorem running_recordError (state : State) (id : NodeId) (error : InferenceError) :
    (state.recordError id error).running = state.running := by
  unfold State.recordError
  split <;> rfl

theorem fresh_recordError (state : State) (id : NodeId) (error : InferenceError) :
    (state.recordError id error).fresh = state.fresh := by
  unfold State.recordError
  split <;> rfl

theorem get?_errors_recordError (state : State) (id : NodeId) (error : InferenceError)
    (other : NodeId) : (state.recordError id error).errors.get? other =
      if id = other then (state.errors.get? id).or (some error) else state.errors.get? other := by
  unfold State.recordError
  split
  · rename_i failed
    obtain ⟨first, found⟩ := Option.isSome_iff_exists.mp failed
    split
    · rename_i same
      rw [← same, found]
      rfl
    · rfl
  · rename_i passed
    rw [SortedMap.get?_insert, Option.not_isSome_iff_eq_none.mp passed]
    rfl

theorem canonical_ofParts (parts : List (Component × VariableSet)) :
    (Effect.concrete (.ofParts parts)).Canonical := by
  refine .concrete fun component => ?_
  cases component <;> exact VariableSet.canonical_join _

theorem concrete_uses_no_effect (footprint : Footprint) (name : String) :
    ¬ (Effect.concrete footprint).Uses .effect name := SortedSet.not_mem_empty name

theorem propagate_spec (components : List Component) (arity : Nat) :
    (Signature.instantiate (.propagate components) arity).Canonical ∧
      ∀ name, ¬ (Signature.instantiate (.propagate components) arity).Uses .effect name := by
  constructor
  · refine .arrow (fun param member => ?_) (canonical_ofParts _)
    obtain ⟨index, _, rfl⟩ := List.mem_map.mp member
    exact canonical_ofParts _
  · intro name used
    rcases Effect.uses_arrow.mp used with ⟨param, member, used⟩ | used
    · obtain ⟨index, _, rfl⟩ := List.mem_map.mp member
      exact concrete_uses_no_effect _ name used
    · exact concrete_uses_no_effect _ name used

theorem propagate_separate (components : List Component) (arity : Nat) :
    (Vocabulary.usedIn [Signature.instantiate (.propagate components) arity]).Separate := by
  rintro name ⟨_, member, used⟩ _
  cases List.mem_singleton.mp member
  exact (propagate_spec components arity).2 name used

theorem signature?_cases {name : String} {arity : Nat} {definition? : Option NameDefinition}
    {general : Effect}
    (run : state.signature? context name arity definition? = .ok (some general)) :
    MeansBuiltin definition? ∧ context.signatures.signature? name arity = some general ∨
    (∃ definition components, definition? = some definition ∧ definition.kind = .constant ∧
      general = Signature.instantiate (.propagate components) arity) ∨
    ∃ definition site, definition? = some definition ∧ definition.reference = some site ∧
      state.effects.get? site = some general := by
  cases definition? with
  | none => exact Or.inl ⟨trivial, Except.ok.inj run⟩
  | some definition =>
    simp only [State.signature?] at run
    split at run
    · cases effect : state.parameterEffect definition with
      | error fault =>
        rw [effect] at run
        cases run
      | ok found =>
        rw [effect] at run
        cases run
        obtain ⟨site, reference, recorded⟩ := parameterEffect_eq_ok effect
        exact Or.inr (Or.inr ⟨definition, site, rfl, reference, recorded⟩)
    · rename_i reference operator reference_eq
      exact Or.inr (Or.inr ⟨definition, reference, rfl, reference_eq, Except.ok.inj run⟩)
    · rename_i operator reference_eq
      exact Or.inl ⟨⟨operator, reference_eq⟩, Except.ok.inj run⟩
    · rename_i constant
      have same := Option.some.inj (Except.ok.inj run)
      exact Or.inr (Or.inl ⟨definition, _, rfl, constant, same.symm⟩)
    · cases run

section Steps

variable (holds : frame.Holds foreign state) (outside : ∀ id, stable id → ¬ frame.ids id)
  (signatures : ∀ {name arity signature},
    context.signatures.signature? name arity = some signature →
      signature.Canonical ∧ ∀ other, signature.Uses .effect other → foreign other)

include holds signatures in
theorem signature?_known {name : String} {arity : Nat} {definition? : Option NameDefinition}
    {general : Effect}
    (run : state.signature? context name arity definition? = .ok (some general)) :
    general.Canonical ∧ ∀ other, general.Uses .effect other →
      (∃ kind, frame.known state.fresh kind other) ∨ foreign other := by
  rcases signature?_cases run with ⟨_, found⟩ | ⟨_, components, _, _, rfl⟩ |
    ⟨_, site, _, _, recorded⟩
  · obtain ⟨canonical, named⟩ := signatures found
    exact ⟨canonical, fun other used => Or.inr (named other used)⟩
  · obtain ⟨canonical, unused⟩ := propagate_spec components arity
    exact ⟨canonical, fun other used => absurd used (unused other)⟩
  · exact ⟨holds.canonical recorded,
      fun other used => Or.inl ⟨.effect, holds.known recorded _ _ used⟩⟩

theorem fits_of_instance {id : NodeId} {operator : String} {arity : Nat}
    {definition? : Option NameDefinition} {general result : Effect} {inputs : List Effect}
    (resolved : context.resolve operator id = .ok definition?)
    (run : state.signature? context operator arity definition? = .ok (some general))
    {touched : NodeId → Prop} (evolves : Evolves stable state.effects touched after.effects)
    (instanced : IsInstance general (.arrow inputs result)) :
    FitsApplication stable context after.effects id operator arity inputs result := by
  constructor
  · intro other resolved' means
    cases resolved.symm.trans resolved'
    rcases signature?_cases run with ⟨_, found⟩ | ⟨definition, _, rfl, constant, _⟩ |
      ⟨definition, site, rfl, reference, _⟩
    · exact ⟨general, found, instanced⟩
    · cases constant.symm.trans means.1
    · cases reference.symm.trans means.2
  · intro definition site resolved' means fixed
    cases resolved.symm.trans resolved'
    obtain ⟨operator_kind, _, reference⟩ := means
    rcases signature?_cases run with ⟨builtin, _⟩ | ⟨other, _, same, constant, _⟩ |
      ⟨other, site', same, reference', recorded⟩
    · cases reference.symm.trans builtin.2
    · cases same
      cases constant.symm.trans operator_kind
    · cases same
      cases reference.symm.trans reference'
      obtain ⟨σ, evolves⟩ := evolves
      obtain ⟨general', _, found, unchanged⟩ := evolves.kept recorded
      rw [unchanged fixed] at found
      exact ⟨general, found, instanced⟩

theorem solve_eq_ok {signature used result effect : Effect}
    (run : state.solve signature used result = .ok (effect, after)) :
    ∃ learned running effects, signature.unify used = .ok learned ∧
      learned.compose state.running = .ok running ∧
      state.effects.mapValues learned.apply = .ok effects ∧ learned.apply result = .ok effect ∧
      after = { state with running, effects } := by
  simp only [State.solve, bind_eq_ok, mapError_eq_ok, pure_eq_ok, Prod.mk.injEq] at run
  obtain ⟨learned, solved, running, added, effects, changed, found, applied, rfl, rfl⟩ := run
  exact ⟨learned, running, effects, solved, added, changed, applied, rfl⟩

include holds outside in
/-- Both sides are equal afterwards, with what is learned put into every effect. -/
theorem solve_spec {signature used result effect : Effect} (canonical : signature.Canonical)
    (canonical' : used.Canonical) (own : signature.Over (frame.own state.fresh))
    (own' : used.Over (frame.own state.fresh))
    (run : state.solve signature used result = .ok (effect, after)) :
    frame.Holds foreign after ∧ after.fresh = state.fresh ∧
      ∃ learned, EvolvesBy stable state.effects learned (fun _ => False) after.effects ∧
        learned.Over (frame.own state.fresh) ∧ learned.apply result = .ok effect ∧
        ∀ used', learned.apply used = .ok used' → learned.apply signature = .ok used' := by
  obtain ⟨learned, running, effects, solved, added, changed, applied, rfl⟩ := solve_eq_ok run
  obtain ⟨values, equal⟩ := Effect.unify_canonical canonical canonical' solved
  have bounded := Effect.unify_over own own' solved
  have named : ∀ binding ∈ learned.bindings, (∃ kind, frame.known state.fresh kind binding.name) ∨
      foreign binding.name ∧ isPlaceholder binding.name = true := by
    intro binding member
    exact Or.inl ⟨_, Frame.known_of_own (bounded binding member).1⟩
  have told := holds.learn values bounded.values named added
  obtain ⟨done, evolves⟩ := told.rewrite outside values bounded changed
  refine ⟨done, rfl, learned, evolves, bounded, applied, fun used' onRight => ?_⟩
  -- The signature is over names of the stretch as well, so applying to it does not clash.
  obtain ⟨signature', onLeft⟩ := exists_apply.mpr fun kind name used =>
    allows_of_over bounded (Frame.own_separate _) (own kind name used)
  have same := equal _ _ (applyToTerm_effect.mpr ⟨signature', onLeft, rfl⟩)
    (applyToTerm_effect.mpr ⟨used', onRight, rfl⟩)
  rw [onLeft, Term.effect.inj same]

def Applied (effects : SortedMap NodeId Effect) (id : NodeId) (args : List Expr)
    (general : Effect) : Prop :=
  ∀ result, effects.get? id = some result →
    ∃ inputs, List.Forall₂ (fun arg input => effects.get? arg.id = some input) args inputs ∧
      IsInstance general (.arrow inputs result)

include holds outside in
theorem record_solution {id : NodeId} {args : List Expr} {inputs : List Effect}
    {general signature effect : Effect} {name : String} (inside : frame.ids id)
    (missing : state.effects.get? id = none)
    (each : List.Forall₂ (fun arg input => state.effects.get? arg.id = some input) args inputs)
    (insides : ∀ arg ∈ args, frame.ids arg.id) (canonical : signature.Canonical)
    (own : signature.Over (frame.own state.fresh)) (named : frame.own state.fresh .effect name)
    (instanced : IsInstance general signature)
    (run : state.solve signature (.arrow inputs (.quantified name)) (.quantified name) =
      .ok (effect, after)) :
    Advances frame foreign stable [id] state (after.record id effect) ∧
      Applied (after.record id effect).effects id args general := by
  have own_name : (Effect.quantified name).Over (frame.own state.fresh) := by
    intro kind other used
    obtain ⟨rfl, rfl⟩ := Effect.uses_quantified.mp used
    exact named
  have canonical' : (Effect.arrow inputs (.quantified name)).Canonical := by
    refine .arrow (fun input member => ?_) (.quantified name)
    obtain ⟨arg, _, recorded⟩ := forall₂_mem_right each member
    exact holds.canonical recorded
  have own' : (Effect.arrow inputs (.quantified name)).Over (frame.own state.fresh) := by
    intro kind other used
    rcases Effect.uses_arrow.mp used with ⟨input, member, used⟩ | used
    · obtain ⟨arg, present, recorded⟩ := forall₂_mem_right each member
      exact holds.inside recorded (insides arg present) kind other used
    · exact own_name kind other used
  obtain ⟨done, same, learned, evolves, bounded, applied, equal⟩ :=
    solve_spec holds outside canonical canonical' own own' run
  obtain ⟨inputs', each', changed⟩ := evolves.inputs each
  have missing' : after.effects.get? id = none := evolves.unrecorded missing not_false
  constructor
  · refine ⟨done.record inside ?_ ?_, ?_⟩
    · exact everySet_apply evolves.canonical
        (fun _ => canonical_applyToVariables evolves.canonical) (.quantified name) applied
    · rw [same]
      exact over_apply bounded.values own_name applied
    · refine (Evolves.trans ⟨learned, evolves⟩ (Evolves.insert missing' effect)).mono ?_
      intro other touched
      rcases touched with absurd | rfl
      · exact absurd.elim
      · exact List.mem_singleton.mpr rfl
  · intro result recorded
    rw [get?_record_self] at recorded
    cases recorded
    have arrow := apply_arrow.mpr ⟨inputs', effect, changed, applied, rfl⟩
    refine ⟨inputs', ?_, instanced.apply evolves.canonical evolves.bounded (equal _ arrow)⟩
    exact each'.imp fun arg input recorded => get?_record_of_missing missing' recorded

include holds outside in
theorem applySignature_spec {id : NodeId} {operator : String} {args : List Expr}
    {inputs : List Effect} {general : Effect} (inside : frame.ids id)
    (missing : state.effects.get? id = none) (canonical : general.Canonical)
    (named : ∀ other, general.Uses .effect other →
      (∃ kind, frame.known state.fresh kind other) ∨ foreign other)
    (each : List.Forall₂ (fun arg input => state.effects.get? arg.id = some input) args inputs)
    (insides : ∀ arg ∈ args, frame.ids arg.id)
    (run : state.applySignature (.app id operator args) inputs general = after) :
    Advances frame foreign stable [id] state after ∧
      Applied after.effects id args general := by
  have failed : frame.Holds foreign after → after.effects = state.effects →
      Advances frame foreign stable [id] state after ∧
        Applied after.effects id args general := by
    intro holds' same
    refine ⟨.of_same holds' same [id], fun result recorded => ?_⟩
    rw [same, missing] at recorded
    cases recorded
  have step := applySignature_step state (.app id operator args) inputs general
  rw [run] at step
  cases step with
  | clashed instantiation =>
    have inst := instantiated instantiation
    exact failed ((holds.instantiate inst named).recordError _ _)
      ((effects_recordError _ _ _).trans inst.effects)
  | @failed copy copied cause instantiation _ =>
    have inst := instantiated instantiation
    have moved := (holds.instantiate inst named).later (copied.fresh.le_next effectStem)
    exact failed (moved.recordError _ _) ((effects_recordError _ _ _).trans inst.effects)
  | @solved copy effect copied last instantiation solution =>
    have inst := instantiated instantiation
    have started := holds.instantiate inst named
    have moved := started.later (copied.fresh.le_next effectStem)
    have same : state.effects = copied.effects := inst.effects.symm
    rw [same] at missing each
    obtain ⟨canonical', own, instanced⟩ := holds.copy inst canonical
    have own' : copy.Over (frame.own (copied.fresh.next effectStem).2) :=
      fun kind name used => Frame.own_mono (copied.fresh.le_next _) (own kind name used)
    obtain ⟨advanced, applied⟩ := record_solution moved outside inside missing each insides
      canonical' own' (Frame.own_next started.started) instanced solution
    refine ⟨⟨advanced.holds, ?_⟩, applied⟩
    rw [same]
    exact advanced.evolves

include holds outside signatures in
theorem inferApplication_extends {id : NodeId} {operator : String} {args : List Expr}
    (inside : frame.ids id) (missing : state.effects.get? id = none)
    (insides : ∀ arg ∈ args, frame.ids arg.id)
    (run : state.inferApplication context id operator args = .ok after) :
    Extends frame foreign stable context [id] [.app id operator args] state after := by
  have failed : frame.Holds foreign after → after.effects = state.effects →
      Extends frame foreign stable context [id] [.app id operator args] state after := by
    intro holds' same
    refine ⟨.of_same holds' same [id], ?_⟩
    intro node member
    cases List.mem_singleton.mp member
    intro result recorded
    rw [same, missing] at recorded
    cases recorded
  cases inferApplication_step run with
  | skipped => exact failed holds rfl
  | unresolved => exact failed (holds.recordError _ _) (effects_recordError _ _ _)
  | applied each resolved looked =>
    obtain ⟨canonical, named⟩ := signature?_known holds signatures looked
    obtain ⟨advanced, applied⟩ :=
      applySignature_spec holds outside inside missing canonical named each insides rfl
    refine ⟨advanced, ?_⟩
    intro node member
    cases List.mem_singleton.mp member
    intro result recorded
    obtain ⟨inputs', each', instanced⟩ := applied result recorded
    exact ⟨inputs', each', fits_of_instance resolved looked advanced.evolves instanced⟩

end Steps

end SpecEffects.Inference
