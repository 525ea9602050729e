import SpecEffects.Proofs.Inference.MirrorSteps
import SpecEffects.Proofs.Inference.Outcome

/-!
Two expressions that are inferred in lockstep. If states mirror each other before, and all names mean
what corresponds, they do so afterwards. There is one lemma for each form of expression, so that
expressions that are not alike can be put in where it is known otherwise that they go together.
-/
namespace SpecEffects.Inference

open Substitution

/-- Both effects are the same up to a renaming, and nothing depends on placeholders in them that are
not holes. -/
def Link.General (link : Link) (general general' : Effect) : Prop :=
  ∃ τ, general' = general.rename τ ∧ general.Canonical ∧ (Vocabulary.usedIn [general]).Separate ∧
    (Vocabulary.usedIn [general]).Injective τ ∧
    ∀ {name}, general.Uses .effect name → link.holes name (τ name) ∨ link.Quiet name (τ name)

inductive Link.Akin (link : Link) : Option Effect → Option Effect → Prop
  | none : Akin link none none
  | some {general general' : Effect} (same : link.General general general') :
    Akin link (some general) (some general')
  | mixed {general : Effect} (mixed : ¬ (Vocabulary.usedIn [general]).Separate) :
    Akin link (some general) (some general)

inductive Agree (link : Link) (context context' : Context) (name : String) :
    Option NameDefinition → Option NameDefinition → Prop
  | builtin {definition? definition?' : Option NameDefinition} (means : MeansBuiltin definition?)
    (means' : MeansBuiltin definition?')
    (signatures : ∀ arity, link.Akin (context.signatures.signature? name arity)
      (context'.signatures.signature? name arity)) :
    Agree link context context' name definition? definition?'
  | constant {definition definition' : NameDefinition} (kind : definition.kind = .constant)
    (kind' : definition'.kind = .constant) :
    Agree link context context' name (some definition) (some definition')
  | stateVariable {definition definition' : NameDefinition} (kind : definition.kind = .stateVariable)
    (kind' : definition'.kind = .stateVariable) :
    Agree link context context' name (some definition) (some definition')
  | parameter {definition definition' : NameDefinition} {site site' : NodeId}
    (kind : definition.kind = .parameter) (kind' : definition'.kind = .parameter)
    (reference : definition.reference = some site) (reference' : definition'.reference = some site')
    (linked : link.nodes site site') :
    Agree link context context' name (some definition) (some definition')
  | operator {definition definition' : NameDefinition} {site site' : NodeId}
    (kind : definition.kind = .operator) (kind' : definition'.kind = .operator)
    (reference : definition.reference = some site) (reference' : definition'.reference = some site')
    (linked : link.nodes site site') :
    Agree link context context' name (some definition) (some definition')
  | watched {definition definition' : NameDefinition} {site site' : NodeId}
    (kind : definition.kind = .operator) (kind' : definition'.kind = .operator)
    (reference : definition.reference = some site) (reference' : definition'.reference = some site')
    (watched : link.watch.nodes site) (watched' : link.watch'.nodes site')
    (akin : link.Akin (link.watch.past.effects.get? site) (link.watch'.past.effects.get? site')) :
    Agree link context context' name (some definition) (some definition')
  /-- A parameter that is bound nowhere is a fault. -/
  | astray {definition : NameDefinition} {definition?' : Option NameDefinition}
    (kind : definition.kind = .parameter) (reference : definition.reference = none) :
    Agree link context context' name (some definition) definition?'

variable {link : Link} {ρ : String → String} {V : Vocabulary} {state state' after : State}
  {context context' : Context}

theorem agree_same {name : String} {definition? : Option NameDefinition}
    (signatures : ∀ arity, link.Akin (context.signatures.signature? name arity)
      (context'.signatures.signature? name arity))
    (parameter : ∀ {definition site}, definition? = some definition → definition.kind = .parameter →
      definition.reference = some site → link.nodes site site)
    (operator : ∀ {definition site}, definition? = some definition → definition.kind = .operator →
      definition.reference = some site → link.nodes site site ∨
        link.watch.nodes site ∧ link.watch'.nodes site ∧
          link.Akin (link.watch.past.effects.get? site) (link.watch'.past.effects.get? site)) :
    Agree link context context' name definition? definition? := by
  cases definition? with
  | none => exact .builtin trivial trivial signatures
  | some definition =>
    cases kind : definition.kind with
    | constant => exact .constant kind kind
    | stateVariable => exact .stateVariable kind kind
    | parameter =>
      cases reference : definition.reference with
      | none => exact .astray kind reference
      | some site => exact .parameter kind kind reference reference (parameter rfl kind reference)
    | operator =>
      cases reference : definition.reference with
      | none => exact .builtin ⟨kind, reference⟩ ⟨kind, reference⟩ signatures
      | some site =>
        rcases operator rfl kind reference with linked | ⟨watched, watched', akin⟩
        · exact .operator kind kind reference reference linked
        · exact .watched kind kind reference reference watched watched' akin

theorem Mirror.variant_of_general (mirror : Mirror link ρ V state state') {general general' : Effect}
    (same : link.General general general') :
    ∃ τ, general' = general.rename τ ∧ Variant link ρ V τ general := by
  obtain ⟨τ, rfl, canonical, separate, injective, quiet⟩ := same
  refine ⟨τ, rfl, canonical, separate, injective, fun used => ?_⟩
  rcases quiet used with hole | quiet
  · obtain ⟨used, same⟩ := mirror.holes hole
    exact Or.inl ⟨used, same.symm⟩
  · exact Or.inr quiet

theorem Mirror.variant_of_linked (proper : link.Proper) (mirror : Mirror link ρ V state state')
    {site site' : NodeId} (linked : link.nodes site site') {general : Effect}
    (found : state.effects.get? site = some general) :
    state'.effects.get? site' = some (general.rename ρ) ∧ Variant link ρ V ρ general := by
  have spelled := mirror.within linked found
  have image := mirror.effects linked
  rw [found] at image
  refine ⟨image, mirror.tidy.canonical found, separate_of_over (mirror.separate proper) spelled, ?_, ?_⟩
  · exact Vocabulary.Injective.mono mirror.injective fun kind name used =>
      spelled kind name (usedIn_singleton.mp used)
  · exact fun used => Or.inl ⟨spelled _ _ used, rfl⟩

theorem variant_propagate (components : List Component) (arity : Nat) :
    Variant link ρ V id (Signature.instantiate (.propagate components) arity) := by
  obtain ⟨canonical, unused⟩ := propagate_spec components arity
  refine ⟨canonical, fun name used => ?_, Vocabulary.injective_id _,
    fun used => absurd used (unused _)⟩
  exact absurd (usedIn_singleton.mp used) (unused name)

inductive Looked (link : Link) (ρ : String → String) (V : Vocabulary) :
    Option Effect → Option Effect → Prop
  | none : Looked link ρ V none none
  | some {τ : String → String} {general : Effect} (variant : Variant link ρ V τ general) :
    Looked link ρ V (some general) (some (general.rename τ))
  | mixed {general : Effect} (mixed : ¬ (Vocabulary.usedIn [general]).Separate) :
    Looked link ρ V (some general) (some general)

section Names

variable (proper : link.Proper) (mirror : Mirror link ρ V state state') {name : String}
  {definition? definition?' : Option NameDefinition}

include mirror in
theorem Mirror.looked_of_akin {effect? effect?' : Option Effect} (akin : link.Akin effect? effect?') :
    Looked link ρ V effect? effect?' := by
  cases akin with
  | none => exact .none
  | some same =>
    obtain ⟨τ, rfl, variant⟩ := mirror.variant_of_general same
    exact .some variant
  | mixed mixed => exact .mixed mixed

include proper mirror in
theorem Mirror.looked_of_linked {site site' : NodeId} (linked : link.nodes site site') :
    Looked link ρ V (state.effects.get? site) (state'.effects.get? site') := by
  cases found : state.effects.get? site with
  | none =>
    have image := mirror.effects linked
    rw [found] at image
    rw [image]
    exact .none
  | some general =>
    obtain ⟨found', variant⟩ := mirror.variant_of_linked proper linked found
    rw [found']
    exact .some variant

theorem signature?_builtin (means : MeansBuiltin definition?) (state : State) (context : Context)
    (name : String) (arity : Nat) :
    state.signature? context name arity definition? =
      .ok (context.signatures.signature? name arity) := by
  cases definition? with
  | none => rfl
  | some definition =>
    simp only [State.signature?]
    rw [means.1, means.2]

theorem signature?_operator {definition : NameDefinition} {site : NodeId}
    (kind : definition.kind = .operator) (reference : definition.reference = some site)
    (state : State) (context : Context) (name : String) (arity : Nat) :
    state.signature? context name arity (some definition) = .ok (state.effects.get? site) := by
  simp only [State.signature?]
  rw [kind, reference]

theorem parameterEffect_of_site {definition : NameDefinition} {site : NodeId} {effect : Effect}
    (reference : definition.reference = some site) (found : state.effects.get? site = some effect) :
    state.parameterEffect definition = .ok effect := by
  simp only [State.parameterEffect, reference, found]

theorem parameterEffect_astray {definition : NameDefinition} (reference : definition.reference = none)
    {effect : Effect} : state.parameterEffect definition ≠ .ok effect := by
  simp [State.parameterEffect, reference]

include proper mirror in
theorem Mirror.signature? (agree : Agree link context context' name definition? definition?')
    {arity : Nat} {general? : Option Effect}
    (run : state.signature? context name arity definition? = .ok general?) :
    ∃ general?', state'.signature? context' name arity definition?' = .ok general?' ∧
      Looked link ρ V general? general?' := by
  cases agree with
  | builtin means means' signatures =>
    rw [signature?_builtin means] at run
    cases run
    exact ⟨_, signature?_builtin means' .., mirror.looked_of_akin (signatures arity)⟩
  | constant kind kind' =>
    have variant : Variant link ρ V id (Signature.instantiate (.propagate [.read, .temporal]) arity) :=
      variant_propagate [.read, .temporal] arity
    have looked := Looked.some variant
    rw [Effect.rename_id variant.canonical] at looked
    simp only [State.signature?, kind] at run
    cases run
    exact ⟨_, by simp only [State.signature?, kind'], looked⟩
  | stateVariable kind kind' =>
    simp only [State.signature?, kind] at run
    cases run
    exact ⟨none, by simp only [State.signature?, kind'], .none⟩
  | @parameter definition definition' site site' kind kind' reference reference' linked =>
    simp only [State.signature?, kind] at run
    cases effect : state.parameterEffect definition with
    | error fault =>
      rw [effect] at run
      cases run
    | ok general =>
      rw [effect] at run
      cases run
      obtain ⟨other, same, found⟩ := parameterEffect_eq_ok effect
      cases reference.symm.trans same
      obtain ⟨found', variant⟩ := mirror.variant_of_linked proper linked found
      refine ⟨some (general.rename ρ), ?_, .some variant⟩
      simp only [State.signature?, kind', parameterEffect_of_site reference' found']
      rfl
  | operator kind kind' reference reference' linked =>
    rw [signature?_operator kind reference] at run
    cases run
    exact ⟨_, signature?_operator kind' reference' .., mirror.looked_of_linked proper linked⟩
  | @watched _ _ site site' kind kind' reference reference' watched watched' akin =>
    rw [signature?_operator kind reference] at run
    cases run
    refine ⟨_, signature?_operator kind' reference' .., ?_⟩
    rw [mirror.kept.effects watched, mirror.kept'.effects watched']
    exact mirror.looked_of_akin akin
  | @astray definition _ kind reference =>
    simp only [State.signature?, kind] at run
    cases effect : state.parameterEffect definition with
    | error fault =>
      rw [effect] at run
      cases run
    | ok general => exact absurd effect (parameterEffect_astray reference)

end Names

section References

variable {name : String} {id : NodeId} {definition : NameDefinition}

theorem inferRef_of_builtin {definition? : Option NameDefinition}
    (resolved : context.resolve name id = .ok definition?) (means : MeansBuiltin definition?) :
    state.inferRef context id name = state.inferOperatorRef context id name definition? := by
  unfold State.inferRef
  rw [resolved]
  cases definition? with
  | none => rfl
  | some definition =>
    simp only [State.orHalt, Except.mapError, bind, Except.bind, means.1]

theorem inferRef_of_operator (resolved : context.resolve name id = .ok (some definition))
    (kind : definition.kind = .operator) :
    state.inferRef context id name = state.inferOperatorRef context id name (some definition) := by
  unfold State.inferRef
  rw [resolved]
  simp only [State.orHalt, Except.mapError, bind, Except.bind, kind]

theorem inferRef_of_constant (resolved : context.resolve name id = .ok (some definition))
    (kind : definition.kind = .constant) :
    state.inferRef context id name = .ok (state.record id .empty) := by
  unfold State.inferRef
  rw [resolved]
  simp only [State.orHalt, Except.mapError, bind, Except.bind, kind]
  rfl

theorem inferRef_of_stateVariable (resolved : context.resolve name id = .ok (some definition))
    (kind : definition.kind = .stateVariable) :
    state.inferRef context id name = .ok (state.record id (.reads name)) := by
  unfold State.inferRef
  rw [resolved]
  simp only [State.orHalt, Except.mapError, bind, Except.bind, kind]
  rfl

theorem inferRef_of_parameter (resolved : context.resolve name id = .ok (some definition))
    (kind : definition.kind = .parameter) :
    state.inferRef context id name = .ok after ↔
      ∃ effect, state.parameterEffect definition = .ok effect ∧ after = state.record id effect := by
  unfold State.inferRef
  rw [resolved]
  simp only [State.orHalt, Except.mapError, bind, Except.bind, kind]
  cases state.parameterEffect definition with
  | error fault => simp
  | ok effect => simp [pure, Except.pure, eq_comm]

end References

structure Link.Joins (link : Link) (id id' : NodeId) : Prop where
  linked : link.nodes id id'
  unwatched : ¬ link.watch.nodes id
  unwatched' : ¬ link.watch'.nodes id'

def Means (link : Link) (context context' : Context) (name : String) (id id' : NodeId) : Prop :=
  ∀ ⦃definition?⦄, context.resolve name id = .ok definition? →
    ∃ definition?', context'.resolve name id' = .ok definition?' ∧
      Agree link context context' name definition? definition?'

section Steps

variable (proper : link.Proper) (mirror : Mirror link ρ V state state') {name : String}
  {id id' : NodeId} (joins : link.Joins id id')

include proper mirror joins

theorem Mirror.inferOperatorRef {definition? definition?' : Option NameDefinition}
    (agree : Agree link context context' name definition? definition?')
    (run : state.inferOperatorRef context id name definition? = .ok after) :
    ∃ ρ' V' after', state'.inferOperatorRef context' id' name definition?' = .ok after' ∧
      Mirror link ρ' V' after after' := by
  simp only [State.inferOperatorRef, bind_eq_ok, State.orHalt, mapError_eq_ok] at run ⊢
  obtain ⟨general?, looked, run⟩ := run
  obtain ⟨general?', looked', both⟩ := mirror.signature? proper agree looked
  cases both with
  | none =>
    cases run
    exact ⟨ρ, V, _, ⟨none, looked', rfl⟩, mirror.recordError proper joins.linked
      joins.unwatched joins.unwatched' rfl⟩
  | some variant =>
    obtain ⟨opened, opened', ρ', V', copied, copied', next, spelled, same⟩ :=
      mirror.instantiate proper variant
    dsimp only at run
    rw [copied.run] at run
    cases run
    refine ⟨ρ', V', _, ⟨_, looked', by dsimp only; rw [copied'.run]; rfl⟩, ?_⟩
    rw [same]
    exact next.record proper joins.linked joins.unwatched joins.unwatched'
      (Effect.canonical_rename _ _) spelled
  | @mixed general mixed =>
    obtain ⟨clash, copied⟩ := instantiate_mixed mixed state
    obtain ⟨clash', copied'⟩ := instantiate_mixed mixed state'
    obtain ⟨ρ', V', next⟩ := mirror.spent proper general
    dsimp only at run
    rw [copied] at run
    cases run
    refine ⟨ρ', V', _, ⟨_, looked', by dsimp only; rw [copied']; rfl⟩, ?_⟩
    exact next.recordError proper joins.linked joins.unwatched joins.unwatched' rfl

theorem Mirror.inferRef (means : Means link context context' name id id')
    (run : state.inferRef context id name = .ok after) :
    ∃ ρ' V' after', state'.inferRef context' id' name = .ok after' ∧
      Mirror link ρ' V' after after' := by
  obtain ⟨definition?, resolved⟩ : ∃ definition?, context.resolve name id = .ok definition? := by
    simp only [State.inferRef, bind_eq_ok, State.orHalt, mapError_eq_ok] at run
    obtain ⟨definition?, resolved, _⟩ := run
    exact ⟨definition?, resolved⟩
  obtain ⟨definition?', resolved', agree⟩ := means resolved
  have record : ∀ {effect : Effect}, effect.Canonical → effect.Over V →
      Mirror link ρ V (state.record id effect) (state'.record id' (effect.rename ρ)) :=
    fun canonical spelled =>
      mirror.record proper joins.linked joins.unwatched joins.unwatched' canonical spelled
  have closed : ∀ {effect : Effect}, effect.Canonical → (∀ V, effect.Over V) →
      Mirror link ρ V (state.record id effect) (state'.record id' effect) := by
    intro effect canonical spelled
    have next := record canonical (spelled V)
    rwa [Effect.rename_self canonical fun kind name used =>
      (spelled (fun _ _ => False) kind name used).elim] at next
  cases agree with
  | builtin means means' signatures =>
    rw [inferRef_of_builtin resolved means] at run
    rw [inferRef_of_builtin resolved' means']
    exact mirror.inferOperatorRef proper joins (.builtin means means' signatures) run
  | constant kind kind' =>
    rw [inferRef_of_constant resolved kind] at run
    cases run
    exact ⟨ρ, V, _, inferRef_of_constant resolved' kind', closed canonical_empty over_empty_effect⟩
  | stateVariable kind kind' =>
    rw [inferRef_of_stateVariable resolved kind] at run
    cases run
    exact ⟨ρ, V, _, inferRef_of_stateVariable resolved' kind',
      closed (canonical_reads name) fun V => over_reads V name⟩
  | parameter kind kind' reference reference' linked =>
    obtain ⟨effect, found, rfl⟩ := (inferRef_of_parameter resolved kind).mp run
    obtain ⟨site, same, found⟩ := parameterEffect_eq_ok found
    cases reference.symm.trans same
    obtain ⟨found', _⟩ := mirror.variant_of_linked proper linked found
    exact ⟨ρ, V, _, (inferRef_of_parameter resolved' kind').mpr
      ⟨_, parameterEffect_of_site reference' found', rfl⟩,
      record (mirror.tidy.canonical found) (mirror.within linked found)⟩
  | operator kind kind' reference reference' linked =>
    rw [inferRef_of_operator resolved kind] at run
    rw [inferRef_of_operator resolved' kind']
    exact mirror.inferOperatorRef proper joins (.operator kind kind' reference reference' linked) run
  | watched kind kind' reference reference' watched watched' akin =>
    rw [inferRef_of_operator resolved kind] at run
    rw [inferRef_of_operator resolved' kind']
    exact mirror.inferOperatorRef proper joins
      (.watched kind kind' reference reference' watched watched' akin) run
  | astray kind reference =>
    obtain ⟨effect, found, _⟩ := (inferRef_of_parameter resolved kind).mp run
    exact absurd found (parameterEffect_astray reference)

theorem Mirror.inferApplication {args args' : List Expr}
    (means : Means link context context' name id id')
    (each : List.Forall₂ (fun arg arg' => link.nodes arg.id arg'.id) args args')
    (run : state.inferApplication context id name args = .ok after) :
    ∃ ρ' V' after', state'.inferApplication context' id' name args' = .ok after' ∧
      Mirror link ρ' V' after after' := by
  unfold State.inferApplication at run ⊢
  have both : (∃ inputs inputs', (args.mapM fun arg => state.effects.get? arg.id) = some inputs ∧
      (args'.mapM fun arg => state'.effects.get? arg.id) = some inputs' ∧
      List.Forall₂ (fun input input' => ∃ id id', link.nodes id id' ∧
        state.effects.get? id = some input ∧ state'.effects.get? id' = some input')
        inputs inputs') ∨
      (args.mapM fun arg => state.effects.get? arg.id) = none ∧
        (args'.mapM fun arg => state'.effects.get? arg.id) = none := by
    clear run
    induction each with
    | nil => exact Or.inl ⟨[], [], rfl, rfl, .nil⟩
    | @cons arg arg' rest rest' linked tail ih =>
      have image := mirror.effects linked
      simp only [List.mapM_cons, Option.bind_eq_bind, Option.pure_def]
      cases found : state.effects.get? arg.id with
      | none =>
        rw [found] at image
        rw [image]
        exact Or.inr ⟨rfl, rfl⟩
      | some input =>
        rw [found] at image
        rw [image]
        rcases ih with ⟨inputs, inputs', all, all', each⟩ | ⟨missing, missing'⟩
        · rw [all, all']
          exact Or.inl ⟨_, _, rfl, rfl, .cons ⟨_, _, linked, found, image⟩ each⟩
        · rw [missing, missing']
          exact Or.inr ⟨rfl, rfl⟩
  rcases both with ⟨inputs, inputs', all, all', each'⟩ | ⟨missing, missing'⟩
  · rw [all] at run
    rw [all']
    simp only [bind_eq_ok, State.orHalt, mapError_eq_ok] at run ⊢
    obtain ⟨definition?, resolved, general?, looked, run⟩ := run
    obtain ⟨definition?', resolved', agree⟩ := means resolved
    rw [each.length_eq] at looked
    obtain ⟨general?', looked', both⟩ := mirror.signature? proper agree looked
    cases both with
    | none =>
      cases run
      exact ⟨ρ, V, _, ⟨_, resolved', _, looked', rfl⟩, mirror.recordError proper joins.linked
      joins.unwatched joins.unwatched' rfl⟩
    | some variant =>
      cases run
      obtain ⟨ρ', V', next⟩ := mirror.applySignature proper variant each' (.app id name args)
        (.app id' name args') joins.linked joins.unwatched joins.unwatched'
      exact ⟨ρ', V', _, ⟨_, resolved', _, looked', rfl⟩, next⟩
    | @mixed general mixed =>
      obtain ⟨clash, copied⟩ := instantiate_mixed mixed state
      obtain ⟨clash', copied'⟩ := instantiate_mixed mixed state'
      obtain ⟨ρ', V', next⟩ := mirror.spent proper general
      cases run
      refine ⟨ρ', V', _, ⟨_, resolved', _, looked', rfl⟩, ?_⟩
      rw [applySignature_of_clash copied, applySignature_of_clash copied']
      exact next.recordError proper joins.linked joins.unwatched joins.unwatched' rfl
  · rw [missing] at run
    rw [missing']
    cases run
    exact ⟨ρ, V, _, rfl, mirror⟩

end Steps

/-- What has to be known where runs are watched closely: the nodes of the expressions have not been
met, and there is no error in the end. -/
structure Closely (ids ids' : List NodeId) (state state' after : State) : Prop where
  unseen : Unseen ids state
  unseen' : Unseen ids' state'
  clean : after.errors.isEmpty = true

/-- Inferring the one expression in one run and the other in the other run keeps the runs alike. The
condition `close` says whether the runs are watched closely. -/
def Simulates (link : Link) (close : Prop) (context context' : Context) (expr expr' : Expr) : Prop :=
  ∀ ⦃ρ V state state' after⦄, Mirror link ρ V state state' →
    (close → Closely expr.ids expr'.ids state state' after) →
    inferExpr context state expr = .ok after →
    ∃ ρ' V' after', inferExpr context' state' expr' = .ok after' ∧ Mirror link ρ' V' after after'

structure Tractable (context context' : Context) (ids ids' : List NodeId) : Prop where
  plain : Plain context.signatures
  plain' : Plain context'.signatures
  nodup : ids.Nodup
  nodup' : ids'.Nodup

theorem Tractable.part {ids ids' less less' : List NodeId}
    (tractable : Tractable context context' ids ids') (fewer : less.Sublist ids)
    (fewer' : less'.Sublist ids') : Tractable context context' less less' :=
  ⟨tractable.plain, tractable.plain', tractable.nodup.sublist fewer, tractable.nodup'.sublist fewer'⟩

theorem inferExpr_clean (plain : Plain context.signatures) {expr : Expr} {ids : List NodeId}
    (unseen : Unseen ids state) (run : inferExpr context state expr = .ok after)
    (clean : after.errors.isEmpty = true) : state.errors.isEmpty = true :=
  (inferExpr_leaves plain (unseen.mono (List.nil_subset ids)) (fun _ _ => List.not_mem_nil)
    run).clean clean

theorem inferExprs_leaves (plain : Plain context.signatures) {args : List Expr} {ids : List NodeId}
    (unseen : Unseen ids state) (outside : ∀ id ∈ args.flatMap Expr.ids, id ∉ ids)
    (run : inferExprs context state args = .ok after) : Leaves ids state after :=
  leaves_inferExprs (fun arg member _ _ unseen run => inferExpr_leaves plain unseen
    (fun id inside => outside id (List.mem_flatMap.mpr ⟨arg, member, inside⟩)) run) unseen run

section Expressions

variable {close : Prop} (proper : link.Proper) {id id' : NodeId} (joins : link.Joins id id')

include proper joins

theorem simulates_literal (value value' : Literal) :
    Simulates link close context context' (.literal id value) (.literal id' value') := by
  intro ρ V state state' after mirror _ run
  cases run
  refine ⟨ρ, V, _, rfl, ?_⟩
  have next := mirror.record proper joins.linked joins.unwatched joins.unwatched' canonical_empty
    (over_empty_effect V)
  rwa [Effect.rename_self canonical_empty fun kind name used =>
    (over_empty_effect (fun _ _ => False) kind name used).elim] at next

theorem simulates_ref {name : String} (means : Means link context context' name id id') :
    Simulates link close context context' (.ref id name) (.ref id' name) := by
  intro ρ V state state' after mirror _ run
  exact mirror.inferRef proper joins means run

omit proper joins in
theorem inferExprs_simulates {args args' : List Expr}
    (tractable : close → Tractable context context' (args.flatMap Expr.ids) (args'.flatMap Expr.ids))
    (each : List.Forall₂ (Simulates link close context context') args args')
    (mirror : Mirror link ρ V state state')
    (closely : close → Closely (args.flatMap Expr.ids) (args'.flatMap Expr.ids) state state' after)
    (run : inferExprs context state args = .ok after) :
    ∃ ρ' V' after', inferExprs context' state' args' = .ok after' ∧
      Mirror link ρ' V' after after' := by
  induction each generalizing ρ V state state' with
  | nil =>
    cases run
    exact ⟨ρ, V, _, rfl, mirror⟩
  | @cons arg arg' rest rest' head tail ih =>
    simp only [inferExprs, bind_eq_ok] at run ⊢
    obtain ⟨middle, first, later⟩ := run
    simp only [List.flatMap_cons] at tractable closely
    obtain ⟨ρ₁, V₁, middle', first', between⟩ := head mirror (fun h => by
      obtain ⟨plain, _, _, _⟩ := tractable h
      obtain ⟨unseen, unseen', clean⟩ := closely h
      have early := unseen.mono (List.nil_subset _)
      have leaves := inferExpr_leaves plain early (fun _ _ => List.not_mem_nil) first
      refine ⟨unseen.mono (List.subset_append_left _ _), unseen'.mono (List.subset_append_left _ _), ?_⟩
      exact (inferExprs_leaves plain leaves.unseen (fun _ _ => List.not_mem_nil) later).clean
        clean) first
    obtain ⟨ρ₂, V₂, after', later', done⟩ := ih
      (fun h => (tractable h).part (List.sublist_append_right _ _) (List.sublist_append_right _ _))
      between (fun h => by
        obtain ⟨plain, plain', nodup, nodup'⟩ := tractable h
        obtain ⟨unseen, unseen', clean⟩ := closely h
        have disjoint := (List.nodup_append'.mp nodup).2.2
        have disjoint' := (List.nodup_append'.mp nodup').2.2
        exact ⟨(inferExpr_leaves plain (unseen.mono (List.subset_append_right _ _))
            (fun _ early late => disjoint early late) first).unseen,
          (inferExpr_leaves plain' (unseen'.mono (List.subset_append_right _ _))
            (fun _ early late => disjoint' early late) first').unseen, clean⟩) later
    exact ⟨ρ₂, V₂, after', ⟨middle', first', later'⟩, done⟩

theorem simulates_app {operator : String} {args args' : List Expr}
    (means : Means link context context' operator id id')
    (tractable : close → Tractable context context' (Expr.app id operator args).ids
      (Expr.app id' operator args').ids)
    (linked : List.Forall₂ (fun arg arg' => link.nodes arg.id arg'.id) args args')
    (each : List.Forall₂ (Simulates link close context context') args args') :
    Simulates link close context context' (.app id operator args) (.app id' operator args') := by
  intro ρ V state state' after mirror closely run
  simp only [inferExpr, bind_eq_ok] at run ⊢
  obtain ⟨middle, parts, whole⟩ := run
  simp only [Expr.ids_app] at tractable closely
  obtain ⟨ρ₁, V₁, middle', parts', between⟩ := inferExprs_simulates
    (fun h => (tractable h).part (List.sublist_cons_self _ _) (List.sublist_cons_self _ _)) each mirror
    (fun h => by
      obtain ⟨plain, _, _, _⟩ := tractable h
      obtain ⟨unseen, unseen', clean⟩ := closely h
      have leaves := inferExprs_leaves plain (unseen.mono (List.nil_subset _))
        (fun _ _ => List.not_mem_nil) parts
      exact ⟨unseen.mono (List.subset_cons_self _ _), unseen'.mono (List.subset_cons_self _ _),
        (leaves_inferApplication leaves.unseen plain List.not_mem_nil whole).clean clean⟩) parts
  obtain ⟨ρ₂, V₂, after', whole', done⟩ := between.inferApplication proper joins means linked whole
  exact ⟨ρ₂, V₂, after', ⟨middle', parts', whole'⟩, done⟩

theorem simulates_lambda {params params' : List Param} {body body' : Expr}
    (tractable : close → Tractable context context' (Expr.lambda id params body).ids
      (Expr.lambda id' params' body').ids)
    (each : List.Forall₂ (fun param param' => link.Joins param.id param'.id ∧
      link.holes (placeholder param.name id) (placeholder param'.name id')) params params')
    (linked : link.nodes body.id body'.id)
    (inner : Simulates link close context context' body body') :
    Simulates link close context context' (.lambda id params body) (.lambda id' params' body') := by
  intro ρ V state state' after mirror closely run
  simp only [inferExpr, bind_eq_ok, pure_eq_ok] at run ⊢
  obtain ⟨middle, inside, rfl⟩ := run
  have opened := mirror.openLambda proper (each.imp fun _ _ both =>
    ⟨both.1.linked, both.1.unwatched, both.1.unwatched', both.2⟩)
  simp only [Expr.ids_lambda] at tractable closely
  obtain ⟨ρ', V', middle', inside', between⟩ := inner opened (fun h => by
    obtain ⟨plain, plain', nodup, nodup'⟩ := tractable h
    obtain ⟨unseen, unseen', clean⟩ := closely h
    have params_leave : ∀ {id : NodeId} {params : List Param} {body : Expr} {state : State},
        (id :: (params.map Param.id ++ body.ids)).Nodup →
        Unseen (id :: (params.map Param.id ++ body.ids)) state →
        Unseen body.ids (state.openLambda id params) := by
      intro id params body state nodup unseen
      obtain ⟨different, nodup⟩ := List.nodup_cons.mp nodup
      have disjoint := (List.nodup_append'.mp nodup).2.2
      exact (leaves_openLambda (unseen.mono (List.subset_cons_of_subset _
        (List.subset_append_right _ _))) (fun own => different (List.mem_append_right _ own))
        fun param member => disjoint (List.mem_map_of_mem member)).unseen
    have ready := params_leave nodup unseen
    have leaves := inferExpr_leaves plain (ready.mono (List.nil_subset _))
      (fun _ _ => List.not_mem_nil) inside
    exact ⟨ready, params_leave nodup' unseen',
      (leaves_closeLambda leaves.unseen List.not_mem_nil params body).clean clean⟩) inside
  exact ⟨ρ', V', _, ⟨middle', inside', rfl⟩, between.closeLambda proper joins.linked joins.unwatched
    joins.unwatched' linked (each.imp fun _ _ both => both.2)⟩

omit proper joins in
theorem unseen_body {defId : NodeId} {bound body : Expr} {defined : State}
    (plain : Plain context.signatures) (nodup : (id :: defId :: (bound.ids ++ body.ids)).Nodup)
    (unseen : Unseen (id :: defId :: (bound.ids ++ body.ids)) state)
    (run : inferExpr context state bound = .ok defined) :
    Unseen body.ids (defined.copyEffect defId bound.id) := by
  obtain ⟨_, nodup⟩ := List.nodup_cons.mp nodup
  obtain ⟨different, nodup⟩ := List.nodup_cons.mp nodup
  have disjoint := (List.nodup_append'.mp nodup).2.2
  have leaves := inferExpr_leaves plain (unseen.mono (List.subset_cons_of_subset _
    (List.subset_cons_of_subset _ (List.subset_append_right _ _))))
    (fun _ early late => disjoint early late) run
  exact (leaves_copyEffect leaves.unseen (fun own => different (List.mem_append_right _ own))
    bound.id).unseen

theorem simulates_letIn {defId defId' : NodeId} {name name' : String} {bound bound' body body' : Expr}
    (alert : link.alert) (joins_def : link.Joins defId defId')
    (tractable : close → Tractable context context' (Expr.letIn id defId name bound body).ids
      (Expr.letIn id' defId' name' bound' body').ids)
    (linked : link.nodes bound.id bound'.id) (linked' : link.nodes body.id body'.id)
    (first : Simulates link close context context' bound bound')
    (second : Simulates link close context context' body body') :
    Simulates link close context context' (.letIn id defId name bound body)
      (.letIn id' defId' name' bound' body') := by
  intro ρ V state state' after mirror closely run
  simp only [inferExpr, bind_eq_ok] at run ⊢
  obtain ⟨defined, bound_run, between, body_run, close_run⟩ := run
  simp only [Expr.ids_letIn] at tractable closely
  have clean_body : close → between.errors.isEmpty = true := by
    intro h
    obtain ⟨plain, _, nodup, _⟩ := tractable h
    obtain ⟨unseen, _, clean⟩ := closely h
    have ready := unseen_body plain nodup unseen bound_run
    have leaves := inferExpr_leaves plain (ready.mono (List.nil_subset _))
      (fun _ _ => List.not_mem_nil) body_run
    exact (leaves_closeLet leaves.unseen List.not_mem_nil close_run).clean clean
  obtain ⟨ρ₁, V₁, defined', bound_run', early⟩ := first mirror (fun h => by
    obtain ⟨plain, _, nodup, _⟩ := tractable h
    obtain ⟨unseen, unseen', _⟩ := closely h
    have part : ∀ {id defId : NodeId} {bound body : Expr},
        bound.ids ⊆ id :: defId :: (bound.ids ++ body.ids) := fun {_ _ _ _} =>
      List.subset_cons_of_subset _ (List.subset_cons_of_subset _ (List.subset_append_left _ _))
    have ready := unseen_body plain nodup unseen bound_run
    have clean := inferExpr_clean plain ready body_run (clean_body h)
    refine ⟨unseen.mono part, unseen'.mono part, ?_⟩
    have leaves := inferExpr_leaves plain (unseen.mono (List.nil_subset _))
      (fun _ _ => List.not_mem_nil) bound_run
    exact (leaves_copyEffect leaves.unseen List.not_mem_nil bound.id).clean clean) bound_run
  have copied := early.copyEffect proper joins_def.linked joins_def.unwatched joins_def.unwatched' linked
  obtain ⟨ρ₂, V₂, between', body_run', late⟩ := second copied (fun h => by
    obtain ⟨plain, plain', nodup, nodup'⟩ := tractable h
    obtain ⟨unseen, unseen', _⟩ := closely h
    exact ⟨unseen_body plain nodup unseen bound_run, unseen_body plain' nodup' unseen' bound_run',
      clean_body h⟩) body_run
  obtain ⟨after', close_run', done⟩ := late.closeLet proper alert joins.linked joins.unwatched
    joins.unwatched' linked' close_run
  exact ⟨ρ₂, V₂, after', ⟨defined', bound_run', between', body_run', close_run'⟩, done⟩

end Expressions

/-- The node can be inferred in both runs: it is linked to itself with all that belongs to it, its name
means what corresponds, and if it is a let, both runs have errors or neither has. -/
structure Link.Admits (link : Link) (context context' : Context) (node : Expr) : Prop where
  joins : ∀ id ∈ node.ownIds, link.Joins id id
  holes : ∀ hole ∈ node.ownPlaceholders, link.holes hole hole
  means : ∀ name, node.used? = some name → Means link context context' name node.id node.id
  alert : node.isLet = true → link.alert

theorem simulates_same (proper : link.Proper) {expr : Expr}
    (admits : ∀ node ∈ expr.nodes, link.Admits context context' node) :
    Simulates link False context context' expr expr := by
  have whole : ∀ {expr : Expr}, (∀ node ∈ expr.nodes, link.Admits context context' node) →
      link.Joins expr.id expr.id := fun {expr} admits =>
    (admits expr expr.mem_nodes_self).joins expr.id expr.id_mem_ownIds
  induction expr with
  | literal id value => exact simulates_literal proper (whole admits) value value
  | ref id name =>
    exact simulates_ref proper (whole admits) ((admits _ (Expr.mem_nodes_self _)).means name rfl)
  | app id operator args ih =>
    have here := admits _ (Expr.mem_nodes_self _)
    have inner : ∀ arg ∈ args, ∀ node ∈ arg.nodes, link.Admits context context' node := by
      intro arg present node member
      refine admits node ?_
      rw [Expr.nodes, Expr.nodesOf_eq]
      exact List.mem_cons_of_mem _ (List.mem_flatMap.mpr ⟨arg, present, member⟩)
    exact simulates_app proper (whole admits) (here.means operator rfl) False.elim
      (List.forall₂_same.mpr fun arg member => (whole (inner arg member)).linked)
      (List.forall₂_same.mpr fun arg member => ih arg member (inner arg member))
  | lambda id params body ih =>
    have here := admits _ (Expr.mem_nodes_self _)
    have inner : ∀ node ∈ body.nodes, link.Admits context context' node := fun node member =>
      admits node (List.mem_cons_of_mem _ member)
    refine simulates_lambda proper (whole admits) False.elim
      (List.forall₂_same.mpr fun param member => ⟨here.joins param.id ?_, here.holes _ ?_⟩)
      (whole inner).linked (ih inner)
    · exact List.mem_cons_of_mem _ (List.mem_map_of_mem member)
    · exact List.mem_map_of_mem member
  | letIn id defId name bound body ih ih' =>
    have here := admits _ (Expr.mem_nodes_self _)
    have first : ∀ node ∈ bound.nodes, link.Admits context context' node := fun node member =>
      admits node (by simp [Expr.nodes, member])
    have second : ∀ node ∈ body.nodes, link.Admits context context' node := fun node member =>
      admits node (by simp [Expr.nodes, member])
    exact simulates_letIn proper (whole admits) (here.alert rfl)
      (here.joins defId (List.mem_cons_of_mem _ List.mem_cons_self)) False.elim (whole first).linked
      (whole second).linked (ih first) (ih' second)

theorem inferDeclarations_mirrors {link : Link} {env env' : Environment} {context context' : Context}
    {declarations : List Declaration} (each : ∀ declaration ∈ declarations,
      ∀ ⦃ρ V state state' after⦄, Mirror link ρ V state state' →
        inferDeclaration env context state declaration = .ok after →
        ∃ ρ' V' after', inferDeclaration env' context' state' declaration = .ok after' ∧
          Mirror link ρ' V' after after')
    {ρ : String → String} {V : Vocabulary} {state state' after : State}
    (mirror : Mirror link ρ V state state')
    (run : inferDeclarations env context state declarations = .ok after) :
    ∃ ρ' V' after', inferDeclarations env' context' state' declarations = .ok after' ∧
      Mirror link ρ' V' after after' := by
  induction declarations generalizing ρ V state state' with
  | nil =>
    cases run
    exact ⟨ρ, V, _, rfl, mirror⟩
  | cons declaration rest ih =>
    simp only [inferDeclarations, bind_eq_ok] at run ⊢
    obtain ⟨middle, first, later⟩ := run
    obtain ⟨ρ₁, V₁, middle', first', between⟩ := each declaration List.mem_cons_self mirror first
    obtain ⟨ρ₂, V₂, after', later', done⟩ :=
      ih (fun other member => each other (List.mem_cons_of_mem _ member)) between later
    exact ⟨ρ₂, V₂, after', ⟨middle', first', later'⟩, done⟩

end SpecEffects.Inference
