import SpecEffects.Proofs.Inference.SignatureNames
import SpecEffects.Proofs.Inference.Unfolding
import SpecEffects.Proofs.Inference.Verdicts

/-!
Inference of ground modules is direct recursion. No quantified name is ever recorded for a node of
such a module, so that what is learned at one place changes nothing at another. Copies of effects are
the effects themselves, and an application succeeds just when its arguments fit.
-/
namespace SpecEffects.Inference

open Slots (effect Fits passOn)

structure Recorded (state : State) (id : NodeId) (verdict : Verdict) : Prop where
  effect : state.effects.get? id = verdict.slots?.map Slots.effect
  error : verdict.Explains (state.errors.get? id)

def Written (state : State) : Prop :=
  ∀ {id found}, state.effects.get? id = some found → ∃ slots, found = effect slots

structure Yields (entries : List (NodeId × Verdict)) (state after : State) : Prop where
  recorded : ∀ entry ∈ entries, Recorded after entry.1 entry.2
  effects : ∀ id ∉ entries.map Prod.fst, after.effects.get? id = state.effects.get? id
  errors : ∀ id ∉ entries.map Prod.fst, after.errors.get? id = state.errors.get? id
  written : Written after

namespace Yields

variable {entries entries' : List (NodeId × Verdict)} {state state' after last : State}

theorem nil (written : Written state) : Yields [] state state :=
  ⟨List.forall_mem_nil _, fun _ _ => rfl, fun _ _ => rfl, written⟩

theorem congr (yields : Yields entries state after)
    (same : ∀ entry, entry ∈ entries' ↔ entry ∈ entries) : Yields entries' state after := by
  have keys : ∀ id, id ∉ entries'.map Prod.fst → id ∉ entries.map Prod.fst := by
    intro id absent present
    obtain ⟨entry, member, rfl⟩ := List.mem_map.mp present
    exact absent (List.mem_map_of_mem ((same entry).mpr member))
  exact ⟨fun entry member => yields.recorded entry ((same entry).mp member),
    fun id absent => yields.effects id (keys id absent),
    fun id absent => yields.errors id (keys id absent), yields.written⟩

theorem since (yields : Yields entries state after)
    (effects : ∀ id, state.effects.get? id = state'.effects.get? id)
    (errors : ∀ id, state.errors.get? id = state'.errors.get? id) : Yields entries state' after :=
  ⟨yields.recorded, fun id absent => (yields.effects id absent).trans (effects id),
    fun id absent => (yields.errors id absent).trans (errors id), yields.written⟩

theorem append (first : Yields entries state after) (second : Yields entries' after last)
    (apart : ∀ id ∈ entries.map Prod.fst, id ∉ entries'.map Prod.fst) :
    Yields (entries ++ entries') state last := by
  refine ⟨fun entry member => ?_, fun id absent => ?_, fun id absent => ?_, second.written⟩
  · rcases List.mem_append.mp member with early | late
    · obtain ⟨found, failed⟩ := first.recorded entry early
      have later := apart entry.1 (List.mem_map_of_mem early)
      rw [← second.effects entry.1 later] at found
      rw [← second.errors entry.1 later] at failed
      exact ⟨found, failed⟩
    · exact second.recorded entry late
  · rw [List.map_append, List.mem_append, not_or] at absent
    rw [second.effects id absent.2, first.effects id absent.1]
  · rw [List.map_append, List.mem_append, not_or] at absent
    rw [second.errors id absent.2, first.errors id absent.1]

end Yields

section Steps

variable {state : State} {id : NodeId} (written : Written state)

include written

theorem yields_record (clean : state.errors.get? id = none) (slots : Slots) :
    Yields [(id, .does slots)] state (state.record id (effect slots)) := by
  refine ⟨fun entry member => ?_, fun other absent => ?_, fun _ _ => rfl, fun {other found} here => ?_⟩
  · cases List.mem_singleton.mp member
    exact ⟨get?_record_self state id _, clean⟩
  · have different : id ≠ other := fun same => absent (by simp [same])
    rw [get?_record, if_neg different]
  · rw [get?_record] at here
    split at here
    · cases here
      exact ⟨slots, rfl⟩
    · exact written here

theorem yields_recordError (missing : state.effects.get? id = none)
    (clean : state.errors.get? id = none) {error : InferenceError} {verdict : Verdict}
    (failed : verdict.slots? = none) (explains : verdict.Explains (some error)) :
    Yields [(id, verdict)] state (state.recordError id error) := by
  have first : state.recordError id error =
      { state with errors := state.errors.insert id error } := by
    rw [State.recordError, SortedMap.contains, clean]
    rfl
  rw [first]
  refine ⟨fun entry member => ?_, fun _ _ => rfl, fun other absent => ?_, written⟩
  · cases List.mem_singleton.mp member
    refine ⟨?_, ?_⟩
    · rw [failed]
      exact missing
    · rw [SortedMap.get?_insert, if_pos rfl]
      exact explains
  · have different : id ≠ other := fun same => absent (by simp [same])
    rw [SortedMap.get?_insert, if_neg different]

theorem yields_skipped (missing : state.effects.get? id = none)
    (clean : state.errors.get? id = none) : Yields [(id, .skipped)] state state := by
  refine ⟨fun entry member => ?_, fun _ _ => rfl, fun _ _ => rfl, written⟩
  cases List.mem_singleton.mp member
  exact ⟨missing, clean⟩

theorem yields_copyEffect (unseen : Unseen [id] state) {source : NodeId} {verdict : Verdict}
    (here : state.effects.get? source = verdict.slots?.map effect) :
    Yields [(id, verdict.inherited)] state (state.copyEffect id source) := by
  have clean := unseen.errors id List.mem_cons_self
  have missing := unseen.effects id List.mem_cons_self
  rw [State.copyEffect, here]
  cases verdict with
  | does slots => exact yields_record written clean slots
  | _ => exact yields_skipped written missing clean

variable {context : Context} (plain : Plain context.signatures) (unseen : Unseen [id] state)

include plain unseen

theorem yields_applySignature {operator : String} {components : List Component} {inputs : List Slots}
    (listed : context.signatures.get? operator = some (.propagate components))
    (each : ∀ input ∈ inputs, ∃ arg, state.effects.get? arg = some (effect input))
    {expr : Expr} (here : expr.id = id) :
    Yields [(id, if Fits components inputs then .does (passOn components inputs)
        else .misapplied expr)] state
      (state.applySignature expr (inputs.map effect)
        (Signature.instantiate (.propagate components) inputs.length)) := by
  subst here
  have found : context.signatures.signature? operator inputs.length =
      some (Signature.instantiate (.propagate components) inputs.length) := by
    rw [SignatureTable.signature?, listed]
    rfl
  have looked : state.signature? context operator inputs.length none = .ok (some _) :=
    congrArg Except.ok found
  obtain ⟨opened, copied, leaves, spelled⟩ := leaves_copied unseen plain looked
    (propagate_separate components inputs.length)
  have given : ∀ input ∈ inputs.map effect, ∃ arg, opened.effects.get? arg = some input := by
    rw [copied.effects]
    intro input member
    obtain ⟨slots, present, rfl⟩ := List.mem_map.mp member
    exact each slots present
  have closed : ∀ input ∈ inputs.map effect, input.Closed ∧ input.Canonical := by
    intro input member
    obtain ⟨slots, _, rfl⟩ := List.mem_map.mp member
    exact ⟨slots.closed_effect, slots.canonical_effect⟩
  have marked := marked_of_elsewhere [expr.id]
  obtain ⟨_, outcome⟩ := leaves.unseen.tidy.applySignature marked copied spelled given expr
  have clean : opened.errors.get? expr.id = none :=
    leaves.unseen.errors expr.id List.mem_cons_self
  have missing : opened.effects.get? expr.id = none :=
    leaves.unseen.effects expr.id List.mem_cons_self
  have kept : Written opened := by
    rw [Written, copied.effects]
    exact written
  generalize state.applySignature expr (inputs.map effect)
    (Signature.instantiate (.propagate components) inputs.length) = after at outcome ⊢
  cases outcome with
  | @failed cause clash =>
    have unfit : ¬ Fits components inputs := by
      intro fits
      obtain ⟨σ, unified⟩ := exists_unifier marked leaves.unseen.tidy
        (Signature.propagate_determined components inputs.length) spelled given
        (fun input member => (closed input member).1) fits.isInstance
      cases unified.symm.trans clash
    rw [if_neg unfit]
    have kept_result : Written (withResult opened) := kept
    have step : Yields [(expr.id, .misapplied expr)] (withResult opened)
        ((withResult opened).recordError expr.id (.application expr cause)) :=
      yields_recordError kept_result missing clean rfl ⟨cause, rfl⟩
    exact step.since (fun other => congrArg (SortedMap.get? · other) copied.effects)
      fun other => congrArg (SortedMap.get? · other) copied.errors
  | @solved learned result last unified uses _ =>
    obtain ⟨_, _, inputs', changed, instanced⟩ := instance_of_solved marked leaves.unseen.tidy spelled
      given copied unified uses
    obtain rfl := Effect.eq_of_apply_closed closed changed
    obtain ⟨fits, rfl⟩ := Slots.propagate_instance_iff.mp instanced
    -- What is learned has no place in the effects that are already recorded.
    have stays : ∀ other, last.effects.get? other = opened.effects.get? other := by
      intro other
      have rewritten := SortedMap.get?_mapValues uses.effects other
      cases before : opened.effects.get? other with
      | none => exact rewritten.2 before
      | some found =>
        obtain ⟨slots, rfl⟩ := kept before
        obtain ⟨after, applied, recorded⟩ := rewritten.1 _ before
        rw [slots.closed_effect.apply_self slots.canonical_effect learned] at applied
        rw [recorded, Except.ok.inj applied]
    rw [if_pos fits]
    have kept_last : Written last :=
      fun {other found} recorded => kept ((stays other).symm.trans recorded)
    refine (yields_record kept_last (uses.errors ▸ clean) (passOn components inputs)).since
      (fun other => ?_) fun other => ?_
    · rw [stays, copied.effects]
    · rw [uses.errors]
      exact congrArg (SortedMap.get? · other) copied.errors

end Steps

def moduleContext (signatures : SignatureTable) (m : Module) : Context :=
  ⟨signatures, .ofDeclarations signatures.keys m.declarations, m.scopeTree⟩

theorem get?_own_table (signatures : SignatureTable) (m : Module) :
    (m.nameTables signatures.keys).get? m.name = some (moduleContext signatures m).table := by
  rw [Module.get?_nameTables, Module.owner?_self]
  rfl

theorem head_of_unscoped {declaration : Declaration} {definition : NameDefinition}
    (member : definition ∈ declaration.definitions) (unscoped : definition.scope = none) :
    declaration.definitions.head? = some definition ∧
      declaration.name? = some definition.identifier := by
  have hidden : ∀ expr : Expr, definition ∉ expr.localDefinitions := by
    intro expr inside
    rw [Expr.localDefinitions_eq] at inside
    obtain ⟨node, _, bound⟩ := List.mem_flatMap.mp inside
    cases unscoped.symm.trans (Expr.scope_of_mem_binders bound)
  cases declaration with
  | stateVariable id name =>
    cases List.mem_singleton.mp member
    exact ⟨rfl, rfl⟩
  | constant id name =>
    cases List.mem_singleton.mp member
    exact ⟨rfl, rfl⟩
  | operator operator =>
    rcases List.mem_cons.mp member with rfl | inside
    · exact ⟨rfl, rfl⟩
    · exact absurd inside (hidden _)
  | assumption id name expr => exact absurd member (hidden expr)
  | submodule id name declarations => cases member

section Names

variable {signatures : SignatureTable} {m : Module}

theorem means_builtin {operator : String} (builtin : signatures.contains operator = true) :
    MeansBuiltin ((moduleContext signatures m).table.meaning [] operator) := by
  simp only [moduleContext, NameTable.ofDeclarations, NameTable.meaning, List.find?_nil,
    Option.none_or, List.find?_append, NameTable.find?_builtin, SortedMap.mem_keys, builtin, if_true,
    Option.some_or]
  exact ⟨rfl, rfl⟩

theorem meaning_declared (ground : m.Ground signatures) {declaration : Declaration}
    (present : declaration ∈ m.declarations) {definition : NameDefinition}
    (declares : definition ∈ declaration.definitions) (unscoped : definition.scope = none) :
    (moduleContext signatures m).table.meaning [] definition.identifier = some definition := by
  obtain ⟨head, named⟩ := head_of_unscoped declares unscoped
  have apart := ground.apart definition.identifier (List.mem_filterMap.mpr ⟨_, present, named⟩)
  simp only [moduleContext, NameTable.ofDeclarations, NameTable.meaning, List.find?_nil,
    Option.none_or, List.find?_append, NameTable.find?_builtin, SortedMap.mem_keys, apart,
    Bool.false_eq_true, if_false]
  cases found : (m.declarations.flatMap Declaration.definitions).find? (fun other =>
      other.identifier = definition.identifier && other.scope = none) with
  | none =>
    have all := List.find?_eq_none.mp found definition
      (List.mem_flatMap.mpr ⟨declaration, present, declares⟩)
    simp [unscoped] at all
  | some other =>
    have both := List.find?_some found
    simp only [Bool.and_eq_true, decide_eq_true_eq] at both
    obtain ⟨declaration', present', declares'⟩ :=
      List.mem_flatMap.mp (List.mem_of_find?_eq_some found)
    obtain ⟨head', named'⟩ := head_of_unscoped declares' both.2
    rw [both.1] at named'
    cases ground.eq_of_name? present present' named named'
    exact head'.symm.trans head

end Names

/-- References do what is known: state variables and constants what they always do, and operators
what is recorded for them. -/
structure Knows (m : Module) (known : Meanings) (state : State) : Prop where
  declared : ∀ declaration ∈ m.declarations, ∀ {name slots}, declaration.name? = some name →
    declaration.initial? = some slots → known name = some slots
  operators : ∀ definition, .operator definition ∈ m.declarations →
    state.effects.get? definition.id = (known definition.name).map effect

theorem plain_context {signatures : SignatureTable} (propagates : signatures.Propagates) (m : Module) :
    Plain (moduleContext signatures m).signatures := by
  intro operator arity effect found
  obtain ⟨signature, listed, rfl⟩ := Option.map_eq_some_iff.mp found
  obtain ⟨components, rfl⟩ := propagates operator signature listed
  exact Signature.propagate_plain components arity

section Runs

variable {signatures : SignatureTable} {m : Module} {known : Meanings} {state after : State}

theorem mem_all_declared {declaration : Declaration} (present : declaration ∈ m.declarations) :
    declaration ∈ m.toDeclaration.all :=
  Module.mem_all_of_mem_declarations (Module.mem_modules.mpr m.toDeclaration.mem_all_self) present

theorem Knows.later (knows : Knows m known state) {entries : List (NodeId × Verdict)}
    (yields : Yields entries state after)
    (outside : ∀ declaration ∈ m.declarations, declaration.id ∉ entries.map Prod.fst) :
    Knows m known after := by
  refine ⟨knows.declared, fun definition present => ?_⟩
  exact (yields.effects _ (outside _ present)).trans (knows.operators definition present)

variable (propagates : signatures.Propagates) (ground : m.Ground signatures)

include propagates ground

theorem yields_ref (knows : Knows m known state) (written : Written state) {id : NodeId}
    (unseen : Unseen [id] state) {name : String} (declared : name ∈ m.declaredNames)
    (resolved : (moduleContext signatures m).resolve name id =
      .ok ((moduleContext signatures m).table.meaning [] name))
    (run : state.inferRef (moduleContext signatures m) id name = .ok after) :
    Yields [(id, (Expr.ref id name).verdict signatures known)] state after := by
  have clean := unseen.errors id List.mem_cons_self
  have missing := unseen.effects id List.mem_cons_self
  obtain ⟨declaration, present, named⟩ := List.mem_filterMap.mp declared
  rw [Expr.verdict]
  cases declaration with
  | stateVariable site other =>
    cases named
    rw [meaning_declared ground present List.mem_cons_self rfl] at resolved
    rw [inferRef_of_stateVariable resolved rfl] at run
    cases run
    rw [knows.declared _ present rfl rfl]
    exact yields_record written clean (.reads name)
  | constant site other =>
    cases named
    rw [meaning_declared ground present List.mem_cons_self rfl] at resolved
    rw [inferRef_of_constant resolved rfl] at run
    cases run
    rw [knows.declared _ present rfl rfl]
    exact yields_record written clean .nothing
  | operator definition =>
    cases named
    rw [meaning_declared ground present List.mem_cons_self rfl] at resolved
    rw [inferRef_of_operator resolved rfl] at run
    have here : state.signature? (moduleContext signatures m) definition.name referenceArity
        (some ⟨.operator, definition.name, some definition.id, none⟩) =
          .ok (state.effects.get? definition.id) := signature?_operator rfl rfl ..
    rw [knows.operators definition present] at here
    cases value : known definition.name with
    | none =>
      rw [value, Option.map_none] at here
      cases inferOperatorRef_step run with
      | unresolved => exact yields_recordError written missing clean rfl rfl
      | copied looked => cases here.symm.trans looked
      | clashed looked => cases here.symm.trans looked
    | some slots =>
      rw [value, Option.map_some] at here
      obtain ⟨opened, copied, leaves, _⟩ := leaves_copied unseen (plain_context propagates m) here
        slots.closed_effect.separate
      have same := copied.run
      rw [slots.closed_effect.rename_self slots.canonical_effect] at same
      rw [inferOperatorRef_of_copy here same] at run
      cases run
      have kept : Written opened := by
        rw [Written, copied.effects]
        exact written
      refine (yields_record kept (leaves.unseen.errors id List.mem_cons_self) slots).since
        (fun other => ?_) fun other => ?_
      · rw [copied.effects]
      · rw [copied.errors]
  | assumption site other expr => cases named
  | submodule site other declarations => cases named

omit propagates ground in
theorem mapM_effects {args : List Expr} (each : ∀ arg ∈ args, state.effects.get? arg.id =
      (arg.verdict signatures known).slots?.map effect) :
    (args.mapM fun arg => state.effects.get? arg.id) =
      (Expr.slotsOf? signatures known args).map (List.map effect) := by
  induction args with
  | nil => rfl
  | cons arg rest ih =>
    have others := ih fun other member => each other (List.mem_cons_of_mem _ member)
    rw [List.mapM_cons, others, each arg List.mem_cons_self, Expr.slotsOf?]
    cases (arg.verdict signatures known).slots? with
    | none => rfl
    | some slots => cases Expr.slotsOf? signatures known rest <;> rfl

omit ground in
theorem yields_app (written : Written state) {id : NodeId} (unseen : Unseen [id] state)
    {operator : String} {args : List Expr} (builtin : signatures.contains operator = true)
    (recorded : ∀ arg ∈ args, state.effects.get? arg.id =
      (arg.verdict signatures known).slots?.map effect)
    (resolved : (moduleContext signatures m).resolve operator id =
      .ok ((moduleContext signatures m).table.meaning [] operator))
    (run : state.inferApplication (moduleContext signatures m) id operator args = .ok after) :
    Yields [(id, (Expr.app id operator args).verdict signatures known)] state after := by
  have clean := unseen.errors id List.mem_cons_self
  have missing := unseen.effects id List.mem_cons_self
  rw [State.inferApplication, mapM_effects recorded] at run
  rw [Expr.verdict]
  cases found : Expr.slotsOf? signatures known args with
  | none =>
    rw [found] at run
    cases run
    exact yields_skipped written missing clean
  | some inputs =>
    rw [found] at run
    simp only [Option.map_some, resolved, State.orHalt, bind_eq_ok, mapError_eq_ok] at run
    obtain ⟨_, same, general?, looked, run⟩ := run
    cases same
    obtain ⟨signature, found_signature⟩ := Option.isSome_iff_exists.mp builtin
    obtain ⟨components, rfl⟩ := propagates operator signature found_signature
    have listed : (moduleContext signatures m).signatures.get? operator =
        some (.propagate components) := found_signature
    rw [Expr.slotsOf?_eq] at found
    have parts := mapM_eq_some.mp found
    have passed : signatures.passes operator = components := by
      rw [SignatureTable.passes, found_signature]
    have general : (moduleContext signatures m).signatures.signature? operator args.length =
        some (Signature.instantiate (.propagate components) inputs.length) := by
      rw [parts.length_eq]
      exact congrArg (Option.map _) listed
    rw [signature?_builtin (means_builtin builtin), general] at looked
    cases looked
    cases run
    have each : ∀ input ∈ inputs, ∃ arg, state.effects.get? arg = some (effect input) := by
      intro input member
      obtain ⟨arg, present, slots⟩ := forall₂_mem_right parts member
      exact ⟨arg.id, by rw [recorded arg present, slots, Option.map_some]⟩
    rw [passed]
    exact yields_applySignature written (plain_context propagates m) unseen listed each rfl

omit ground in
theorem yields_inferExprs {args : List Expr}
    (each : ∀ arg ∈ args, ∀ {state after}, Knows m known state → Written state →
      Unseen arg.ids state → inferExpr (moduleContext signatures m) state arg = .ok after →
      Yields (arg.verdicts signatures known) state after)
    (outside : ∀ declaration ∈ m.declarations, declaration.id ∉ args.flatMap Expr.ids)
    (nodup : (args.flatMap Expr.ids).Nodup) (knows : Knows m known state) (written : Written state)
    (unseen : Unseen (args.flatMap Expr.ids) state)
    (run : inferExprs (moduleContext signatures m) state args = .ok after) :
    Yields (args.flatMap (Expr.verdicts signatures known)) state after := by
  induction args generalizing state with
  | nil =>
    cases run
    exact .nil written
  | cons arg rest ih =>
    simp only [inferExprs, bind_eq_ok] at run
    obtain ⟨middle, now, later⟩ := run
    simp only [List.flatMap_cons, List.mem_append, not_or] at nodup unseen outside ⊢
    obtain ⟨_, nodup_rest, disjoint⟩ := List.nodup_append'.mp nodup
    have first := each arg List.mem_cons_self knows written
      (unseen.mono (List.subset_append_left _ _)) now
    have unseen_rest := (inferExpr_leaves (plain_context propagates m)
      (unseen.mono (List.subset_append_right _ _)) (fun _ inside => disjoint inside) now).unseen
    have second := ih (fun other member => each other (List.mem_cons_of_mem _ member))
      (fun declaration present => (outside declaration present).2) nodup_rest
      (knows.later first fun declaration present inside =>
        (outside declaration present).1 (arg.verdicts_ids_subset inside))
      first.written unseen_rest later
    exact first.append second fun id inside inside' =>
      disjoint (arg.verdicts_ids_subset inside) (Expr.verdicts_args_subset rest inside')

theorem yields_inferExpr {expr : Expr} (grounded : expr.Ground signatures m.declaredNames)
    (scopes : (moduleContext signatures m).table.Scoped m.scopeTree [] expr)
    (outside : ∀ declaration ∈ m.declarations, declaration.id ∉ expr.ids) (nodup : expr.ids.Nodup)
    (knows : Knows m known state) (written : Written state) (unseen : Unseen expr.ids state)
    (run : inferExpr (moduleContext signatures m) state expr = .ok after) :
    Yields (expr.verdicts signatures known) state after := by
  have resolves : ∀ {name id}, (moduleContext signatures m).table.resolve m.scopeTree name id =
      .ok ((moduleContext signatures m).table.meaning [] name) →
      (moduleContext signatures m).resolve name id =
        .ok ((moduleContext signatures m).table.meaning [] name) := by
    intro name id resolved
    exact congrArg (Except.mapError Fault.endlessScope) resolved
  induction expr generalizing state after with
  | literal id value =>
    cases run
    exact yields_record written (unseen.errors id List.mem_cons_self) .nothing
  | ref id name =>
    cases grounded with
    | ref _ declared =>
      cases scopes with
      | ref resolved =>
        exact yields_ref propagates ground knows written unseen declared (resolves resolved) run
  | app id operator args ih =>
    cases grounded with
    | app _ builtin grounded =>
      cases scopes with
      | app resolved scopes =>
        simp only [inferExpr, bind_eq_ok] at run
        obtain ⟨middle, parts, whole⟩ := run
        rw [Expr.ids_app] at outside nodup unseen
        obtain ⟨own, nodup_args⟩ := List.nodup_cons.mp nodup
        have inner := yields_inferExprs propagates
          (fun arg member _ _ knows written unseen run => ih arg member (grounded arg member)
            (scopes arg member)
            (fun declaration present inside => outside declaration present (List.mem_cons_of_mem _
              (List.mem_flatMap.mpr ⟨arg, member, inside⟩)))
            ((List.nodup_flatMap.mp nodup_args).1 arg member) knows written unseen run)
          (fun declaration present inside =>
            outside declaration present (List.mem_cons_of_mem _ inside)) nodup_args knows written
          (unseen.mono (List.subset_cons_self _ _)) parts
        have unseen_own : Unseen [id] middle := (inferExprs_leaves (plain_context propagates m)
          (unseen.mono (List.cons_subset_cons id (List.nil_subset _)))
          (fun other inside same => own (List.mem_singleton.mp same ▸ inside)) parts).unseen
        have last := yields_app propagates inner.written unseen_own builtin
          (fun arg member => (inner.recorded _ (List.mem_flatMap.mpr
            ⟨arg, member, arg.mem_verdicts_self⟩)).effect) (resolves resolved) whole
        refine (inner.append last fun other inside same => own ?_).congr fun entry => ?_
        · obtain rfl : other = id := List.mem_singleton.mp same
          exact Expr.verdicts_args_subset args inside
        · rw [Expr.mem_verdicts_app, List.mem_append, List.mem_singleton, or_comm]
  | lambda id params body ih => cases grounded
  | letIn id defId name bound body ih ih' => cases grounded

variable (distinct : m.ids.Nodup)

include distinct

omit propagates in
theorem Knows.learn (knows : Knows m known state) {declaration : Declaration}
    (present : declaration ∈ m.declarations)
    (yields : Yields (declaration.verdicts signatures known) state after) :
    Knows m (declaration.learn signatures known) after := by
  have kept : ∀ other, .operator other ∈ m.declarations → .operator other ≠ declaration →
      after.effects.get? other.id = (known other.name).map effect := by
    intro other present' different
    refine (yields.effects _ fun inside => different ?_).trans (knows.operators other present')
    exact Declaration.eq_of_mem_ownIds distinct (mem_all_declared present') (mem_all_declared present)
      List.mem_cons_self (declaration.verdicts_ids_subset signatures known inside)
  cases declaration with
  | operator definition =>
    have others : ∀ other ∈ m.declarations, ∀ {name}, other.name? = some name →
        other ≠ .operator definition →
        (Declaration.operator definition).learn signatures known name = known name := by
      intro other present' name named different
      refine Function.update_of_ne (fun same => different ?_) _ _
      exact ground.eq_of_name? present' present named (congrArg some same.symm)
    refine ⟨fun other present' name slots named always => ?_, fun other present' => ?_⟩
    · rw [others other present' named fun same => by cases same; cases always]
      exact knows.declared other present' named always
    · by_cases same : other = definition
      · subst same
        have own := (yields.recorded _ List.mem_cons_self).effect
        rw [Verdict.slots?_inherited] at own
        rw [Declaration.learn, Function.update_self]
        exact own
      · have different : Declaration.operator other ≠ .operator definition :=
          fun equal => same (Declaration.operator.inj equal)
        rw [others _ present' rfl different]
        exact kept other present' different
  | stateVariable id name =>
    exact ⟨knows.declared, fun other present' => kept other present' fun same => by cases same⟩
  | constant id name =>
    exact ⟨knows.declared, fun other present' => kept other present' fun same => by cases same⟩
  | assumption id name expr =>
    exact ⟨knows.declared, fun other present' => kept other present' fun same => by cases same⟩
  | submodule id name declarations => exact (ground.each _ present).elim

theorem yields_inferDeclaration {env : Environment} {declaration : Declaration}
    (present : declaration ∈ m.declarations) (knows : Knows m known state) (written : Written state)
    (unseen : Unseen declaration.ids state)
    (run : inferDeclaration env (moduleContext signatures m) state declaration = .ok after) :
    Yields (declaration.verdicts signatures known) state after := by
  have itself : m ∈ m.modules := Module.mem_modules.mpr m.toDeclaration.mem_all_self
  have all := mem_all_declared present
  have outside : ∀ {expr}, declaration.expr? = some expr → ∀ other ∈ m.declarations,
      other.id ∉ expr.ids := fun holds other present' inside =>
    Declaration.not_mem_headIds distinct all holds inside
      (Declaration.id_mem_headIds (mem_all_declared present'))
  have grounded := ground.each declaration present
  have scopes : ∀ {expr}, declaration.expr? = some expr →
      (moduleContext signatures m).table.Scoped m.scopeTree [] expr := fun holds =>
    Module.scoped_declaration distinct (get?_own_table signatures m) itself present holds
  have nodup := (List.nodup_flatMap.mp distinct).1 declaration all
  cases declaration with
  | stateVariable id name =>
    cases run
    exact .nil written
  | constant id name =>
    cases run
    exact .nil written
  | operator definition =>
    simp only [inferDeclaration, bind_eq_ok, pure_eq_ok] at run
    obtain ⟨middle, inner, rfl⟩ := run
    rw [Declaration.ids_operator] at unseen
    obtain ⟨own, nodup_body⟩ : definition.id ∉ definition.body.ids ∧ definition.body.ids.Nodup :=
      List.nodup_cons.mp nodup
    have first := yields_inferExpr propagates ground grounded (scopes rfl) (outside rfl) nodup_body
      knows written (unseen.mono (List.subset_cons_self _ _)) inner
    have unseen_own : Unseen [definition.id] middle := (inferExpr_leaves (plain_context propagates m)
      (unseen.mono (List.cons_subset_cons _ (List.nil_subset _)))
      (fun other inside same => own (List.mem_singleton.mp same ▸ inside)) inner).unseen
    have copy := yields_copyEffect first.written unseen_own
      (first.recorded _ definition.body.mem_verdicts_self).effect
    refine (first.append copy fun other inside same => own ?_).congr fun entry => ?_
    · obtain rfl : other = definition.id := List.mem_singleton.mp same
      exact definition.body.verdicts_ids_subset inside
    · rw [Declaration.verdicts, List.mem_cons, List.mem_append, List.mem_singleton, or_comm]
  | assumption id name expr =>
    rw [Declaration.ids_assumption] at unseen
    exact yields_inferExpr propagates ground grounded (scopes rfl) (outside rfl)
      (List.nodup_cons.mp nodup).2 knows written (unseen.mono (List.subset_cons_self _ _)) run
  | submodule id name declarations => exact grounded.elim

theorem yields_inferDeclarations {env : Environment} (same : env.signatures = signatures)
    {declarations : List Declaration} (part : declarations ⊆ m.declarations)
    (nodup : (declarations.flatMap Declaration.ids).Nodup) (knows : Knows m known state)
    (written : Written state) (unseen : Unseen (declarations.flatMap Declaration.ids) state)
    (run : inferDeclarations env (moduleContext signatures m) state declarations = .ok after) :
    Yields (Declaration.verdictsOf signatures known declarations) state after := by
  induction declarations generalizing state known with
  | nil =>
    cases run
    exact .nil written
  | cons declaration rest ih =>
    simp only [inferDeclarations, bind_eq_ok] at run
    obtain ⟨middle, now, later⟩ := run
    obtain ⟨present, part⟩ := List.cons_subset.mp part
    rw [List.flatMap_cons] at nodup unseen
    obtain ⟨_, nodup_rest, disjoint⟩ := List.nodup_append'.mp nodup
    have first := yields_inferDeclaration propagates ground distinct present knows written
      (unseen.mono (List.subset_append_left _ _)) now
    have plain : Plain env.signatures := by
      rw [same]
      exact plain_context propagates m
    have unseen_rest := (inferDeclaration_leaves plain same.symm
      (unseen.mono (List.subset_append_right _ _)) (fun _ inside => disjoint inside) now).unseen
    have second := ih part nodup_rest (knows.learn ground distinct present first) first.written
      unseen_rest later
    refine first.append second fun id inside inside' => ?_
    exact disjoint
      (Declaration.ownIds_subset declaration.mem_all_self
        (declaration.verdicts_ids_subset signatures known inside))
      (Declaration.verdictsOf_ids_subset signatures _ rest inside')

omit propagates distinct in
theorem knows_initially : Knows m m.initially .start := by
  refine ⟨fun declaration present name slots named always => ?_, fun definition present => ?_⟩
  · rw [ground.initially_eq present named]
    exact always
  · rw [ground.initially_eq present rfl]
    rfl

end Runs

/-- Of a ground module whose builtins pass on components, inference finds what direct recursion says:
the effect of every expression and definition, and an error where the recursion fails first. -/
theorem inference_is_direct_recursion {signatures : SignatureTable}
    (propagates : signatures.Propagates) {m : Module} (ground : m.Ground signatures)
    (distinct : m.ids.Nodup) :
    ∃ state, m.infer signatures = .ok state ∧ m.analyze signatures = .ok state.analysis ∧
      (∀ entry ∈ m.verdicts signatures, Recorded state entry.1 entry.2) ∧
      ∀ id, id ∉ (m.verdicts signatures).map Prod.fst →
        state.effects.get? id = none ∧ state.errors.get? id = none := by
  obtain ⟨state, run⟩ : ∃ state, m.infer signatures = .ok state := inferModule_total distinct .start
  have analyzed : m.analyze signatures = .ok state.analysis := by
    rw [Module.analyze, run]
    rfl
  have walk : inferDeclarations (m.environment signatures) (moduleContext signatures m) .start
      m.declarations = .ok state := by
    simp only [Module.infer, inferModule, Environment.context, bind_eq_ok] at run
    obtain ⟨context, entered, run⟩ := run
    have found : (m.environment signatures).tables.get? m.name = _ := get?_own_table signatures m
    rw [found] at entered
    cases entered
    exact run
  have nodup := distinct
  rw [Module.ids, Module.toDeclaration, Declaration.ids_submodule] at nodup
  have yields := yields_inferDeclarations propagates ground distinct rfl (List.Subset.refl _)
    (List.nodup_cons.mp nodup).2 (knows_initially ground) (fun found => by cases found)
    (unseen_start _) walk
  refine ⟨state, run, analyzed, yields.recorded, fun id absent => ?_⟩
  exact ⟨yields.effects id absent, yields.errors id absent⟩

/-- An argument that does too much, a reference to an operator without an effect, and a state variable
that is declared after its use. -/
theorem recursion_with_failures :
    let signatures : SignatureTable :=
      .ofList [("plus", .propagate [.read, .temporal]), ("assign", .propagate [.update, .update])]
    let m : Module := ⟨⟨1⟩, "M",
      [.stateVariable ⟨2⟩ "x", .constant ⟨3⟩ "N",
        .operator ⟨⟨4⟩, "f", .app ⟨5⟩ "plus" [.ref ⟨6⟩ "x", .ref ⟨7⟩ "N"]⟩,
        .operator ⟨⟨8⟩, "g", .app ⟨9⟩ "assign" [.ref ⟨10⟩ "f"]⟩,
        .operator ⟨⟨11⟩, "h", .app ⟨12⟩ "plus" [.ref ⟨13⟩ "g", .literal ⟨14⟩ (.bool true)]⟩,
        .assumption ⟨15⟩ "a" (.app ⟨16⟩ "plus" [.ref ⟨17⟩ "f", .ref ⟨18⟩ "y"]),
        .stateVariable ⟨19⟩ "y"]⟩
    signatures.Propagates ∧ m.Ground signatures ∧ m.ids.Nodup ∧
      ∃ state, m.infer signatures = .ok state ∧ m.analyze signatures = .ok state.analysis ∧
        (∀ entry ∈ m.verdicts signatures, Recorded state entry.1 entry.2) ∧
        (∀ id, id ∉ (m.verdicts signatures).map Prod.fst →
          state.effects.get? id = none ∧ state.errors.get? id = none) ∧
        state.errors.keys = [⟨9⟩, ⟨13⟩] ∧
        state.effects.get? ⟨16⟩ =
          some (.concrete ⟨.concrete (.ofList ["x", "y"]), .empty, .empty⟩) := by
  intro signatures m
  have propagates : signatures.Propagates := by
    intro operator signature found
    have member := SortedMap.mem_of_get?_ofList found
    simp only [List.mem_cons, Prod.mk.injEq, List.not_mem_nil, or_false] at member
    rcases member with ⟨_, rfl⟩ | ⟨_, rfl⟩
    · exact ⟨_, rfl⟩
    · exact ⟨_, rfl⟩
  have distinct : m.ids.Nodup := by decide
  have ground : m.Ground signatures := by
    have pair : ∀ {one two : Expr}, one.Ground signatures m.declaredNames →
        two.Ground signatures m.declaredNames →
        ∀ arg ∈ [one, two], arg.Ground signatures m.declaredNames := by
      intro one two first second arg member
      rcases List.mem_pair.mp member with rfl | rfl
      · exact first
      · exact second
    refine ⟨by decide, by decide, ?_⟩
    simp only [m, List.forall_mem_cons]
    refine ⟨trivial, trivial, ?_, ?_, ?_, ?_, trivial, List.forall_mem_nil _⟩
    · exact .app _ (by decide) (pair (.ref _ (by decide)) (.ref _ (by decide)))
    · exact .app _ (by decide) (List.forall_mem_singleton.mpr (.ref _ (by decide)))
    · exact .app _ (by decide) (pair (.ref _ (by decide)) (.literal _ _))
    · exact .app _ (by decide) (pair (.ref _ (by decide)) (.ref _ (by decide)))
  obtain ⟨state, run, analyzed, recorded, others⟩ :=
    inference_is_direct_recursion propagates ground distinct
  obtain ⟨found, same, seen⟩ := exists_ok
    (fun state : State => (state.errors.keys, state.effects.get? ⟨16⟩))
    (show (m.infer signatures).toOption.map _ = some ([⟨9⟩, ⟨13⟩],
      some (.concrete ⟨.concrete (.ofList ["x", "y"]), .empty, .empty⟩)) by decide)
  cases run.symm.trans same
  obtain ⟨failed, known⟩ := Prod.mk.inj seen
  exact ⟨propagates, ground, distinct, state, run, analyzed, recorded, others, failed, known⟩

end SpecEffects.Inference
