import SpecEffects.Proofs.Inference.SignatureNames
import SpecEffects.Proofs.StandardSignatures
import SpecEffects.Proofs.Unification.Kinds

/-!
Kinds never clash during inference. Names that are made up have one kind for good, and so has every
name of a signature. Copies can then always be made, and where a signature does not fit its use the
reason is another one.
-/
namespace SpecEffects

def InferenceError.KeepsKinds : InferenceError → Prop
  | .application _ cause => cause.KeepsKinds
  | .instantiation _ _ => False
  | .unresolvedSignature _ => True

namespace SignatureTable

def Kinded (signatures : SignatureTable) : Prop :=
  ∀ {operator arity effect}, signatures.signature? operator arity = some effect →
    effect.Canonical ∧ (Vocabulary.usedIn [effect]).Separate

theorem kinded_standard : Kinded standard := by
  intro operator arity effect found
  obtain ⟨determined, canonical, _⟩ := standard_spec found
  exact ⟨canonical, determined.separate⟩

theorem kinded_of_document {text : String} {signatures : SignatureTable}
    (read : ofDocument text = .ok signatures) : signatures.Kinded := by
  intro operator arity effect found
  obtain ⟨signature, listed, rfl⟩ := Option.map_eq_some_iff.mp found
  cases signature with
  | propagate components =>
    exact ⟨(Inference.propagate_spec components arity).1,
      Inference.propagate_separate components arity⟩
  | fixed effect => exact fixed_of_document read listed

end SignatureTable

namespace Inference

open Substitution

structure Kinded (state : State) : Prop where
  tidy : Tidy (fun name => isPlaceholder name = true) state
  errors : ∀ {id error}, state.errors.get? id = some error → error.KeepsKinds

theorem kinded_start : Kinded .start := by
  refine ⟨.start _, fun {id error} found => ?_⟩
  cases found

variable {context : Context} {state after : State} {id : NodeId}

section Steps

variable (kinded : Kinded state)

include kinded

theorem kinded_record (id : NodeId) {effect : Effect} (canonical : effect.Canonical)
    (spelled : effect.Over (made .empty state.fresh fun name => isPlaceholder name = true)) :
    Kinded (state.record id effect) :=
  ⟨kinded.tidy.record id canonical spelled, kinded.errors⟩

theorem kinded_recordError (id : NodeId) {error : InferenceError} (keeps : error.KeepsKinds) :
    Kinded (state.recordError id error) := by
  refine ⟨kinded.tidy.recordError id error, fun {other found} recorded => ?_⟩
  unfold State.recordError at recorded
  split at recorded
  · exact kinded.errors recorded
  · rw [SortedMap.get?_insert] at recorded
    split at recorded
    · cases recorded
      exact keeps
    · exact kinded.errors recorded

theorem kinded_copyEffect (id source : NodeId) : Kinded (state.copyEffect id source) := by
  have step := copyEffect_step state id source
  generalize state.copyEffect id source = after at step ⊢
  cases step with
  | copied recorded =>
    exact kinded_record kinded id (kinded.tidy.canonical recorded) (kinded.tidy.spelled recorded)
  | skipped => exact kinded

theorem kinded_closeLet {body : NodeId} (run : state.closeLet id body = .ok after) :
    Kinded after := by
  cases closeLet_step run with
  | closed _ recorded =>
    exact kinded_record kinded id (kinded.tidy.canonical recorded) (kinded.tidy.spelled recorded)
  | skipped => exact kinded

omit kinded in
theorem over_placeholder (fresh : FreshNames) (param : String) (id : NodeId) :
    (Effect.quantified (placeholder param id)).Over
      (made .empty fresh fun name => isPlaceholder name = true) := by
  intro kind name used
  obtain ⟨rfl, rfl⟩ := Effect.uses_quantified.mp used
  exact Or.inr ⟨rfl, isPlaceholder_placeholder param id⟩

theorem kinded_openLambda (id : NodeId) (params : List Param) :
    Kinded (state.openLambda id params) := by
  unfold State.openLambda
  induction params generalizing state with
  | nil => exact kinded
  | cons param rest ih =>
    exact ih (kinded_record kinded param.id (.quantified _) (over_placeholder _ param.name id))

theorem exists_learnedParams (id : NodeId) (params : List Param) :
    ∃ effects, State.learnedParams state.running id params = .ok effects ∧
      ∀ effect ∈ effects, effect.Canonical ∧
        effect.Over (made .empty state.fresh fun name => isPlaceholder name = true) := by
  induction params with
  | nil => exact ⟨[], rfl, List.forall_mem_nil _⟩
  | cons param rest ih =>
    obtain ⟨others, later, each⟩ := ih
    have spelled := over_placeholder state.fresh param.name id
    obtain ⟨effect, applied⟩ := exists_apply.mpr fun kind name used =>
      allows_of_over kinded.tidy.running (made_separate (fun _ marked => marked) .empty state.fresh)
        (spelled kind name used)
    refine ⟨effect :: others, ?_, List.forall_mem_cons.mpr ⟨⟨?_, ?_⟩, each⟩⟩
    · simp only [State.learnedParams, applied, later]
      rfl
    · exact everySet_apply kinded.tidy.values
        (fun _ => canonical_applyToVariables kinded.tidy.values) (.quantified _) applied
    · exact over_apply kinded.tidy.running.values spelled applied

theorem kinded_closeLambda (id : NodeId) (params : List Param) (body : Expr) :
    Kinded (state.closeLambda id params body) := by
  obtain ⟨inputs, learned, each⟩ := exists_learnedParams kinded id params
  have step := closeLambda_step state id params body
  generalize state.closeLambda id params body = after at step ⊢
  cases step with
  | skipped => exact kinded
  | closed recorded learned' =>
    cases learned.symm.trans learned'
    refine kinded_record kinded id
      (.arrow (fun input member => (each input member).1) (kinded.tidy.canonical recorded)) ?_
    intro kind name used
    rcases Effect.uses_arrow.mp used with ⟨input, member, used⟩ | used
    · exact (each input member).2 kind name used
    · exact kinded.tidy.spelled recorded kind name used
  | clashed _ unlearned => cases learned.symm.trans unlearned

variable (table : context.signatures.Kinded)

include table

theorem signature?_kinded {name : String} {arity : Nat} {definition? : Option NameDefinition}
    {general : Effect}
    (run : state.signature? context name arity definition? = .ok (some general)) :
    general.Canonical ∧ (Vocabulary.usedIn [general]).Separate := by
  rcases signature?_cases run with ⟨_, found⟩ | ⟨_, components, _, _, rfl⟩ |
    ⟨_, site, _, _, recorded⟩
  · exact table found
  · exact ⟨(propagate_spec components arity).1, propagate_separate components arity⟩
  · exact ⟨kinded.tidy.canonical recorded, kinded.tidy.separate (fun _ marked => marked) recorded⟩

theorem kinded_copied {name : String} {arity : Nat} {definition? : Option NameDefinition}
    {general : Effect}
    (looked : state.signature? context name arity definition? = .ok (some general)) :
    ∃ opened, Copied state general opened ∧ Kinded opened ∧
      (general.rename (freshName general state.fresh)).Over
        (made .empty opened.fresh fun name => isPlaceholder name = true) := by
  obtain ⟨canonical, separate⟩ := signature?_kinded kinded table looked
  obtain ⟨opened, copied, _, tidy, spelled⟩ := kinded.tidy.instantiate (fun _ marked => marked)
    canonical separate fun _ _ marked => marked
  refine ⟨opened, copied, ⟨tidy, ?_⟩, spelled⟩
  rw [copied.errors]
  exact kinded.errors

theorem kinded_inferOperatorRef {name : String} {definition? : Option NameDefinition}
    (run : state.inferOperatorRef context id name definition? = .ok after) : Kinded after := by
  cases inferOperatorRef_step run with
  | unresolved => exact kinded_recordError kinded id trivial
  | copied looked instantiation =>
    obtain ⟨opened, copied, moved, spelled⟩ := kinded_copied kinded table looked
    cases copied.run.symm.trans instantiation
    exact kinded_record moved id (Effect.canonical_rename _ _) spelled
  | clashed looked instantiation =>
    obtain ⟨opened, copied, _⟩ := kinded_copied kinded table looked
    cases copied.run.symm.trans instantiation

theorem kinded_inferRef {name : String} (run : state.inferRef context id name = .ok after) :
    Kinded after := by
  cases inferRef_step run with
  | parameter _ _ _ recorded =>
    exact kinded_record kinded id (kinded.tidy.canonical recorded) (kinded.tidy.spelled recorded)
  | constant => exact kinded_record kinded id canonical_empty (over_empty_effect _)
  | stateVariable => exact kinded_record kinded id (canonical_reads _) (over_reads _ _)
  | operator _ _ run => exact kinded_inferOperatorRef kinded table run

theorem kinded_applySignature {operator : String} {inputs : List Effect} {arity : Nat}
    {definition? : Option NameDefinition} {general : Effect}
    (each : ∀ input ∈ inputs, ∃ id, state.effects.get? id = some input)
    (looked : state.signature? context operator arity definition? = .ok (some general))
    (expr : Expr) : Kinded (state.applySignature expr inputs general) := by
  obtain ⟨opened, copied, moved, spelled⟩ := kinded_copied kinded table looked
  have recorded : ∀ input ∈ inputs, ∃ id, opened.effects.get? id = some input := by
    rw [copied.effects]
    exact each
  obtain ⟨tidy, outcome⟩ :=
    moved.tidy.applySignature (fun _ marked => marked) copied spelled recorded expr
  generalize state.applySignature expr inputs general = after at tidy outcome ⊢
  cases outcome with
  | failed clash =>
    have named : Kinded (withResult opened) := ⟨moved.tidy.withResult, moved.errors⟩
    have within := (moved.tidy.usedAs recorded).2
    refine kinded_recordError named expr.id (Effect.unify_keepsKinds
      (made_separate (fun _ marked => marked) .empty _) (fun kind name used => ?_) within clash)
    exact made_mono (FreshNames.le_refl _) (opened.fresh.le_next _) (fun _ => id)
      (spelled kind name used)
  | solved unified uses _ =>
    refine ⟨tidy, fun {other error} found => ?_⟩
    exact moved.errors (uses.errors ▸ found)

theorem kinded_inferApplication {operator : String} {args : List Expr}
    (run : state.inferApplication context id operator args = .ok after) : Kinded after := by
  cases inferApplication_step run with
  | skipped => exact kinded
  | unresolved => exact kinded_recordError kinded id trivial
  | applied known _ looked =>
    refine kinded_applySignature kinded table (fun input member => ?_) looked _
    obtain ⟨arg, _, recorded⟩ := forall₂_mem_right known member
    exact ⟨arg.id, recorded⟩

end Steps

theorem kinded_inferExpr (table : context.signatures.Kinded) {expr : Expr} (kinded : Kinded state)
    (run : inferExpr context state expr = .ok after) : Kinded after := by
  refine inferExpr_preserves (fun node _ => ?_) kinded run
  cases node with
  | literal id value =>
    intro _ kinded
    exact kinded_record kinded id canonical_empty (over_empty_effect _)
  | ref id name =>
    intro _ _ kinded run
    exact kinded_inferRef kinded table run
  | app id operator args =>
    intro _ _ kinded run
    exact kinded_inferApplication kinded table run
  | lambda id params body =>
    exact ⟨fun kinded => kinded_openLambda kinded id params,
      fun kinded => kinded_closeLambda kinded id params body⟩
  | letIn id defId name bound body =>
    exact ⟨fun kinded => kinded_copyEffect kinded defId bound.id,
      fun kinded run => kinded_closeLet kinded run⟩

theorem kinded_inferModule (env : Environment) (table : env.signatures.Kinded) {m : Module}
    (run : inferModule env .start m = .ok after) : Kinded after := by
  obtain ⟨context, entered, run⟩ := bind_eq_ok.mp run
  refine inferDeclarations_preserve (fun declaration _ _ _ kinded run => ?_) kinded_start run
  exact inferDeclaration_preserves signatures_of_context
    (fun _ _ expr _ _ _ _ same kinded run => kinded_inferExpr (same ▸ table) kinded run)
    (fun definition _ _ kinded => kinded_copyEffect kinded _ _)
    (fun _ _ => signatures_of_context entered) kinded run

/-- Whether the builtins are those of the language or come from a document, and whichever names are
listed as builtins: copies of effects can always be made, and no application fails because a name
stands for an effect here and for a set of variables there. An analysis lists the names of the
table. -/
theorem kinds_never_clash {signatures : SignatureTable}
    (given : signatures = .standard ∨ ∃ text, SignatureTable.ofDocument text = .ok signatures)
    {m : Module} (distinct : m.ids.Nodup) (names : List String) :
    ∃ state, inferModule ⟨signatures, m.nameTables names⟩ .start m = .ok state ∧
      (names = signatures.keys → m.analyze signatures = .ok state.analysis) ∧
      ∀ id error, state.errors.get? id = some error →
        (∀ expr cause, error ≠ .instantiation expr cause) ∧
        ∀ expr cause, error = .application expr cause →
          ∀ clash, cause.rootCause ≠ .kindMismatch clash := by
  have table : signatures.Kinded := by
    rcases given with rfl | ⟨text, read⟩
    · exact SignatureTable.kinded_standard
    · exact SignatureTable.kinded_of_document read
  obtain ⟨state, run⟩ : ∃ state, inferModule ⟨signatures, m.nameTables names⟩ .start m = .ok state :=
    inferModule_total distinct .start
  refine ⟨state, run, ?_, fun id error recorded => ?_⟩
  · rintro rfl
    exact bind_eq_ok.mpr ⟨state, run, rfl⟩
  · have keeps := (kinded_inferModule ⟨signatures, m.nameTables names⟩ table run).errors recorded
    constructor
    · rintro expr cause rfl
      exact keeps
    · rintro expr cause rfl
      exact keeps

/-- A signature uses the name of a placeholder, one of its uses does not fit, and a name is unknown. -/
theorem kinds_with_misused_signature :
    let document := "\x7b\"b\": \x7b\"effect\": \"(Read[v], e_p_7) => e_p_7\"\x7d\x7d"
    let signatures : SignatureTable := .ofList
      [("b", .fixed (.arrow [.concrete ⟨.quantified "v", .empty, .empty⟩, .quantified "e_p_7"]
        (.quantified "e_p_7")))]
    let m : Module := ⟨⟨1⟩, "M",
      [.stateVariable ⟨2⟩ "x",
        .operator ⟨⟨3⟩, "f", .lambda ⟨7⟩ [⟨⟨4⟩, "p"⟩] (.app ⟨5⟩ "b" [.ref ⟨6⟩ "p", .ref ⟨8⟩ "x"])⟩,
        .operator ⟨⟨9⟩, "g", .app ⟨10⟩ "b" [.ref ⟨11⟩ "f", .ref ⟨12⟩ "x"]⟩,
        .assumption ⟨13⟩ "a" (.ref ⟨14⟩ "y")]⟩
    SignatureTable.ofDocument document = .ok signatures ∧ m.ids.Nodup ∧
      ∃ state, inferModule ⟨signatures, m.nameTables ["b"]⟩ .start m = .ok state ∧
        m.analyze signatures = .ok state.analysis ∧
        state.errors.keys = [⟨10⟩, ⟨14⟩] ∧
        ∀ id error, state.errors.get? id = some error →
          (∀ expr cause, error ≠ .instantiation expr cause) ∧
          ∀ expr cause, error = .application expr cause →
            ∀ clash, cause.rootCause ≠ .kindMismatch clash := by
  intro document signatures m
  have read : SignatureTable.ofDocument document = .ok signatures := by
    obtain ⟨table, run, entries⟩ := exists_ok SortedMap.entries (show
      (SignatureTable.ofDocument document).toOption.map SortedMap.entries = some signatures.entries by
        decide +kernel)
    rw [run, SortedMap.eq_of_entries entries]
  have distinct : m.ids.Nodup := by decide
  obtain ⟨state, run, analyzed, kinds⟩ :=
    kinds_never_clash (.inr ⟨document, read⟩) distinct ["b"]
  obtain ⟨found, same, failed⟩ := exists_ok (fun state : State => state.errors.keys)
    (show (inferModule ⟨signatures, m.nameTables ["b"]⟩ .start m).toOption.map _ =
      some [⟨10⟩, ⟨14⟩] by decide)
  cases run.symm.trans same
  exact ⟨read, distinct, state, run, analyzed rfl, failed, kinds⟩

end Inference

end SpecEffects
