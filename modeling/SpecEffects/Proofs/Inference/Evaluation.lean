import SpecEffects.Proofs.Inference.Outcome
import SpecEffects.Proofs.Inference.Similar
import SpecEffects.Proofs.StandardSignatures

/-!
First-order expressions are built from literals, from names of parameters, state variables and
constants, and from applications of builtins. What such an expression does is determined by what its
names do: each application is an instance of the effect of a builtin. Putting values for quantified
names does not change this, and so a lambda with a first-order body has an effect from which one can
read what its body does, for any arguments.
-/
namespace SpecEffects

theorem NameTable.meaning_params (table : NameTable) (lambda : NodeId) (params : List Param)
    (body : Expr) (name : String) :
    table.meaning ((Expr.lambda lambda params body).binders ++ []) name =
      match params.find? (fun param => param.name = name) with
      | some param => some ⟨.parameter, param.name, some param.id, some lambda⟩
      | none => table.meaning [] name := by
  rw [List.append_nil, meaning, Expr.binders, List.find?_map]
  cases found : params.find? (fun param => param.name = name) with
  | none =>
    have none : params.find? ((fun definition : NameDefinition => decide (definition.identifier = name)) ∘
        fun param => ⟨.parameter, param.name, some param.id, some lambda⟩) = none := found
    rw [none]
    rfl
  | some param =>
    have some : params.find? ((fun definition : NameDefinition => decide (definition.identifier = name)) ∘
        fun param => ⟨.parameter, param.name, some param.id, some lambda⟩) = some param := found
    rw [some]
    rfl

namespace Inference

open Substitution

def AllDetermined (signatures : SignatureTable) : Prop :=
  ∀ {operator arity effect}, signatures.signature? operator arity = some effect → effect.IsDetermined

/-- What an expression does, given what names do. -/
inductive Evaluates (signatures : SignatureTable) (values : String → Option Effect) :
    Expr → Effect → Prop
  | literal (id : NodeId) (value : Literal) : Evaluates signatures values (.literal id value) .empty
  | ref {id : NodeId} {name : String} {effect : Effect} (known : values name = some effect) :
    Evaluates signatures values (.ref id name) effect
  | app {id : NodeId} {operator : String} {args : List Expr} {inputs : List Effect}
    {signature result : Effect} (arity : args.length = inputs.length)
    (each : ∀ arg input, (arg, input) ∈ args.zip inputs → Evaluates signatures values arg input)
    (found : signatures.signature? operator args.length = some signature)
    (instanced : IsInstance signature (.arrow inputs result)) :
    Evaluates signatures values (.app id operator args) result

namespace Evaluates

variable {signatures : SignatureTable} {values values' : String → Option Effect} {expr : Expr}
  {effect : Effect}

theorem uses (determined : AllDetermined signatures)
    (evaluates : Evaluates signatures values expr effect) {kind : Kind} {name : String}
    (used : effect.Uses kind name) :
    ∃ other value, values other = some value ∧ value.Uses kind name := by
  induction evaluates generalizing kind name with
  | literal id value => exact (over_empty_effect (fun _ _ => False) kind name used).elim
  | ref known => exact ⟨_, _, known, used⟩
  | @app id operator args inputs signature result arity each found instanced ih =>
    obtain ⟨θ, _, _, run⟩ := instanced
    cases signature with
    | arrow params output =>
      obtain ⟨input, member, standing⟩ := (determined found).uses_result run used
      obtain ⟨arg, _, both⟩ := forall₂_mem_right
        (List.forall₂_iff_zip.mpr ⟨arity, fun {arg input} member => ih arg input member⟩) member
      exact both standing
    | concrete footprint => exact (determined found).elim
    | quantified other => exact (determined found).elim

theorem closed (determined : AllDetermined signatures)
    (evaluates : Evaluates signatures values expr effect)
    (each : ∀ name value, values name = some value → value.Closed) : effect.Closed := by
  intro kind name used
  obtain ⟨other, value, known, standing⟩ := evaluates.uses determined used
  exact each other value known kind name standing

theorem apply (determined : AllDetermined signatures) {σ : Substitution} (canonical : σ.Canonical)
    (bounded : σ.Over possible)
    (images : ∀ {name value}, values name = some value →
      ∃ after, σ.apply value = .ok after ∧ values' name = some after)
    (evaluates : Evaluates signatures values expr effect) :
    ∃ after, σ.apply effect = .ok after ∧ Evaluates signatures values' expr after := by
  induction evaluates with
  | literal id value =>
    refine ⟨.empty, ?_, .literal id value⟩
    exact apply_self canonical_empty fun kind name used =>
      (over_empty_effect (fun _ _ => False) kind name used).elim
  | ref known =>
    obtain ⟨after, run, known'⟩ := images known
    exact ⟨after, run, .ref known'⟩
  | @app id operator args inputs signature result arity each found instanced ih =>
    have evaluates : Evaluates signatures values (.app id operator args) result :=
      .app arity each found instanced
    have parts : List.Forall₂ (fun arg input => ∃ after, Evaluates signatures values' arg after ∧
        σ.apply input = .ok after) args inputs := by
      refine List.forall₂_iff_zip.mpr ⟨arity, fun {arg input} member => ?_⟩
      obtain ⟨after, run, further⟩ := ih arg input member
      exact ⟨after, further, run⟩
    obtain ⟨inputs', further, changed⟩ := forall₂_exists_middle.mp parts
    obtain ⟨result', run⟩ := exists_apply.mpr fun kind name used => by
      obtain ⟨other, value, known, standing⟩ := evaluates.uses determined used
      obtain ⟨after, run, _⟩ := images known
      exact exists_apply.mp ⟨after, run⟩ kind name standing
    obtain ⟨arity', each'⟩ := List.forall₂_iff_zip.mp further
    exact ⟨result', run, .app arity' (fun arg input => each') found
      (instanced.apply canonical bounded
        (apply_arrow.mpr ⟨inputs', result', changed.flip, run, rfl⟩))⟩

end Evaluates

/-- Built from literals, names that are not operators, and applications of builtins. -/
inductive FirstOrder (context : Context) : Expr → Prop
  | literal (id : NodeId) (value : Literal) : FirstOrder context (.literal id value)
  | ref {id : NodeId} {name : String} {definition : NameDefinition}
    (resolved : context.resolve name id = .ok (some definition))
    (value : definition.kind ≠ .operator) : FirstOrder context (.ref id name)
  | app {id : NodeId} {operator : String} {args : List Expr} {definition? : Option NameDefinition}
    (resolved : context.resolve operator id = .ok definition?) (means : MeansBuiltin definition?)
    (each : ∀ arg ∈ args, FirstOrder context arg) : FirstOrder context (.app id operator args)

def given? {α : Type} (params : List Param) (items : List α) (name : String) : Option α :=
  ((params.zip items).find? fun pair => pair.1.name = name).map Prod.snd

def plainValue? (context : Context) (name : String) : Option Effect :=
  match context.table.meaning [] name with
  | some definition =>
    match definition.kind with
    | .constant => some .empty
    | .stateVariable => some (.reads name)
    | _ => none
  | none => none

def valueIn (context : Context) (params : List Param) (inputs : List Effect) (name : String) :
    Option Effect :=
  (given? params inputs name).or (plainValue? context name)

section Values

variable {context : Context} {params : List Param} {inputs inputs' : List Effect} {name : String}
  {value : Effect}

theorem plainValue?_spec (known : plainValue? context name = some value) :
    value.Closed ∧ value.Canonical := by
  unfold plainValue? at known
  split at known
  · split at known
    · cases known
      exact ⟨over_empty_effect _, canonical_empty⟩
    · cases known
      exact ⟨over_reads _ name, canonical_reads name⟩
    · cases known
  · cases known

theorem given?_mem {α : Type} {items : List α} {item : α} (known : given? params items name = some item) :
    item ∈ items := by
  obtain ⟨pair, found, rfl⟩ := Option.map_eq_some_iff.mp known
  exact (List.of_mem_zip (List.mem_of_find?_eq_some found)).2

theorem given?_forall₂ {α β : Type} {R : α → β → Prop} {as : List α} {bs : List β}
    (related : List.Forall₂ R as bs) (params : List Param) (name : String) :
    given? params as name = none ∧ given? params bs name = none ∨
      ∃ a b, given? params as name = some a ∧ given? params bs name = some b ∧ R a b := by
  induction related generalizing params with
  | nil => simp [given?]
  | cons head _ ih =>
    cases params with
    | nil => simp [given?]
    | cons param params =>
      by_cases same : param.name = name
      · exact Or.inr ⟨_, _, by simp [given?, same], by simp [given?, same], head⟩
      · simpa [given?, same] using ih params

theorem given?_params {α : Type} {R : Param → α → Prop} {items : List α}
    (related : List.Forall₂ R params items) (name : String) :
    params.find? (fun param => param.name = name) = none ∧ given? params items name = none ∨
      ∃ param item, params.find? (fun param => param.name = name) = some param ∧
        given? params items name = some item ∧ R param item := by
  induction related with
  | nil => simp [given?]
  | @cons param item _ _ head _ ih =>
    by_cases same : param.name = name
    · exact Or.inr ⟨param, item, by simp [same], by simp [given?, same], head⟩
    · simpa [given?, same] using ih

theorem valueIn_apply {σ : Substitution}
    (changed : List.Forall₂ (fun input after => σ.apply input = .ok after) inputs inputs')
    (known : valueIn context params inputs name = some value) :
    ∃ after, σ.apply value = .ok after ∧ valueIn context params inputs' name = some after := by
  unfold valueIn at known ⊢
  rcases given?_forall₂ changed params name with ⟨none, none'⟩ | ⟨input, after, some, some', run⟩
  · rw [none, Option.none_or] at known
    obtain ⟨closed, canonical⟩ := plainValue?_spec known
    exact ⟨value, closed.apply_self canonical σ, by rw [none', Option.none_or, known]⟩
  · rw [some, Option.some_or] at known
    cases known
    exact ⟨after, run, by rw [some', Option.some_or]⟩

end Values

theorem Copied.running_eq {state opened : State} {general : Effect}
    (copied : Copied state general opened)
    (unmarked : ∀ other, general.Uses .effect other → isPlaceholder other = false)
    (values : state.running.Canonical) : opened.running = state.running := by
  have nothing : learnedNames general state.fresh = ∅ := by
    refine congrArg Substitution.mk (List.eq_nil_iff_forall_not_mem.mpr fun binding member => ?_)
    obtain ⟨used, marked, _⟩ := mem_learnedNames member
    cases marked.symm.trans (unmarked _ used)
  have run := copied.running
  rw [nothing, compose_empty_left values] at run
  exact (Except.ok.inj run).symm

section Applications

variable {places : String → Prop} (marked : ∀ name, places name → isPlaceholder name = true)
  {state opened : State} (tidy : Tidy places opened) {general : Effect}
  (within : (general.rename (freshName general state.fresh)).Over (made .empty opened.fresh places))
  {inputs : List Effect} (each : ∀ input ∈ inputs, ∃ id, opened.effects.get? id = some input)

include marked tidy within each

theorem separate_usedAs : (Vocabulary.usedIn [general.rename (freshName general state.fresh),
    usedAs opened inputs]).Separate := by
  have part : ∀ kind name, Vocabulary.usedIn [general.rename (freshName general state.fresh),
      usedAs opened inputs] kind name → made .empty (withResult opened).fresh places kind name := by
    rintro kind name ⟨effect, member, used⟩
    rcases List.mem_pair.mp member with rfl | rfl
    · exact made_mono (FreshNames.le_refl _) (opened.fresh.le_next _) (fun _ => id)
        (within kind name used)
    · exact (tidy.usedAs each).2 kind name used
  exact fun name first second =>
    made_separate marked _ _ name (part _ _ first) (part _ _ second)

/-- Where an application succeeds, its arguments and its result are an instance of the operator. -/
theorem instance_of_solved (copied : Copied state general opened) {learned : Substitution}
    {effect : Effect} {last : State}
    (unified : (general.rename (freshName general state.fresh)).unify (usedAs opened inputs) =
      .ok learned)
    (uses : Solved (withResult opened) learned (.quantified (resultName opened)) effect last) :
    learned.Canonical ∧ learned.Over possible ∧
      ∃ inputs', List.Forall₂ (fun input after => learned.apply input = .ok after) inputs inputs' ∧
        IsInstance general (.arrow inputs' effect) := by
  obtain ⟨canonical, spelled⟩ := tidy.usedAs each
  have spelled_copy : (general.rename (freshName general state.fresh)).Over
      (made .empty (withResult opened).fresh places) := fun kind name used =>
    made_mono (FreshNames.le_refl _) (opened.fresh.le_next _) (fun _ => id) (within kind name used)
  obtain ⟨values, equal⟩ := Effect.unify_canonical (Effect.canonical_rename _ _) canonical unified
  have solution := Effect.unify_over spelled_copy spelled unified
  have bounded := over_mono (fun _ _ => possible_of_made marked) solution
  have applies : ∀ {effect : Effect}, effect.Over (made .empty (withResult opened).fresh places) →
      ∃ after, learned.apply effect = .ok after := fun spelled =>
    exists_apply.mpr fun kind name used =>
      allows_of_over solution (made_separate marked .empty _) (spelled kind name used)
  obtain ⟨_, left⟩ := applies spelled_copy
  obtain ⟨_, right⟩ := applies spelled
  obtain rfl := Term.effect.inj (equal _ _ (applyToTerm_effect.mpr ⟨_, left, rfl⟩)
    (applyToTerm_effect.mpr ⟨_, right, rfl⟩))
  obtain ⟨inputs', result, changed, out, rfl⟩ := apply_arrow.mp right
  cases out.symm.trans uses.result
  obtain ⟨ρ, renames, _, run⟩ := (instantiated copied.run).copy _ rfl
  exact ⟨values, bounded, inputs', changed, (renames.isInstance run).apply values bounded left⟩

end Applications

/-- The parameters have these effects, which is what has been learned about their placeholders, and
finished expressions do what they do given these effects. -/
structure Tracks (context : Context) (lambda : NodeId) (params : List Param) (done : Expr → Prop)
    (inputs : List Effect) (state : State) : Prop where
  recorded : List.Forall₂ (fun param input => state.effects.get? param.id = some input) params inputs
  learned : List.Forall₂ (fun param input =>
    state.running.apply (.quantified (placeholder param.name lambda)) = .ok input) params inputs
  sound : ∀ expr effect, done expr → state.effects.get? expr.id = some effect →
    Evaluates context.signatures (valueIn context params inputs) expr effect

namespace Tracks

variable {context : Context} {lambda : NodeId} {params : List Param} {done : Expr → Prop}
  {inputs : List Effect} {state after : State}
  (tracks : Tracks context lambda params done inputs state)

include tracks

theorem congr (effects : after.effects = state.effects) (running : after.running = state.running) :
    Tracks context lambda params done inputs after := by
  obtain ⟨recorded, learned, sound⟩ := tracks
  rw [← effects] at recorded sound
  rw [← running] at learned
  exact ⟨recorded, learned, sound⟩

theorem mono {fewer : Expr → Prop} (part : ∀ expr, fewer expr → done expr) :
    Tracks context lambda params fewer inputs state :=
  ⟨tracks.recorded, tracks.learned, fun expr effect before => tracks.sound expr effect (part expr before)⟩

theorem fail (expr : Expr) (missing : state.effects.get? expr.id = none) :
    Tracks context lambda params (fun other => other = expr ∨ done other) inputs state := by
  refine ⟨tracks.recorded, tracks.learned, ?_⟩
  rintro other effect (rfl | before) found
  · cases missing.symm.trans found
  · exact tracks.sound other effect before found

theorem record (expr : Expr) (outside : ∀ param ∈ params, param.id ≠ expr.id)
    (apart : ∀ other, done other → other.id ≠ expr.id) {effect : Effect}
    (evaluates : Evaluates context.signatures (valueIn context params inputs) expr effect) :
    Tracks context lambda params (fun other => other = expr ∨ done other) inputs
      (state.record expr.id effect) := by
  refine ⟨?_, tracks.learned, ?_⟩
  · refine (forall₂_congr_mem fun param member input => ?_).mpr tracks.recorded
    rw [get?_record, if_neg (outside param member).symm]
  · rintro other found (rfl | before) recorded
    · rw [get?_record_self] at recorded
      cases recorded
      exact evaluates
    · rw [get?_record, if_neg (apart other before).symm] at recorded
      exact tracks.sound other found before recorded

theorem solve (determined : AllDetermined context.signatures) {learned : Substitution}
    {result effect : Effect} (values : state.running.Canonical) (canonical : learned.Canonical)
    (bounded : learned.Over possible) (uses : Solved state learned result effect after) :
    ∃ inputs', Tracks context lambda params done inputs' after ∧
      List.Forall₂ (fun input after => learned.apply input = .ok after) inputs inputs' := by
  have rewritten := SortedMap.get?_mapValues uses.effects
  have parts : List.Forall₂ (fun param input => ∃ input', after.effects.get? param.id = some input' ∧
      learned.apply input = .ok input') params inputs := by
    refine tracks.recorded.imp fun param input found => ?_
    obtain ⟨input', run, found'⟩ := (rewritten param.id).1 input found
    exact ⟨input', found', run⟩
  obtain ⟨inputs', recorded, changed⟩ := forall₂_exists_middle.mp parts
  have changed := changed.flip
  refine ⟨inputs', ⟨recorded, ?_, fun expr effect' before found' => ?_⟩, changed⟩
  · refine (forall₂_exists_middle.mpr ⟨inputs, tracks.learned, changed⟩).imp fun param input' both => ?_
    exact (apply_compose canonical values uses.running).mpr both
  · cases found : state.effects.get? expr.id with
    | none => cases ((rewritten expr.id).2 found).symm.trans found'
    | some effect =>
      obtain ⟨result, run, recorded'⟩ := (rewritten expr.id).1 effect found
      cases recorded'.symm.trans found'
      obtain ⟨result', run', evaluates⟩ := (tracks.sound expr effect before found).apply determined
        canonical bounded (valueIn_apply changed)
      cases run.symm.trans run'
      exact evaluates

end Tracks

section Run

variable {context : Context} {lambda : NodeId} {params : List Param} {expr : Expr}

def Tracked (context : Context) (lambda : NodeId) (params : List Param) (expr : Expr) : Prop :=
  ∀ ⦃done inputs rest state after⦄, Tracks context lambda params done inputs state →
    (∀ other, done other → other.id ∉ expr.ids) → Unseen (expr.ids ++ rest) state →
    (expr.ids ++ rest).Nodup → inferExpr context state expr = .ok after →
    ∃ inputs', Tracks context lambda params (fun other => other = expr ∨ done other) inputs' after

section Steps

variable {done : Expr → Prop} {inputs : List Effect} {state after : State} {id : NodeId}
  (tracks : Tracks context lambda params done inputs state)

include tracks

theorem inferRef_value {name : String} {whole : Expr} {definition : NameDefinition}
    (unscoped : ∀ {definition}, context.table.meaning [] name = some definition →
      definition.kind ≠ .parameter)
    (placed : Placed Expr.binders context ((Expr.lambda lambda params whole).binders ++ []) (.ref id name))
    (resolved : context.resolve name id = .ok (some definition))
    (value : definition.kind ≠ .operator) (run : state.inferRef context id name = .ok after) :
    ∃ effect, valueIn context params inputs name = some effect ∧ after = state.record id effect := by
  have means := Except.ok.inj (placed.resolve_ref.symm.trans resolved)
  rw [NameTable.meaning_params] at means
  rcases given?_params tracks.recorded name with ⟨absent, none⟩ | ⟨param, input, found, some, recorded⟩
  · rw [absent] at means
    dsimp only at means
    have unbound : valueIn context params inputs name = plainValue? context name := by
      rw [valueIn, none, Option.none_or]
    rw [unbound, plainValue?, means]
    cases kind : definition.kind with
    | parameter => exact absurd kind (unscoped means)
    | operator => exact absurd kind value
    | constant =>
      rw [inferRef_of_constant resolved kind] at run
      cases run
      exact ⟨.empty, by simp only [kind], rfl⟩
    | stateVariable =>
      rw [inferRef_of_stateVariable resolved kind] at run
      cases run
      exact ⟨.reads name, by simp only [kind], rfl⟩
  · rw [found] at means
    cases means
    obtain ⟨effect, looked, rfl⟩ := (inferRef_of_parameter resolved rfl).mp run
    obtain ⟨site, reference, recorded'⟩ := parameterEffect_eq_ok looked
    cases reference
    cases recorded.symm.trans recorded'
    exact ⟨input, by rw [valueIn, some, Option.some_or], rfl⟩

theorem tracks_application {operator : String} {args : List Expr}
    {definition? : Option NameDefinition} (plain : Plain context.signatures)
    (determined : AllDetermined context.signatures) (unseen : Unseen [] state)
    (resolved : context.resolve operator id = .ok definition?) (means : MeansBuiltin definition?)
    (outside : ∀ param ∈ params, param.id ≠ id) (apart : ∀ other, done other → other.id ≠ id)
    (finished : ∀ arg ∈ args, done arg) (missing : state.effects.get? id = none)
    (run : state.inferApplication context id operator args = .ok after) :
    ∃ inputs', Tracks context lambda params (fun other => other = .app id operator args ∨ done other)
      inputs' after := by
  unfold State.inferApplication at run
  split at run
  · cases run
    exact ⟨inputs, tracks.fail (.app id operator args) missing⟩
  · rename_i effects found
    have each := mapM_eq_some.mp found
    have looked := signature?_builtin means state context operator args.length
    simp only [resolved, looked, State.orHalt, Except.mapError, bind, Except.bind, pure, Except.pure]
      at run
    cases listed : context.signatures.signature? operator args.length with
    | none =>
      rw [listed] at run
      cases run
      exact ⟨inputs, (tracks.fail (.app id operator args) missing).congr (effects_recordError _ _ _)
        (running_recordError _ _ _)⟩
    | some general =>
      rw [listed] at run looked
      cases run
      have given : ∀ input ∈ effects, ∃ id, state.effects.get? id = some input := by
        intro input member
        obtain ⟨arg, _, recorded⟩ := forall₂_mem_right each member
        exact ⟨arg.id, recorded⟩
      obtain ⟨opened, copied, leaves, spelled⟩ := leaves_copied unseen plain looked
        (determined listed).separate
      have begun : Tracks context lambda params done inputs (withResult opened) :=
        (tracks.congr copied.effects (copied.running_eq (plain listed).2 unseen.tidy.values)).congr
          rfl rfl
      have given' : ∀ input ∈ effects, ∃ id, opened.effects.get? id = some input := by
        rw [copied.effects]
        exact given
      obtain ⟨_, outcome⟩ := leaves.unseen.tidy.applySignature (marked_of_elsewhere []) copied spelled
        given' (.app id operator args)
      generalize state.applySignature (.app id operator args) effects general = after at outcome
      cases outcome with
      | failed clash =>
        have missing' : (withResult opened).effects.get? id = none := by
          show opened.effects.get? id = none
          rw [copied.effects]
          exact missing
        exact ⟨inputs, (begun.fail (.app id operator args) missing').congr (effects_recordError _ _ _)
          (running_recordError _ _ _)⟩
      | @solved learned effect last unified uses _ =>
        obtain ⟨canonical, bounded, results, changed, instanced⟩ := instance_of_solved
          (marked_of_elsewhere []) leaves.unseen.tidy spelled given' copied unified uses
        obtain ⟨inputs', further, _⟩ := begun.solve determined leaves.unseen.tidy.values canonical
          bounded uses
        have after_args : List.Forall₂ (fun arg result => last.effects.get? arg.id = some result) args
            results := by
          refine (forall₂_exists_middle.mpr ⟨effects, each, changed⟩).imp fun arg result both => ?_
          obtain ⟨input, recorded, run⟩ := both
          have recorded' : (withResult opened).effects.get? arg.id = some input := by
            show opened.effects.get? arg.id = some input
            rw [copied.effects]
            exact recorded
          obtain ⟨result', run', found'⟩ := (SortedMap.get?_mapValues uses.effects arg.id).1 input
            recorded'
          cases run.symm.trans run'
          exact found'
        obtain ⟨arity, all⟩ := List.forall₂_iff_zip.mp after_args
        refine ⟨inputs', further.record (.app id operator args) outside apart
          (.app arity (fun arg result member => ?_) listed instanced)⟩
        exact further.sound arg result (finished arg (List.of_mem_zip member).1) (all member)

end Steps

theorem tracked_args {args : List Expr} (plain : Plain context.signatures)
    (each : ∀ arg ∈ args, Tracked context lambda params arg) {done : Expr → Prop}
    {inputs : List Effect} {rest : List NodeId} {state after : State}
    (tracks : Tracks context lambda params done inputs state)
    (apart : ∀ other, done other → other.id ∉ args.flatMap Expr.ids)
    (unseen : Unseen (args.flatMap Expr.ids ++ rest) state)
    (nodup : (args.flatMap Expr.ids ++ rest).Nodup)
    (run : inferExprs context state args = .ok after) :
    ∃ inputs', Tracks context lambda params (fun other => other ∈ args ∨ done other) inputs' after ∧
      Unseen rest after := by
  induction args generalizing done inputs state with
  | nil =>
    cases run
    exact ⟨inputs, tracks.mono fun other before => before.resolve_left List.not_mem_nil, unseen⟩
  | cons arg args ih =>
    simp only [inferExprs, bind_eq_ok] at run
    obtain ⟨middle, first, later⟩ := run
    simp only [List.flatMap_cons, List.append_assoc, List.mem_append, not_or] at unseen nodup apart
    obtain ⟨_, nodup', disjoint⟩ := List.nodup_append'.mp nodup
    obtain ⟨inputs₁, tracks₁⟩ := each arg List.mem_cons_self tracks
      (fun other before => (apart other before).1) unseen nodup first
    have unseen₁ := (inferExpr_leaves plain (unseen.mono (List.subset_append_right _ _))
      (fun _ inside => disjoint inside) first).unseen
    obtain ⟨inputs₂, tracks₂, unseen₂⟩ := ih
      (fun other member => each other (List.mem_cons_of_mem _ member)) tracks₁ (by
        rintro other (rfl | before) inside
        · exact disjoint (Expr.id_mem_ids _) (List.mem_append_left _ inside)
        · exact (apart other before).2 inside) unseen₁ nodup' later
    refine ⟨inputs₂, tracks₂.mono fun other before => ?_, unseen₂⟩
    rcases before with member | before
    · exact (List.mem_cons.mp member).elim (fun same => Or.inr (Or.inl same)) Or.inl
    · exact Or.inr (Or.inr before)

theorem tracked_firstOrder {whole : Expr} (plain : Plain context.signatures)
    (determined : AllDetermined context.signatures)
    (unscoped : ∀ {name definition}, context.table.meaning [] name = some definition →
      definition.kind ≠ .parameter) (firstOrder : FirstOrder context expr)
    (placed : Placed Expr.binders context ((Expr.lambda lambda params whole).binders ++ []) expr)
    (outside : ∀ param ∈ params, param.id ∉ expr.ids) : Tracked context lambda params expr := by
  induction firstOrder with
  | literal id value =>
    intro done inputs rest state after tracks apart _ _ run
    cases run
    exact ⟨inputs, tracks.record (.literal id value)
      (fun param member same => outside param member (same ▸ Expr.id_mem_ids _))
      (fun other before same => apart other before (same ▸ Expr.id_mem_ids _)) (.literal id value)⟩
  | @ref id name definition resolved value =>
    intro done inputs rest state after tracks apart _ _ run
    obtain ⟨effect, known, rfl⟩ := inferRef_value tracks unscoped placed resolved value run
    exact ⟨inputs, tracks.record (.ref id name)
      (fun param member same => outside param member (same ▸ Expr.id_mem_ids _))
      (fun other before same => apart other before (same ▸ Expr.id_mem_ids _)) (.ref known)⟩
  | @app id operator args definition? resolved means each ih =>
    intro done inputs rest state after tracks apart unseen nodup run
    simp only [inferExpr, bind_eq_ok] at run
    obtain ⟨middle, inner, outer⟩ := run
    rw [Expr.ids_app] at outside apart unseen nodup
    rw [List.cons_append] at unseen nodup
    have fresh := (List.nodup_cons.mp nodup).1
    obtain ⟨inputs₁, tracks₁, unseen₁⟩ := tracked_args plain
      (fun arg member => ih arg member (placed.arg member) fun param present inside =>
        outside param present (List.mem_cons_of_mem _ (List.mem_flatMap.mpr ⟨arg, member, inside⟩)))
      tracks (fun other before inside => apart other before (List.mem_cons_of_mem _ inside))
      (unseen.mono (List.perm_middle.subset)) (List.nodup_middle.mpr nodup) inner
    obtain ⟨inputs₂, tracks₂⟩ := tracks_application tracks₁ plain determined
      (unseen₁.mono (List.nil_subset _)) resolved means
      (fun param present same => outside param present (same ▸ List.mem_cons_self))
      (by
        rintro other (member | before) same
        · refine fresh (List.mem_append_left _ (List.mem_flatMap.mpr ⟨other, member, ?_⟩))
          exact same ▸ Expr.id_mem_ids _
        · exact apart other before (same ▸ List.mem_cons_self))
      (fun arg member => Or.inl member) (unseen₁.effects id List.mem_cons_self) outer
    refine ⟨inputs₂, tracks₂.mono fun other before => ?_⟩
    rcases before with same | before
    · exact Or.inl same
    · exact Or.inr (Or.inr before)

end Run

theorem Unseen.untouched {ids : List NodeId} {state : State} (unseen : Unseen ids state) :
    Untouched ids state := fun id member => by
  simp [State.Known, State.Failed, unseen.effects id member, unseen.errors id member]

theorem inferExpr_judgement {context : Context} {expr : Expr} {state after : State}
    (unseen : Unseen expr.ids state) (nodup : expr.ids.Nodup)
    (run : inferExpr context state expr = .ok after) :
    Judgement (fun _ _ => True) state after expr :=
  inferExpr_judges context expr (fun _ _ _ => trivial) nodup unseen.untouched run

section Summary

variable {context : Context} {id : NodeId} {params : List Param} {body : Expr} {state after : State}

theorem running_openLambda (state : State) (id : NodeId) (params : List Param) :
    (state.openLambda id params).running = state.running := by
  induction params generalizing state with
  | nil => rfl
  | cons param rest ih => exact ih (state.record param.id _)

theorem get?_openLambda_of_not_mem {other : NodeId} (outside : other ∉ params.map Param.id) :
    (state.openLambda id params).effects.get? other = state.effects.get? other := by
  induction params generalizing state with
  | nil => rfl
  | cons param rest ih =>
    rw [List.map_cons, List.mem_cons, not_or] at outside
    refine (@ih (state.record param.id _) outside.2).trans ?_
    rw [get?_record, if_neg fun same => outside.1 same.symm]

theorem get?_openLambda_of_mem (nodup : (params.map Param.id).Nodup) {param : Param}
    (member : param ∈ params) : (state.openLambda id params).effects.get? param.id =
      some (.quantified (placeholder param.name id)) := by
  induction params generalizing state with
  | nil => cases member
  | cons first rest ih =>
    obtain ⟨fresh, nodup⟩ := List.nodup_cons.mp nodup
    rcases List.mem_cons.mp member with rfl | member
    · exact (@get?_openLambda_of_not_mem id rest (state.record param.id _) _ fresh).trans
        (get?_record_self state param.id _)
    · exact @ih (state.record first.id _) nodup member

theorem apply_openLambda (unseen : Unseen (Expr.lambda id params body).ids state) (param : String) :
    (state.openLambda id params).running.apply (.quantified (placeholder param id)) =
      .ok (.quantified (placeholder param id)) := by
  rw [running_openLambda, apply_quantified]
  exact valueAt_of_unbound (running_unseen unseen (Expr.id_mem_ids _) param)

theorem tracks_openLambda (unseen : Unseen (Expr.lambda id params body).ids state)
    (nodup : (params.map Param.id).Nodup) :
    Tracks context id params (fun _ => False)
      (params.map fun param => .quantified (placeholder param.name id)) (state.openLambda id params) := by
  refine ⟨?_, ?_, fun _ _ absurd => absurd.elim⟩
  · rw [List.forall₂_map_right_iff, List.forall₂_same]
    exact fun param member => get?_openLambda_of_mem nodup member
  · rw [List.forall₂_map_right_iff, List.forall₂_same]
    exact fun param _ => apply_openLambda unseen param.name

theorem enter_lambda (unseen : Unseen (Expr.lambda id params body).ids state)
    (nodup : (Expr.lambda id params body).ids.Nodup)
    (run : inferExpr context (state.openLambda id params) body = .ok after) :
    Unseen body.ids (state.openLambda id params) ∧ after.effects.get? id = none := by
  rw [Expr.ids_lambda] at unseen nodup
  obtain ⟨fresh, nodup⟩ := List.nodup_cons.mp nodup
  obtain ⟨_, nodup_body, disjoint⟩ := List.nodup_append'.mp nodup
  have entered : Unseen body.ids (state.openLambda id params) :=
    (leaves_openLambda
      (unseen.mono fun _ inside => List.mem_cons_of_mem _ (List.mem_append_right _ inside))
      (fun inside => fresh (List.mem_append_right _ inside))
      fun param member inside => disjoint (List.mem_map_of_mem member) inside).unseen
  have adds := (inferExpr_judgement entered nodup_body run).adds
  have unknown : ¬ after.Known id := by
    rw [adds.known_iff fun inside => fresh (List.mem_append_right _ inside), State.Known,
      get?_openLambda_of_not_mem fun inside => fresh (List.mem_append_left _ inside),
      unseen.effects id List.mem_cons_self]
    exact Bool.false_ne_true
  exact ⟨entered, Option.not_isSome_iff_eq_none.mp unknown⟩

theorem learnedParams_eq {running : Substitution} {inputs : List Effect}
    (learned : List.Forall₂ (fun param input =>
      running.apply (.quantified (placeholder param.name id)) = .ok input) params inputs) :
    State.learnedParams running id params = .ok inputs := by
  induction learned with
  | nil => rfl
  | cons head _ ih =>
    simp only [State.learnedParams, bind_eq_ok, pure_eq_ok]
    exact ⟨_, head, _, ih, rfl⟩

/-- What a lambda with a first-order body does: its parameters have some effects, and its body does
what it does given these. -/
theorem lambda_evaluates (plain : Plain context.signatures)
    (determined : AllDetermined context.signatures)
    (unscoped : ∀ {name definition}, context.table.meaning [] name = some definition →
      definition.kind ≠ .parameter) (firstOrder : FirstOrder context body)
    (placed : Placed Expr.binders context [] (.lambda id params body))
    (unseen : Unseen (Expr.lambda id params body).ids state)
    (nodup : (Expr.lambda id params body).ids.Nodup)
    (run : inferExpr context state (.lambda id params body) = .ok after) {effect : Effect}
    (found : after.effects.get? id = some effect) :
    ∃ inputs result, effect = .arrow inputs result ∧ inputs.length = params.length ∧
      Evaluates context.signatures (valueIn context params inputs) body result := by
  simp only [inferExpr, bind_eq_ok, pure_eq_ok] at run
  obtain ⟨middle, inner, rfl⟩ := run
  obtain ⟨entered, missing⟩ := enter_lambda unseen nodup inner
  rw [Expr.ids_lambda] at nodup
  obtain ⟨distinct, nodup_body, disjoint⟩ := List.nodup_append'.mp (List.nodup_cons.mp nodup).2
  have opened : Tracks context id params (fun _ => False) _ _ := tracks_openLambda unseen distinct
  rw [← List.append_nil body.ids] at entered nodup_body
  obtain ⟨inputs, tracks⟩ := tracked_firstOrder plain determined unscoped firstOrder
    placed.lambda_body (fun param member inside => disjoint (List.mem_map_of_mem member) inside) opened
    (fun _ absurd => absurd.elim) entered nodup_body inner
  have step := closeLambda_step middle id params body
  generalize middle.closeLambda id params body = after at step found
  cases step with
  | skipped => cases missing.symm.trans found
  | @closed _ result finished learned =>
    cases (learnedParams_eq tracks.learned).symm.trans learned
    rw [get?_record_self] at found
    cases found
    exact ⟨inputs, result, rfl, tracks.recorded.length_eq.symm,
      tracks.sound body result (Or.inl rfl) finished⟩
  | clashed _ unlearned => cases (learnedParams_eq tracks.learned).symm.trans unlearned

end Summary

theorem IsInstance.exists_over {general effect : Effect} (instanced : IsInstance general effect)
    (canonical : general.Canonical) (spelled : general.Over possible) :
    ∃ θ : Substitution, θ.Canonical ∧ θ.Over possible ∧ θ.apply general = .ok effect := by
  obtain ⟨θ, canonical', bounded, run⟩ := instanced
  have separate : (Vocabulary.usedIn [general]).Separate := by
    rintro name ⟨_, member, first⟩ ⟨_, member', second⟩
    cases List.mem_singleton.mp member
    cases List.mem_singleton.mp member'
    exact possible_separate name (spelled _ _ first) (spelled _ _ second)
  have values : ∀ {kind name}, general.Uses kind name →
      (θ.behind id general.usedNames).valueAt kind name = θ.valueAt kind name :=
    Effect.valueAt_behind_usedNames (fun _ _ _ _ _ _ same => same) separate θ
  have allowed := exists_apply.mp ⟨effect, run⟩
  have applies : ∃ effect', (θ.behind id general.usedNames).apply general = .ok effect' :=
    exists_apply.mpr fun kind name used => by
      rw [Allows, values used]
      exact allowed kind name used
  obtain ⟨effect', run'⟩ := applies
  refine ⟨θ.behind id general.usedNames, fun binding member => ?_, fun binding member => ?_,
    run'.trans (congrArg _ ?_)⟩
  · obtain ⟨⟨kind, name⟩, _, rfl⟩ := List.mem_map.mp member
    exact everySet_valueAt canonical' (fun _ => trivial) kind name
  · obtain ⟨⟨kind, name⟩, present, rfl⟩ := List.mem_map.mp member
    have used := Effect.mem_usedNames.mp present
    have kinds : (θ.valueAt kind name).kind = kind := allowed kind name used
    refine ⟨?_, over_valueAt bounded (spelled kind name used)⟩
    show possible (θ.valueAt kind name).kind name
    rw [kinds]
    exact spelled kind name used
  · exact apply_congr canonical (fun kind name used => values used) run' run

theorem Evaluates.of_instance {context : Context} {params : List Param} {body : Expr}
    {inputs inputs' : List Effect} {result result' : Effect}
    (determined : AllDetermined context.signatures)
    (evaluates : Evaluates context.signatures (valueIn context params inputs) body result)
    (canonical : (Effect.arrow inputs result).Canonical)
    (spelled : (Effect.arrow inputs result).Over possible)
    (instanced : IsInstance (.arrow inputs result) (.arrow inputs' result')) :
    Evaluates context.signatures (valueIn context params inputs') body result' := by
  obtain ⟨θ, canonical', bounded, run⟩ := instanced.exists_over canonical spelled
  obtain ⟨_, _, each, out, same⟩ := apply_arrow.mp run
  cases same
  obtain ⟨after, out', evaluates'⟩ := evaluates.apply determined canonical' bounded (valueIn_apply each)
  cases out.symm.trans out'
  exact evaluates'

end Inference

end SpecEffects
