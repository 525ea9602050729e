import SpecEffects.Proofs.Inference.Arrival

/-!
A first-order body in which the parameters have been replaced by copies of arguments. Where the
effects of the arguments use no quantified names, every application of a builtin in the unfolded body
succeeds, and what it gives is determined. So inference finds the effect that the body has, given the
effects of the arguments.
-/
namespace SpecEffects

namespace Inference

open Substitution

/-- Each parameter has become a copy of what is given for it, and other names stay. -/
inductive Unfolds (params : List Param) (args : List Expr) : Expr → Expr → Prop
  | literal (id id' : NodeId) (value : Literal) :
    Unfolds params args (.literal id value) (.literal id' value)
  | given {id : NodeId} {name : String} {arg copy : Expr} (found : given? params args name = some arg)
    (same : arg.Copy copy) : Unfolds params args (.ref id name) copy
  | ref {id id' : NodeId} {name : String} (absent : given? params args name = none) :
    Unfolds params args (.ref id name) (.ref id' name)
  | app {id id' : NodeId} {operator : String} {parts parts' : List Expr}
    (length : parts.length = parts'.length)
    (each : ∀ part part', (part, part') ∈ parts.zip parts' → Unfolds params args part part') :
    Unfolds params args (.app id operator parts) (.app id' operator parts')

section Builtin

variable {context : Context} {ids : List NodeId} {state : State} {inputs : List Effect}
  {general result : Effect}

theorem exists_unifier {places : String → Prop}
    (marked : ∀ name, places name → isPlaceholder name = true) {opened : State}
    (tidy : Tidy places opened) (determined : general.IsDetermined)
    (within : (general.rename (freshName general state.fresh)).Over (made .empty opened.fresh places))
    (each : ∀ input ∈ inputs, ∃ id, opened.effects.get? id = some input)
    (closed : ∀ input ∈ inputs, input.Closed)
    (instanced : IsInstance general (.arrow inputs result)) :
    ∃ σ, (general.rename (freshName general state.fresh)).unify (usedAs opened inputs) = .ok σ := by
  obtain ⟨θ, _, _, run⟩ := instanced
  have separate := determined.separate
  have apart := separate_usedAs marked tidy within each
  cases general with
  | concrete footprint => exact determined.elim
  | quantified name => exact determined.elim
  | arrow params output =>
    have values := fun {kind name} (used : (Effect.arrow params output).Uses kind name) =>
      Effect.valueAt_behind_usedNames (freshName_injective state.fresh separate) separate θ used
    generalize freshName (.arrow params output) state.fresh = ρ at *
    obtain ⟨_, _, params_run, _, same⟩ := apply_arrow.mp run
    cases same
    have canonical : ∀ input ∈ inputs, input.Canonical := fun input member => by
      obtain ⟨id, recorded⟩ := each input member
      exact tidy.canonical recorded
    -- The name of the result is newer than all names of the copy.
    have new : ∀ kind, ¬ (Effect.arrow params output |>.rename ρ).Uses kind (resultName opened) := by
      intro kind used
      rcases within kind _ used with ⟨n, _, below, same⟩ | ⟨_, place⟩
      · rw [resultName_eq] at same
        obtain ⟨rfl, rfl⟩ := numbered_injective same
        exact Nat.lt_irrefl _ below
      · rw [resultName_eq] at place
        cases (not_isPlaceholder_numbered _ _).symm.trans (marked _ place)
    have first : List.Forall₂ (fun param input => (θ.behind ρ (Effect.arrow params output).usedNames).apply
        param = .ok input) (params.map (Effect.rename ρ)) inputs := by
      rw [List.forall₂_map_left_iff]
      obtain ⟨length, each_param⟩ := List.forall₂_iff_zip.mp params_run
      refine List.forall₂_iff_zip.mpr ⟨length, fun {param input} member => ?_⟩
      have present := (List.of_mem_zip member).1
      exact apply_behind (determined.unionFree param present) (fun kind name used =>
        values (Effect.uses_arrow.mpr (Or.inl ⟨param, present, used⟩))) (each_param member)
    have second : List.Forall₂ (fun input after => (θ.behind ρ (Effect.arrow params output).usedNames).apply
        input = .ok after) inputs inputs := List.forall₂_same.mpr fun input member =>
      (closed input member).apply_self (canonical input member) _
    rw [Effect.rename_arrow] at apart new ⊢
    refine Effect.unify_application _ (fun param member => ?_) (fun arg member =>
      Effect.unionFree_of_closed (canonical arg member) (closed arg member)) apart new
      (fun arg member kind used => closed arg member kind _ used) first second
    obtain ⟨old, present, rfl⟩ := List.mem_map.mp member
    exact Effect.unionFree_rename (determined.unionFree old present) ρ

theorem instance_of_applied (plain : Plain context.signatures) (unseen : Unseen ids state)
    {operator : String} {arity : Nat} {definition? : Option NameDefinition}
    (looked : state.signature? context operator arity definition? = .ok (some general))
    (each : ∀ input ∈ inputs, ∃ id, state.effects.get? id = some input)
    (closed : ∀ input ∈ inputs, input.Closed) {expr : Expr}
    (missing : state.effects.get? expr.id = none)
    (found : (state.applySignature expr inputs general).effects.get? expr.id = some result) :
    IsInstance general (.arrow inputs result) := by
  by_cases separate : (Vocabulary.usedIn [general]).Separate
  case neg =>
    obtain ⟨clash, copied⟩ := instantiate_mixed separate state
    rw [applySignature_of_clash copied] at found
    cases missing.symm.trans ((effects_recordError _ _ _) ▸ found)
  obtain ⟨opened, copied, leaves, spelled⟩ := leaves_copied unseen plain looked separate
  have given : ∀ input ∈ inputs, ∃ id, opened.effects.get? id = some input := by
    rw [copied.effects]
    exact each
  have marked := marked_of_elsewhere ids
  obtain ⟨_, outcome⟩ := leaves.unseen.tidy.applySignature marked copied spelled given expr
  generalize state.applySignature expr inputs general = after at outcome found
  cases outcome with
  | failed clash =>
    rw [effects_recordError] at found
    have absent : (withResult opened).effects.get? expr.id = none := by
      show opened.effects.get? expr.id = none
      rw [copied.effects]
      exact missing
    cases absent.symm.trans found
  | @solved learned effect last unified uses _ =>
    obtain ⟨_, _, inputs', changed, instanced⟩ := instance_of_solved marked leaves.unseen.tidy spelled
      given copied unified uses
    obtain rfl := Effect.eq_of_apply_closed (fun input member => ⟨closed input member, by
      obtain ⟨id, recorded⟩ := given input member
      exact leaves.unseen.tidy.canonical recorded⟩) changed
    rw [get?_record_self] at found
    cases found
    exact instanced

theorem get?_applySignature (plain : Plain context.signatures) (unseen : Unseen ids state)
    {operator : String} {arity : Nat}
    (listed : context.signatures.signature? operator arity = some general)
    (determined : general.IsDetermined)
    (each : ∀ input ∈ inputs, ∃ id, state.effects.get? id = some input)
    (closed : ∀ input ∈ inputs, input.Closed)
    (instanced : IsInstance general (.arrow inputs result)) {expr : Expr}
    (missing : state.effects.get? expr.id = none) :
    (state.applySignature expr inputs general).effects.get? expr.id = some result := by
  have looked : state.signature? context operator arity none = .ok (some general) := by
    rw [State.signature?, listed]
  obtain ⟨opened, copied, leaves, spelled⟩ := leaves_copied unseen plain looked determined.separate
  have given : ∀ input ∈ inputs, ∃ id, opened.effects.get? id = some input := by
    rw [copied.effects]
    exact each
  have marked := marked_of_elsewhere ids
  obtain ⟨_, outcome⟩ := leaves.unseen.tidy.applySignature marked copied spelled given expr
  have found : ∃ effect, (state.applySignature expr inputs general).effects.get? expr.id =
      some effect := by
    generalize state.applySignature expr inputs general = after at outcome
    cases outcome with
    | failed clash =>
      obtain ⟨σ, unified⟩ := exists_unifier marked leaves.unseen.tidy determined
        spelled given closed instanced
      cases unified.symm.trans clash
    | solved _ _ _ => exact ⟨_, get?_record_self _ _ _⟩
  obtain ⟨effect, found⟩ := found
  have instanced' := instance_of_applied plain unseen looked each closed missing found
  rw [found]
  cases general with
  | concrete footprint => exact determined.elim
  | quantified name => exact determined.elim
  | arrow params output =>
    obtain ⟨θ, _, _, run⟩ := instanced
    obtain ⟨θ', _, _, run'⟩ := instanced'
    exact congrArg some (determined.result_eq run' run)

end Builtin

structure AtTop (heads : NodeId → Prop) (context : Context) (expr : Expr) : Prop where
  placed : Placed (seenLocals true) context [] expr
  outside : ∀ {site}, heads site → site ∉ expr.ids

structure Retains (heads : NodeId → Prop) (base : State) (ids : List NodeId) (state : State) :
    Prop where
  unseen : Unseen ids state
  heads : ∀ {site}, heads site → state.effects.get? site = base.effects.get? site
  clean : state.errors.isEmpty = base.errors.isEmpty

/-- Wherever the same is known of operators, the expression has this effect. -/
def Produces (heads : NodeId → Prop) (context : Context) (base : State) (expr : Expr)
    (effect : Effect) : Prop :=
  ∀ ⦃rest state⦄, Retains heads base (expr.ids ++ rest) state → (expr.ids ++ rest).Nodup →
    ∃ after, inferExpr context state expr = .ok after ∧ after.effects.get? expr.id = some effect

section Runs

variable {heads : NodeId → Prop} {context : Context} {base state after : State} {expr : Expr}
  {rest : List NodeId}

theorem AtTop.arg {id : NodeId} {name : String} {args : List Expr}
    (atTop : AtTop heads context (.app id name args)) {arg : Expr} (member : arg ∈ args) :
    AtTop heads context arg := by
  refine ⟨atTop.placed.arg member, fun head inside => atTop.outside head ?_⟩
  rw [Expr.ids_app]
  exact List.mem_cons_of_mem _ (List.mem_flatMap.mpr ⟨arg, member, inside⟩)

theorem Retains.mono {ids fewer : List NodeId} (retains : Retains heads base ids state)
    (part : fewer ⊆ ids) : Retains heads base fewer state :=
  ⟨retains.unseen.mono part, retains.heads, retains.clean⟩

variable (globals : SameGlobals context context [] heads)

include globals

theorem Retains.infer (atTop : AtTop heads context expr)
    (retains : Retains heads base (expr.ids ++ rest) state) (nodup : (expr.ids ++ rest).Nodup)
    (run : inferExpr context state expr = .ok after) (known : after.Known expr.id) :
    Retains heads base rest after := by
  obtain ⟨nodup_expr, _, disjoint⟩ := List.nodup_append'.mp nodup
  have unseen := retains.unseen.mono (List.subset_append_left expr.ids rest)
  refine ⟨(inferExpr_leaves globals.plain (retains.unseen.mono (List.subset_append_right _ _))
    (fun _ inside => disjoint inside) run).unseen, fun head => ?_, ?_⟩
  · rw [inferExpr_keeps globals atTop.outside atTop.placed unseen nodup_expr run (atTop.outside head)]
    exact retains.heads head
  · rw [errors_of_effect unseen nodup_expr run known]
    exact retains.clean

theorem inferExprs_keeps {exprs : List Expr} (atTop : ∀ expr ∈ exprs, AtTop heads context expr)
    (unseen : Unseen (exprs.flatMap Expr.ids) state) (nodup : (exprs.flatMap Expr.ids).Nodup)
    (run : inferExprs context state exprs = .ok after) {id : NodeId}
    (outside : id ∉ exprs.flatMap Expr.ids) : after.effects.get? id = state.effects.get? id := by
  induction exprs generalizing state with
  | nil =>
    cases run
    rfl
  | cons expr exprs ih =>
    simp only [inferExprs, bind_eq_ok] at run
    obtain ⟨middle, first, later⟩ := run
    simp only [List.flatMap_cons, List.mem_append, not_or] at unseen nodup outside
    obtain ⟨nodup_expr, nodup_exprs, disjoint⟩ := List.nodup_append'.mp nodup
    have unseen' := (inferExpr_leaves globals.plain (unseen.mono (List.subset_append_right _ _))
      (fun _ inside => disjoint inside) first).unseen
    have here := atTop expr List.mem_cons_self
    rw [ih (fun other member => atTop other (List.mem_cons_of_mem _ member)) unseen' nodup_exprs later
      outside.2]
    exact inferExpr_keeps globals here.outside here.placed (unseen.mono (List.subset_append_left _ _))
      nodup_expr first outside.1

/-- Where all of several expressions get effects, inference comes to each of them with the same
knowledge of operators. -/
theorem Retains.inferAll {exprs : List Expr} (atTop : ∀ expr ∈ exprs, AtTop heads context expr)
    (retains : Retains heads base (exprs.flatMap Expr.ids ++ rest) state)
    (nodup : (exprs.flatMap Expr.ids ++ rest).Nodup)
    (run : inferExprs context state exprs = .ok after)
    (known : ∀ expr ∈ exprs, after.Known expr.id) :
    Retains heads base rest after ∧ ∀ expr ∈ exprs, ∃ early late, Retains heads base expr.ids early ∧
      inferExpr context early expr = .ok late ∧
      after.effects.get? expr.id = late.effects.get? expr.id := by
  induction exprs generalizing state with
  | nil =>
    cases run
    exact ⟨retains, nofun⟩
  | cons expr exprs ih =>
    simp only [inferExprs, bind_eq_ok] at run
    obtain ⟨middle, first, later⟩ := run
    simp only [List.flatMap_cons, List.append_assoc] at retains nodup
    obtain ⟨_, nodup', disjoint⟩ := List.nodup_append'.mp nodup
    have atTop' : ∀ other ∈ exprs, AtTop heads context other :=
      fun other member => atTop other (List.mem_cons_of_mem _ member)
    have unseen' := (inferExpr_leaves globals.plain
      (retains.unseen.mono (List.subset_append_right _ _)) (fun _ inside => disjoint inside)
      first).unseen
    have kept : after.effects.get? expr.id = middle.effects.get? expr.id :=
      inferExprs_keeps globals atTop' (unseen'.mono (List.subset_append_left _ _))
        (List.nodup_append'.mp nodup').1 later
        fun inside => disjoint expr.id_mem_ids (List.mem_append_left _ inside)
    have known_here : middle.Known expr.id := by
      rw [State.Known, ← kept]
      exact known expr List.mem_cons_self
    have retains' := retains.infer globals (atTop expr List.mem_cons_self) nodup first known_here
    obtain ⟨last, each⟩ := ih atTop' retains' nodup' later
      fun other member => known other (List.mem_cons_of_mem _ member)
    refine ⟨last, fun other member => ?_⟩
    rcases List.mem_cons.mp member with rfl | member
    · exact ⟨state, middle, retains.mono (List.subset_append_left _ _), first, kept⟩
    · exact each other member

theorem produces_all {exprs : List Expr} {effects : List Effect}
    (atTop : ∀ expr ∈ exprs, AtTop heads context expr)
    (each : List.Forall₂ (Produces heads context base) exprs effects)
    (retains : Retains heads base (exprs.flatMap Expr.ids ++ rest) state)
    (nodup : (exprs.flatMap Expr.ids ++ rest).Nodup) :
    ∃ after, inferExprs context state exprs = .ok after ∧ Retains heads base rest after ∧
      List.Forall₂ (fun expr effect => after.effects.get? expr.id = some effect) exprs effects := by
  induction each generalizing state with
  | nil => exact ⟨state, rfl, retains, .nil⟩
  | @cons expr effect exprs effects head _ ih =>
    simp only [List.flatMap_cons, List.append_assoc] at retains nodup
    obtain ⟨_, nodup', disjoint⟩ := List.nodup_append'.mp nodup
    have atTop' : ∀ other ∈ exprs, AtTop heads context other :=
      fun other member => atTop other (List.mem_cons_of_mem _ member)
    obtain ⟨middle, first, found⟩ := head retains nodup
    have known : middle.Known expr.id := Option.isSome_of_eq_some found
    have retains' := retains.infer globals (atTop expr List.mem_cons_self) nodup first known
    obtain ⟨after, later, last, found'⟩ := ih atTop' retains' nodup'
    have kept : after.effects.get? expr.id = middle.effects.get? expr.id :=
      inferExprs_keeps globals atTop' (retains'.unseen.mono (List.subset_append_left _ _))
        (List.nodup_append'.mp nodup').1 later
        fun inside => disjoint expr.id_mem_ids (List.mem_append_left _ inside)
    refine ⟨after, ?_, last, .cons (kept.trans found) found'⟩
    simp only [inferExprs, bind_eq_ok]
    exact ⟨middle, first, later⟩

end Runs

structure Met (heads : NodeId → Prop) (context : Context) (arrived : State) (arg : Expr)
    (input : Effect) : Prop where
  atTop : AtTop heads context arg
  nodup : arg.ids.Nodup
  closed : input.Closed
  run : ∃ early late, Retains heads arrived arg.ids early ∧ inferExpr context early arg = .ok late ∧
    late.effects.get? arg.id = some input

theorem eq_of_matching {effect : Effect} {effect?' : Option Effect} (closed : effect.Closed)
    (matching : Matching (some effect) effect?') : effect?' = some effect := by
  cases matching with
  | some canonical => rw [closed.rename_self canonical]

theorem valueIn_closed {heads : NodeId → Prop} {context : Context} {arrived : State}
    {params : List Param} {args : List Expr} {inputs : List Effect} {name : String} {value : Effect}
    (met : List.Forall₂ (Met heads context arrived) args inputs)
    (known : valueIn context params inputs name = some value) : value.Closed := by
  unfold valueIn at known
  rcases Option.or_eq_some_iff.mp known with given | ⟨_, plain⟩
  · obtain ⟨_, _, met⟩ := forall₂_mem_right met (given?_mem given)
    exact met.closed
  · exact (plainValue?_spec plain).1

theorem means_outside {table : NameTable} {lambda : NodeId} {params : List Param} {whole : Expr}
    {operator : String}
    (means : MeansBuiltin (table.meaning ((Expr.lambda lambda params whole).binders ++ []) operator)) :
    MeansBuiltin (table.meaning [] operator) := by
  rw [NameTable.meaning_params] at means
  split at means
  · cases means.1
  · exact means

section Unfolded

variable {heads : NodeId → Prop} {context context' : Context} {arrived base : State}
  (globals : SameGlobals context context' [] heads) (similar : Similar heads [] [] arrived base)

include globals similar

theorem Met.produces {arg copy : Expr} {input : Effect} (met : Met heads context arrived arg input)
    (same : arg.Copy copy) (atTop : AtTop heads context' copy) :
    Produces heads context' base copy input := by
  intro rest state retains nodup
  obtain ⟨early, late, retained, run, found⟩ := met.run
  have similar' : Similar heads (arg.ids ++ []) (copy.ids ++ rest) early state := by
    refine ⟨?_, retains.unseen, fun head => ?_, ?_⟩
    · rw [List.append_nil]
      exact retained.unseen
    · rw [retained.heads head, retains.heads head]
      exact similar.heads head
    · rw [retained.clean, retains.clean, similar.clean]
  have tandem : Tandem heads False (fun _ => True) context context' arg copy :=
    tandem_alike globals (fun head => ⟨met.atTop.outside head, atTop.outside head⟩) same
      met.atTop.placed atTop.placed
  obtain ⟨after, run', _, matching⟩ := tandem trivial similar'
    (by rw [List.append_nil]; exact met.nodup) nodup False.elim run
  rw [found] at matching
  exact ⟨after, run', eq_of_matching met.closed matching⟩

omit similar in
theorem produces_ref {id : NodeId} {name : String} {effect : Effect}
    (known : plainValue? context name = some effect) (atTop : AtTop heads context' (.ref id name)) :
    Produces heads context' base (.ref id name) effect := by
  intro rest state _ _
  have resolved := atTop.placed.resolve_ref
  rw [globals.meaning] at resolved
  show ∃ after, state.inferRef context' id name = .ok after ∧ _
  unfold plainValue? at known
  split at known
  · rename_i definition means
    rw [means] at resolved
    split at known
    · rename_i kind
      cases known
      exact ⟨_, inferRef_of_constant resolved kind, get?_record_self _ _ _⟩
    · rename_i kind
      cases known
      exact ⟨_, inferRef_of_stateVariable resolved kind, get?_record_self _ _ _⟩
    · cases known
  · cases known

omit similar in
theorem produces_app {id : NodeId} {operator : String} {args : List Expr} {results : List Effect}
    {signature effect : Effect} (determined : AllDetermined context.signatures)
    (means : MeansBuiltin (context.table.meaning [] operator))
    (each : List.Forall₂ (Produces heads context' base) args results)
    (closed : ∀ result ∈ results, result.Closed)
    (found : context.signatures.signature? operator args.length = some signature)
    (instanced : IsInstance signature (.arrow results effect))
    (atTop : AtTop heads context' (.app id operator args)) :
    Produces heads context' base (.app id operator args) effect := by
  intro rest state retains nodup
  rw [Expr.ids_app, List.cons_append] at retains nodup
  obtain ⟨middle, inner, retained, recorded⟩ := produces_all globals.self'
    (fun arg member => atTop.arg member) each (retains.mono List.perm_middle.subset)
    (List.nodup_middle.mpr nodup)
  have resolved := atTop.placed.resolve_app
  rw [globals.meaning] at resolved
  have looked := signature?_builtin means middle context' operator args.length
  rw [globals.signatures, found] at looked
  refine ⟨middle.applySignature (.app id operator args) results signature, ?_, ?_⟩
  · simp only [inferExpr, bind_eq_ok]
    exact ⟨middle, inner, inferApplication_of_known recorded resolved looked⟩
  · refine get?_applySignature globals.self'.plain retained.unseen
      (globals.signatures ▸ found) (determined found) (fun result member => ?_) closed instanced
      (retained.unseen.effects id List.mem_cons_self)
    obtain ⟨arg, _, known⟩ := forall₂_mem_right recorded member
    exact ⟨arg.id, known⟩

variable {params : List Param} {args : List Expr} {inputs : List Effect} {lambda : NodeId}
  {whole : Expr}

/-- A body with arguments put for its parameters has the effect that the body has, given the effects
of the arguments. -/
theorem Unfolds.produces {body new : Expr} {effect : Effect}
    (determined : AllDetermined context.signatures) (unfolds : Unfolds params args body new)
    (firstOrder : FirstOrder context body)
    (placed : Placed Expr.binders context ((Expr.lambda lambda params whole).binders ++ []) body)
    (met : List.Forall₂ (Met heads context arrived) args inputs)
    (evaluates : Evaluates context.signatures (valueIn context params inputs) body effect)
    (atTop : AtTop heads context' new) : Produces heads context' base new effect := by
  induction unfolds generalizing effect with
  | literal id id' value =>
    cases evaluates
    exact fun rest state _ _ => ⟨_, rfl, get?_record_self _ _ _⟩
  | @given id name arg copy found same =>
    cases evaluates with
    | ref known =>
      rcases given?_forall₂ met params name with ⟨none, _⟩ | ⟨arg', input, found', some, met⟩
      · cases none.symm.trans found
      · cases found.symm.trans found'
        rw [valueIn, some, Option.some_or] at known
        cases known
        exact met.produces globals similar same atTop
  | @ref id id' name absent =>
    cases evaluates with
    | ref known =>
      rcases given?_forall₂ met params name with ⟨_, none⟩ | ⟨arg, _, found, _⟩
      · rw [valueIn, none, Option.none_or] at known
        exact produces_ref globals known atTop
      · cases absent.symm.trans found
  | @app id id' operator parts parts' length each ih =>
    cases firstOrder with
    | app resolved means firstOrder =>
      cases evaluates with
      | @app _ _ _ results signature _ arity evaluates found instanced =>
        have paired : List.Forall₂ (fun part part' => (part, part') ∈ parts.zip parts') parts parts' :=
          List.forall₂_iff_zip.mpr ⟨length, fun member => member⟩
        have valued : List.Forall₂ (fun part result => (part, result) ∈ parts.zip results) parts
            results := List.forall₂_iff_zip.mpr ⟨arity, fun member => member⟩
        have closed : ∀ name value, valueIn context params inputs name = some value → value.Closed :=
          fun name value known => valueIn_closed met known
        have means' : MeansBuiltin (context.table.meaning [] operator) := by
          cases placed.resolve_app.symm.trans resolved
          exact means_outside means
        refine produces_app globals determined means'
          ((forall₂_exists_middle.mpr ⟨parts, paired.flip, valued⟩).imp fun part' result both => ?_)
          (fun result member => ?_) (length ▸ found) instanced atTop
        · obtain ⟨part, first, second⟩ := both
          have present := (List.of_mem_zip first).1
          exact ih part part' first (firstOrder part present) (placed.arg present)
            (evaluates part result second) (atTop.arg (List.of_mem_zip first).2)
        · obtain ⟨part, _, member⟩ := forall₂_mem_right valued member
          exact (evaluates part result member).closed determined closed

end Unfolded

end Inference

end SpecEffects
