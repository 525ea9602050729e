import SpecEffects.Proofs.Inference.Unfolding

/-!
Calls of first-order operators. The effect of such an operator says what its body does, whatever is
given for the parameters. So a call does what the body does with the arguments put for the parameters,
provided that the effects of the arguments use no quantified names before they are made to fit the
operator.
-/
namespace SpecEffects

namespace Inference

/-- The effect of an operator says what the body of a lambda does, given what its parameters do. -/
def Describes (context : Context) (params : List Param) (body : Expr) (general : Effect) : Prop :=
  ∃ inputs result, general = .arrow inputs result ∧
    Evaluates context.signatures (valueIn context params inputs) body result

section Call

variable {heads : NodeId → Prop} {context : Context} {arrived after : State} {call site : NodeId}
  {operator : String} {args : List Expr} {definition : NameDefinition} {params : List Param}
  {body : Expr} {effect : Effect}

theorem call_evaluates (globals : SameGlobals context context [] heads)
    (determined : AllDetermined context.signatures)
    (atTop : AtTop heads context (.app call operator args))
    (resolved : context.resolve operator call = .ok (some definition))
    (kind : definition.kind = .operator) (reference : definition.reference = some site)
    (head : heads site)
    (described : ∀ general, arrived.effects.get? site = some general →
      Describes context params body general)
    (unseen : Unseen (Expr.app call operator args).ids arrived)
    (nodup : (Expr.app call operator args).ids.Nodup)
    (closed : ∀ reached, inferExprs context arrived args = .ok reached → ∀ arg ∈ args, ∀ input,
      reached.effects.get? arg.id = some input → input.Closed)
    (run : inferExpr context arrived (.app call operator args) = .ok after)
    (found : after.effects.get? call = some effect) :
    ∃ inputs, List.Forall₂ (Met heads context arrived) args inputs ∧
      Evaluates context.signatures (valueIn context params inputs) body effect := by
  simp only [inferExpr, bind_eq_ok] at run
  obtain ⟨reached, inner, outer⟩ := run
  rw [Expr.ids_app] at unseen nodup
  obtain ⟨fresh, nodup_args⟩ := List.nodup_cons.mp nodup
  have top : ∀ arg ∈ args, AtTop heads context arg := fun arg member => atTop.arg member
  have missing : reached.effects.get? call = none := by
    rw [inferExprs_keeps globals top (unseen.mono (List.subset_cons_self _ _)) nodup_args inner fresh]
    exact unseen.effects call List.mem_cons_self
  cases inferApplication_step outer with
  | skipped => cases missing.symm.trans found
  | unresolved =>
    rw [effects_recordError] at found
    cases missing.symm.trans found
  | @applied inputs _ general recorded resolved' looked =>
    cases resolved.symm.trans resolved'
    have retains : Retains heads arrived (args.flatMap Expr.ids ++ [call]) arrived :=
      ⟨unseen.mono (by simp), fun _ => rfl, rfl⟩
    obtain ⟨retained, each⟩ := retains.inferAll globals top
      (by rw [List.nodup_append_comm]; exact nodup) inner fun arg member => by
        obtain ⟨input, _, known⟩ := forall₂_mem_left recorded member
        exact Option.isSome_of_eq_some known
    have closed : ∀ input ∈ inputs, input.Closed := fun input member => by
      obtain ⟨arg, present, known⟩ := forall₂_mem_right recorded member
      exact closed reached inner arg present input known
    have here := looked
    rw [signature?_operator kind reference, retained.heads head] at here
    have general_eq := Except.ok.inj here
    have given : ∀ input ∈ inputs, ∃ id, reached.effects.get? id = some input := by
      intro input member
      obtain ⟨arg, _, known⟩ := forall₂_mem_right recorded member
      exact ⟨arg.id, known⟩
    have instanced : IsInstance general (.arrow inputs effect) :=
      @instance_of_applied _ _ _ _ _ _ globals.plain retained.unseen _ _ _ looked given closed
        (.app call operator args) missing found
    obtain ⟨ps, result, rfl, evaluates⟩ := described general general_eq
    refine ⟨inputs, ?_, evaluates.of_instance determined (unseen.tidy.canonical general_eq) ?_
      instanced⟩
    · obtain ⟨length, recorded⟩ := List.forall₂_iff_zip.mp recorded
      refine List.forall₂_iff_zip.mpr ⟨length, fun {arg input} member => ?_⟩
      obtain ⟨present, present'⟩ := List.of_mem_zip member
      obtain ⟨early, late, retains, run, kept⟩ := each arg present
      exact ⟨top arg present, (List.nodup_flatMap.mp nodup_args).1 arg present,
        closed input present', early, late, retains, run, kept ▸ recorded member⟩
    · exact fun kind name used => possible_of_made (marked_of_elsewhere _)
        (unseen.tidy.spelled general_eq kind name used)

theorem tandem_call {context' : Context} {new : Expr} (globals : SameGlobals context context' [] heads)
    (atTop : AtTop heads context (.app call operator args)) (atTop' : AtTop heads context' new)
    (run : inferExpr context arrived (.app call operator args) = .ok after)
    (found : after.effects.get? call = some effect)
    (produces : ∀ base, Similar heads [] [] arrived base → Produces heads context' base new effect) :
    Tandem heads False (fun state => state = arrived) context context' (.app call operator args)
      new := by
  rintro rest rest' _ state' last rfl similar nodup nodup' _ again
  cases run.symm.trans again
  have unseen := similar.unseen.mono (List.subset_append_left (Expr.app call operator args).ids rest)
  have unseen' := similar.unseen'.mono (List.subset_append_left new.ids rest')
  have nodup_call := (List.nodup_append'.mp nodup).1
  have nodup_new := (List.nodup_append'.mp nodup').1
  obtain ⟨after', run', found'⟩ := produces state'
    (similar.mono (List.nil_subset _) (List.nil_subset _)) ⟨similar.unseen', fun _ => rfl, rfl⟩ nodup'
  have known : after.Known (Expr.app call operator args).id := Option.isSome_of_eq_some found
  have clean : after'.errors.isEmpty = after.errors.isEmpty := by
    rw [errors_of_effect unseen nodup_call run known,
      errors_of_effect unseen' nodup_new run' (Option.isSome_of_eq_some found'), similar.clean]
  have similar' := similar.inferred nodup nodup'
    (fun head => ⟨atTop.outside head, atTop'.outside head⟩) globals.plain globals.self'.plain run run'
    (fun outside => inferExpr_keeps globals.self atTop.outside atTop.placed unseen nodup_call run outside)
    (fun outside => inferExpr_keeps globals.self' atTop'.outside atTop'.placed unseen' nodup_new run'
      outside) clean
  refine ⟨after', run', similar', ?_⟩
  have same := Matching.refl similar'.unseen call
  rw [found] at same
  rw [found']
  exact found ▸ same

end Call

section Modules

variable {signatures : SignatureTable} {m n : Module} {before others : List Declaration}

theorem owner_of_reference (distinct : m.ids.Nodup) (within : n ∈ m.modules) {f : Definition}
    (present : .operator f ∈ n.declarations) {name : String} {definition : NameDefinition}
    (means : (contextIn signatures m n).table.meaning [] name = some definition)
    (reference : definition.reference = some f.id) :
    m.owner? n.name = some n ∧ definition.kind = .operator := by
  obtain ⟨k, owns⟩ := Module.exists_owner within
  rw [meaning_nil, table_of_owner owns] at means
  obtain ⟨member, visible⟩ := List.mem_filter.mp (List.mem_of_find?_eq_some means)
  have within' := Module.owner?_inside owns
  have inner : ∀ expr : Expr, definition ∉ expr.localDefinitions := by
    intro expr listed
    obtain ⟨scope, _, _, _, limited, _⟩ := Expr.localDefinitions_spec listed
    simp [limited] at visible
  rcases List.mem_append.mp member with builtin | declared
  · obtain ⟨_, _, rfl⟩ := List.mem_map.mp builtin
    cases reference
  · obtain ⟨declaration, present', member⟩ := List.mem_flatMap.mp declared
    rcases Declaration.definitions_spec member with ⟨_, _, own⟩ | ⟨expr, _, listed⟩
    · have same : declaration.id = f.id := Option.some.inj (own.symm.trans reference)
      obtain rfl : declaration = .operator f := Declaration.eq_of_mem_ownIds distinct
        (Module.mem_all_of_mem_declarations within' present')
        (Module.mem_all_of_mem_declarations within present) List.mem_cons_self
        (same ▸ List.mem_cons_self)
      have one := Declaration.parent_unique distinct (Module.mem_modules.mp within)
        (Module.mem_modules.mp within') present present'
      refine ⟨one ▸ owns, ?_⟩
      rcases List.mem_cons.mp member with rfl | listed
      · rfl
      · exact absurd listed (inner f.body)
    · exact absurd listed (inner expr)

variable (compared : Compared signatures m m) (within : n ∈ m.modules)

include compared within

theorem atTop_declared (owns : m.owner? n.name = some n) {declaration : Declaration}
    (present : declaration ∈ n.declarations) {expr : Expr} (holds : declaration.expr? = some expr) :
    AtTop (headsOf m) (contextIn signatures m n) expr :=
  ⟨placed_owned compared.distinct owns present holds,
    heads_outside compared (Module.mem_all_of_mem_declarations within present) holds⟩

/-- Where inference comes to a declaration, an earlier first-order operator has an effect that says
what its body does. -/
theorem operator_describes (determined : AllDetermined signatures)
    (owns : m.owner? n.name = some n) {f : Definition} {lambda : NodeId} {params : List Param}
    {body : Expr} (function : f.body = .lambda lambda params body) (part : before ⊆ n.declarations)
    (earlier : .operator f ∈ before)
    (firstOrder : FirstOrder (contextIn signatures m n) body) {start arrived : State}
    (unseen : Unseen (before.flatMap Declaration.ids) start)
    (nodup : (before.flatMap Declaration.ids).Nodup)
    (run : inferDeclarations (m.environment signatures) (contextIn signatures m n) start before =
      .ok arrived) {general : Effect} (found : arrived.effects.get? f.id = some general) :
    Describes (contextIn signatures m n) params body general := by
  have globals := sameGlobals compared within (.refl n)
  have present := part earlier
  have atTop := atTop_declared compared within owns present rfl
  obtain ⟨first, last, rfl⟩ := List.append_of_mem earlier
  obtain ⟨state, after, _, middle, entered, kept⟩ := infer_among compared within part unseen nodup run
  simp only [inferDeclaration, bind_eq_ok, pure_eq_ok] at middle
  obtain ⟨inferred, inner, rfl⟩ := middle
  have nodup_own := (List.nodup_flatMap.mp nodup).1 _ earlier
  rw [Declaration.ids_operator] at entered nodup_own kept
  obtain ⟨fresh, nodup_body⟩ := List.nodup_cons.mp nodup_own
  have unseen_body := entered.mono (List.subset_cons_self f.id f.body.ids)
  have missing : inferred.effects.get? f.id = none := by
    rw [inferExpr_keeps globals atTop.outside atTop.placed unseen_body nodup_body inner fresh]
    exact entered.effects f.id List.mem_cons_self
  rw [kept f.id List.mem_cons_self, State.copyEffect] at found
  split at found
  · rename_i effect recorded
    rw [get?_record_self] at found
    cases found
    rw [function] at inner unseen_body nodup_body recorded atTop
    obtain ⟨inputs, result, same, _, evaluates⟩ := lambda_evaluates globals.plain determined
      globals.kind firstOrder atTop.placed unseen_body nodup_body inner recorded
    exact ⟨inputs, result, same, evaluates⟩
  · cases missing.symm.trans found

theorem Reaches.definition {d : Definition} {final : State} {context : Context} {arrived : State}
    {effect : Effect} (reaches : Reaches signatures m n before (.operator d) final context arrived)
    (present : .operator d ∈ n.declarations) (found : final.effects.get? d.body.id = some effect) :
    final.effects.get? d.id = some effect ∧
      ∃ after, inferExpr context arrived d.body = .ok after ∧
        after.effects.get? d.body.id = some effect := by
  obtain ⟨_, _, _, after, run, kept⟩ := reaches
  have nodup := nodup_of_declared compared within present
  rw [Declaration.ids_operator] at nodup kept
  have different : d.id ≠ d.body.id := fun same =>
    (List.nodup_cons.mp nodup).1 (same ▸ d.body.id_mem_ids)
  simp only [inferDeclaration, bind_eq_ok, pure_eq_ok] at run
  obtain ⟨middle, inner, rfl⟩ := run
  rw [kept d.body.id (List.mem_cons_of_mem _ d.body.id_mem_ids), State.copyEffect] at found
  rw [kept d.id List.mem_cons_self, State.copyEffect]
  cases recorded : middle.effects.get? d.body.id with
  | none =>
    rw [recorded] at found
    cases recorded.symm.trans found
  | some effect' =>
    rw [recorded] at found
    dsimp only at found ⊢
    rw [get?_record, if_neg different, recorded] at found
    cases found
    exact ⟨get?_record_self _ _ _, middle, inner, recorded⟩

end Modules

section Definition

variable {signatures : SignatureTable} {m n : Module} {before others : List Declaration}
  {f d lambda call : NodeId} {fName dName operator : String} {params : List Param} {body : Expr}
  {args : List Expr} {definition : NameDefinition} {context : Context} {final arrived reached : State}
  {effect : Effect}

theorem Reaches.call_evaluates (compared : Compared signatures m m) (determined : AllDetermined signatures)
    (within : n ∈ m.modules) (earlier : .operator ⟨f, fName, .lambda lambda params body⟩ ∈ before)
    (parts : n.declarations = before ++ .operator ⟨d, dName, .app call operator args⟩ :: others)
    (reaches : Reaches signatures m n before (.operator ⟨d, dName, .app call operator args⟩) final
      context arrived) (firstOrder : FirstOrder context body)
    (resolved : context.resolve operator call = .ok (some definition))
    (reference : definition.reference = some f)
    (given : inferExprs context arrived args = .ok reached)
    (closed : ∀ arg ∈ args, ∀ input, reached.effects.get? arg.id = some input → input.Closed)
    {after : State} (run : inferExpr context arrived (.app call operator args) = .ok after)
    (found : after.effects.get? call = some effect) :
    m.owner? n.name = some n ∧ ∃ inputs, List.Forall₂ (Met (headsOf m) context arrived) args inputs ∧
      Evaluates signatures (valueIn context params inputs) body effect := by
  obtain ⟨rfl, ⟨start, unseen, early⟩, entered, _⟩ := reaches
  have present : .operator ⟨d, dName, .app call operator args⟩ ∈ n.declarations := by
    rw [parts]
    exact List.mem_append_right _ List.mem_cons_self
  have part : before ⊆ n.declarations := parts ▸ List.subset_append_left _ _
  obtain ⟨_, placed, _⟩ := exists_placed compared within (.refl n) within
  have means := Except.ok.inj ((placed present rfl).resolve_app.symm.trans resolved)
  obtain ⟨owns, kind⟩ := owner_of_reference compared.distinct within (part earlier) means reference
  have nodup := nodup_of_declared compared within present
  rw [Declaration.ids_operator] at entered nodup
  have nodup_before : (before.flatMap Declaration.ids).Nodup := by
    have whole := Module.nodup_declarations (Module.nodup_ids compared.distinct within)
    rw [parts, List.flatMap_append] at whole
    exact (List.nodup_append'.mp whole).1
  have unseen_before : Unseen (before.flatMap Declaration.ids) start := by
    refine unseen.mono ?_
    rw [parts, List.flatMap_append]
    exact List.subset_append_left _ _
  refine ⟨owns, Inference.call_evaluates (sameGlobals compared within (.refl n)) determined
    (atTop_declared compared within owns present rfl) resolved kind reference
    (Declaration.id_mem_headIds (Module.mem_all_of_mem_declarations within (part earlier)))
    (fun general known => ?_) (entered.mono (List.subset_cons_self _ _)) (List.nodup_cons.mp nodup).2
    (fun reached' again => ?_) run found⟩
  · exact operator_describes compared within determined owns rfl part earlier firstOrder unseen_before
      nodup_before early known
  · cases given.symm.trans again
    exact closed

end Definition

/-- Calling a first-order operator agrees with unfolding it, where the effects of the arguments use no
quantified names when inference comes to the call. -/
theorem call_agrees_with_unfolding {m m' n : Module} {before others : List Declaration}
    {f d lambda call : NodeId} {fName dName operator : String} {params : List Param}
    {body new : Expr} {args : List Expr} {definition : NameDefinition} {context : Context}
    {arrived reached : State} (distinct : m.ids.Nodup) (distinct' : m'.ids.Nodup)
    (within : n ∈ m.modules)
    (earlier : .operator ⟨f, fName, .lambda lambda params body⟩ ∈ before)
    (parts : n.declarations = before ++ .operator ⟨d, dName, .app call operator args⟩ :: others)
    (unfolds : Unfolds params args body new)
    (replaces : Declaration.Replaces d (.app call operator args) new m.toDeclaration m'.toDeclaration)
    (arrives : m.arrival? .standard d = some (context, arrived))
    (firstOrder : FirstOrder context body)
    (resolved : context.resolve operator call = .ok (some definition))
    (reference : definition.reference = some f)
    (given : inferExprs context arrived args = .ok reached)
    (closed : ∀ arg ∈ args, ∀ input, reached.effects.get? arg.id = some input → input.Closed) :
    ∃ analysis analysis', m.analyze .standard = .ok analysis ∧ m'.analyze .standard = .ok analysis' ∧
      ∀ effect, analysis.effectOf? call = some effect →
        effect.Closed ∧ analysis'.effectOf? d = some effect := by
  have determined : AllDetermined .standard := fun found => (SignatureTable.standard_spec found).1
  have alone : Compared .standard m m := .refl SignatureTable.plain_standard distinct
  have compared := compared_of_replaces replaces SignatureTable.plain_standard distinct distinct'
  obtain ⟨final, run⟩ : ∃ final, m.infer .standard = .ok final := inferModule_total distinct .start
  obtain ⟨final', run'⟩ : ∃ final', m'.infer .standard = .ok final' :=
    inferModule_total distinct' .start
  refine ⟨final.analysis, final'.analysis, by rw [Module.analyze, run]; rfl,
    by rw [Module.analyze, run']; rfl, fun effect found => ?_⟩
  have present : .operator ⟨d, dName, .app call operator args⟩ ∈ n.declarations := by
    rw [parts]
    exact List.mem_append_right _ List.mem_cons_self
  have reaches : Reaches .standard m n before (.operator ⟨d, dName, .app call operator args⟩) final
      context arrived := arrive_reaches alone (Declaration.mem_all_self _)
    (Module.mem_modules.mp within) parts rfl (unseen_start _)
    (by rw [inferDeclaration_toDeclaration]; exact run) arrives
  obtain ⟨defined, after, inner, recorded⟩ := reaches.definition alone within present found
  obtain ⟨owns, inputs, met, evaluates⟩ := reaches.call_evaluates alone determined within earlier parts
    firstOrder resolved reference given closed inner recorded
  obtain rfl := reaches.own
  have done : effect.Closed := evaluates.closed determined fun _ _ known => valueIn_closed met known
  have here := Module.mem_all_of_mem_declarations within present
  have changed : ∀ {k' : Module} {declaration' : Declaration}, k' ∈ m'.modules →
      Module.Counterparts n k' → declaration' ∈ k'.declarations → declaration'.expr? = some new →
      Tandem (headsOf m) False (fun state => state = arrived) (contextIn .standard m n)
        (contextIn .standard m' k') (.app call operator args) new := by
    intro k' declaration' inside' pair member' holds'
    have globals := sameGlobals compared within pair
    have top : AtTop (headsOf m) (contextIn .standard m' k') new :=
      ⟨placed_owned distinct' (owner_counterpart compared within pair inside' owns) member' holds',
        heads_outside' compared (Module.mem_all_of_mem_declarations inside' member') holds'⟩
    refine tandem_call globals (atTop_declared alone within owns present rfl) top inner recorded
      fun base similar => ?_
    exact unfolds.produces globals similar determined firstOrder (placed_owned distinct owns
      (parts ▸ List.mem_append_left _ earlier) rfl).lambda_body met evaluates top
  obtain ⟨_, again, similar⟩ := infer_replaced_declared replaces compared within present rfl arrives
    changed run False.elim
  cases run'.symm.trans again
  have same := similar.heads (Declaration.id_mem_headIds here)
  exact ⟨done, eq_of_matching done (defined ▸ same)⟩

/-- A body that uses its parameters next to state variables, called with arguments that read. -/
theorem call_with_reading_arguments :
    let body : Expr := .app ⟨8⟩ "and" [.app ⟨9⟩ "eq" [.ref ⟨10⟩ "p", .ref ⟨11⟩ "x"],
      .app ⟨12⟩ "assign" [.ref ⟨13⟩ "y", .ref ⟨14⟩ "q"]]
    let args : List Expr :=
      [.app ⟨17⟩ "iadd" [.ref ⟨18⟩ "y", .literal ⟨19⟩ (.int 1)], .ref ⟨20⟩ "x"]
    let new : Expr := .app ⟨21⟩ "and"
      [.app ⟨22⟩ "eq" [.app ⟨23⟩ "iadd" [.ref ⟨24⟩ "y", .literal ⟨25⟩ (.int 1)], .ref ⟨26⟩ "x"],
        .app ⟨27⟩ "assign" [.ref ⟨28⟩ "y", .ref ⟨29⟩ "x"]]
    let before : List Declaration := [.stateVariable ⟨2⟩ "x", .stateVariable ⟨3⟩ "y",
      .operator ⟨⟨4⟩, "f", .lambda ⟨5⟩ [⟨⟨6⟩, "p"⟩, ⟨⟨7⟩, "q"⟩] body⟩]
    let m : Module := ⟨⟨1⟩, "M", before ++ [.operator ⟨⟨15⟩, "d", .app ⟨16⟩ "f" args⟩]⟩
    let m' : Module := ⟨⟨1⟩, "M", before ++ [.operator ⟨⟨15⟩, "d", new⟩]⟩
    let effect : Effect := .concrete ⟨.concrete (.ofList ["x", "y"]), .concrete (.singleton "y"), .empty⟩
    Unfolds [⟨⟨6⟩, "p"⟩, ⟨⟨7⟩, "q"⟩] args body new ∧
    ∃ analysis analysis', m.analyze .standard = .ok analysis ∧ m'.analyze .standard = .ok analysis' ∧
      analysis.effectOf? ⟨16⟩ = some effect ∧ analysis'.effectOf? ⟨15⟩ = some effect := by
  intro body args new before m m' effect
  have unfolds : Unfolds [⟨⟨6⟩, "p"⟩, ⟨⟨7⟩, "q"⟩] args body new := by
    have copy : (Expr.app ⟨17⟩ "iadd" [.ref ⟨18⟩ "y", .literal ⟨19⟩ (.int 1)]).Copy
        (.app ⟨23⟩ "iadd" [.ref ⟨24⟩ "y", .literal ⟨25⟩ (.int 1)]) :=
      .app trivial trivial rfl (Expr.each_of_two (.ref trivial trivial) (.literal trivial _))
    refine .app rfl (Expr.each_of_two ?_ ?_)
    · exact .app rfl (Expr.each_of_two (.given rfl copy) (.ref rfl))
    · exact .app rfl (Expr.each_of_two (.ref rfl) (.given rfl (.ref trivial trivial)))
  have replaces : Declaration.Replaces ⟨15⟩ (.app ⟨16⟩ "f" args) new m.toDeclaration m'.toDeclaration :=
    .submodule (.operator "d")
  have arrival : ((m.arrival? .standard ⟨15⟩).map fun arrival =>
      ([("f", 16), ("and", 8), ("eq", 9), ("p", 10), ("x", 11), ("assign", 12), ("y", 13),
        ("q", 14)].map fun use => arrival.1.resolve use.1 ⟨use.2⟩,
        (inferExprs arrival.1 arrival.2 args).toOption.map fun state =>
          [⟨17⟩, ⟨20⟩].map state.effects.get?)) =
      some ([.ok (some ⟨.operator, "f", some ⟨4⟩, none⟩), .ok (some ⟨.operator, "and", none, none⟩),
        .ok (some ⟨.operator, "eq", none, none⟩), .ok (some ⟨.parameter, "p", some ⟨6⟩, some ⟨5⟩⟩),
        .ok (some ⟨.stateVariable, "x", some ⟨2⟩, none⟩), .ok (some ⟨.operator, "assign", none, none⟩),
        .ok (some ⟨.stateVariable, "y", some ⟨3⟩, none⟩),
        .ok (some ⟨.parameter, "q", some ⟨7⟩, some ⟨5⟩⟩)],
        some [some (.reads "y"), some (.reads "x")]) := by decide +kernel
  obtain ⟨⟨context, arrived⟩, arrives, known⟩ := Option.map_eq_some_iff.mp arrival
  simp only [List.map_cons, List.map_nil, Prod.mk.injEq, List.cons.injEq, and_true] at known
  obtain ⟨⟨f, and', eq, p, x, assign, y, q⟩, inferred⟩ := known
  obtain ⟨reached, given, effects⟩ := exists_ok _ (show
    ((inferExprs context arrived args).toOption.map fun state => [⟨17⟩, ⟨20⟩].map state.effects.get?) =
      some [some (.reads "y"), some (.reads "x")] from inferred)
  simp only [List.map_cons, List.map_nil, List.cons.injEq, and_true] at effects
  have firstOrder : FirstOrder context body := by
    refine .app and' ⟨rfl, rfl⟩ (List.forall_mem_cons.mpr ⟨?_, List.forall_mem_singleton.mpr ?_⟩)
    · exact .app eq ⟨rfl, rfl⟩ (List.forall_mem_cons.mpr
        ⟨.ref p (by decide), List.forall_mem_singleton.mpr (.ref x (by decide))⟩)
    · exact .app assign ⟨rfl, rfl⟩ (List.forall_mem_cons.mpr
        ⟨.ref y (by decide), List.forall_mem_singleton.mpr (.ref q (by decide))⟩)
  have closed : ∀ arg ∈ args, ∀ input, reached.effects.get? arg.id = some input → input.Closed := by
    refine List.forall_mem_cons.mpr ⟨fun input found => ?_,
      List.forall_mem_singleton.mpr fun input found => ?_⟩
    · cases effects.1.symm.trans found
      exact over_reads _ "y"
    · cases effects.2.symm.trans found
      exact over_reads _ "x"
  obtain ⟨analysis, analysis', run, run', agree⟩ := call_agrees_with_unfolding (by decide) (by decide)
    (Module.mem_modules.mpr m.toDeclaration.mem_all_self)
    (List.mem_cons_of_mem _ (List.mem_cons_of_mem _ List.mem_cons_self)) rfl unfolds replaces arrives
    firstOrder f rfl given closed
  have found : (m.analyze .standard).toOption.map (fun analysis => analysis.effectOf? ⟨16⟩) =
      some (some effect) := by decide +kernel
  rw [run] at found
  have found := Option.some.inj found
  exact ⟨unfolds, analysis, analysis', run, run', found, (agree effect found).2⟩

/-- One quantified name in the effect of `g` is not tied to its parameter. The call puts the empty set for
it, and the unfolded body leaves it open in one of two copies of `g`. -/
theorem call_settles_its_argument :
    let g : Definition := ⟨⟨3⟩, "g", .lambda ⟨4⟩ [⟨⟨5⟩, "q"⟩] (.letIn ⟨6⟩ ⟨7⟩ "y" (.ref ⟨8⟩ "q")
      (.app ⟨9⟩ "and" [.app ⟨10⟩ "eq" [.ref ⟨11⟩ "y", .literal ⟨12⟩ (.int 1)],
        .app ⟨13⟩ "assign" [.ref ⟨14⟩ "y", .literal ⟨15⟩ (.int 1)]]))⟩
    let body : Expr := .app ⟨19⟩ "and" [.app ⟨20⟩ "map" [.ref ⟨21⟩ "x", .ref ⟨22⟩ "p"],
      .app ⟨23⟩ "forall" [.ref ⟨24⟩ "x", .ref ⟨25⟩ "p"]]
    let new : Expr := .app ⟨29⟩ "and" [.app ⟨30⟩ "map" [.ref ⟨31⟩ "x", .ref ⟨32⟩ "g"],
      .app ⟨33⟩ "forall" [.ref ⟨34⟩ "x", .ref ⟨35⟩ "g"]]
    let before : List Declaration := [.stateVariable ⟨2⟩ "x", .operator g,
      .operator ⟨⟨16⟩, "f", .lambda ⟨17⟩ [⟨⟨18⟩, "p"⟩] body⟩]
    let m : Module := ⟨⟨1⟩, "M", before ++ [.operator ⟨⟨26⟩, "d", .app ⟨27⟩ "f" [.ref ⟨28⟩ "g"]⟩]⟩
    let m' : Module := ⟨⟨1⟩, "M", before ++ [.operator ⟨⟨26⟩, "d", new⟩]⟩
    m.ids.Nodup ∧ m'.ids.Nodup ∧ Unfolds [⟨⟨18⟩, "p"⟩] [.ref ⟨28⟩ "g"] body new ∧
      ((m.analyze .standard).toOption.map fun analysis => [⟨28⟩, ⟨27⟩].map analysis.effectOf?) =
        some [some (.arrow [.reads "x"] (.reads "x")), some (.reads "x")] ∧
      ((m'.analyze .standard).toOption.map fun analysis => [⟨26⟩].map analysis.effectOf?) =
        some [some (.concrete ⟨.concrete (.singleton "x"), .quantified "_v32", .empty⟩)] := by
  intro g body new before m m'
  have unfolds : Unfolds [⟨⟨18⟩, "p"⟩] [.ref ⟨28⟩ "g"] body new := .app rfl fun
    | _, _, .head _ => .app rfl fun
      | _, _, .head _ => .ref rfl
      | _, _, .tail _ (.head _) => .given rfl (.ref trivial trivial)
    | _, _, .tail _ (.head _) => .app rfl fun
      | _, _, .head _ => .ref rfl
      | _, _, .tail _ (.head _) => .given rfl (.ref trivial trivial)
  exact ⟨by decide, by decide, unfolds, by decide +kernel, by decide +kernel⟩

end Inference

end SpecEffects
