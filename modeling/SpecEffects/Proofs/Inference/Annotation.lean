import SpecEffects.Proofs.Inference.Stretches

/-!
Recorded effects as an annotation of the module. When inference is done, the effects of all nodes
fit together: at each node they are as the parts of the node and the meaning of its name ask for.
-/
namespace SpecEffects.Inference

structure ConsistentDeclaration (stable : NodeId → Prop) (context : Context)
    (effects : SortedMap NodeId Effect) (declaration : Declaration) : Prop where
  nodes : ∀ node ∈ declaration.nodes, Consistent stable context effects node
  body : ∀ definition, declaration = .operator definition →
    ∀ effect, effects.get? definition.id = some effect →
      effects.get? definition.body.id = some effect

def ConsistentModule (stable : NodeId → Prop) (env : Environment)
    (effects : SortedMap NodeId Effect) (n : Module) : Prop :=
  ∃ table, env.tables.get? n.name = some table ∧ ∀ declaration ∈ n.declarations,
    ConsistentDeclaration stable ⟨env.signatures, table, n.scopeTree⟩ effects declaration

section Evolution

variable {stable touched : NodeId → Prop} {context : Context}
  {effects after : SortedMap NodeId Effect}

theorem ConsistentDeclaration.evolves {declaration : Declaration}
    (consistent : ConsistentDeclaration stable context effects declaration)
    (evolves : Evolves stable effects touched after)
    (untouched : ∀ id ∈ declaration.ownIds, ¬ touched id) :
    ConsistentDeclaration stable context after declaration := by
  constructor
  · intro node member
    apply (consistent.nodes node member).evolves evolves
    intro id own
    unfold Declaration.nodes at member
    cases holds : declaration.expr? with
    | none =>
      rw [holds] at member
      cases member
    | some expr =>
      rw [holds] at member
      exact untouched id (Declaration.mem_ownIds_of_expr holds (Expr.ownIds_subset member own))
  · rintro definition rfl
    obtain ⟨σ, evolves⟩ := evolves
    exact evolves.copied (untouched definition.id List.mem_cons_self)
      (consistent.body definition rfl)

theorem ConsistentModule.evolves {env : Environment} {n : Module}
    (consistent : ConsistentModule stable env effects n)
    (evolves : Evolves stable effects touched after)
    (untouched : ∀ id ∈ n.toDeclaration.ids, ¬ touched id) :
    ConsistentModule stable env after n := by
  obtain ⟨table, found, each⟩ := consistent
  refine ⟨table, found, fun declaration present => (each declaration present).evolves evolves ?_⟩
  intro id own
  have inside : declaration ∈ n.toDeclaration.all :=
    Module.mem_all_of_mem_declarations (Module.mem_modules.mpr n.toDeclaration.mem_all_self) present
  exact untouched id (Declaration.ownIds_subset inside own)

end Evolution

section Run

variable {signatures : SignatureTable} {m : Module} {names : List String} {context : Context}
  {done ids ids' : List NodeId} {declarations declarations' : List Declaration}
  {state after last : State}

structure Completed (signatures : SignatureTable) (m : Module) (names : List String)
    (context : Context) (done ids : List NodeId) (declarations : List Declaration)
    (state after : State) : Prop where
  between : Between signatures m (done ++ ids) after
  evolves : Evolves (Stable signatures m) state.effects (· ∈ ids) after.effects
  declared : ∀ declaration ∈ declarations,
    ConsistentDeclaration (Stable signatures m) context after.effects declaration
  modules : ∀ declaration ∈ declarations, ∀ n : Module, n.toDeclaration ∈ declaration.all →
    ConsistentModule (Stable signatures m) ⟨signatures, m.nameTables names⟩ after.effects n

theorem Completed.trans
    (first : Completed signatures m names context done ids declarations state after)
    (second : Completed signatures m names context (done ++ ids) ids' declarations' after last)
    (apart : ∀ declaration ∈ declarations, ∀ id ∈ declaration.ids, id ∉ ids') :
    Completed signatures m names context done (ids ++ ids') (declarations ++ declarations')
      state last := by
  refine ⟨?_, ?_, ?_, ?_⟩
  · rw [← List.append_assoc]
    exact second.between
  · apply (first.evolves.trans second.evolves).mono
    intro id touched
    exact List.mem_append.mpr touched
  · intro declaration member
    rcases List.mem_append.mp member with early | late
    · apply (first.declared declaration early).evolves second.evolves
      intro id own
      exact apart declaration early id (Declaration.ownIds_subset declaration.mem_all_self own)
    · exact second.declared declaration late
  · intro declaration member n inside
    rcases List.mem_append.mp member with early | late
    · apply (first.modules declaration early n inside).evolves second.evolves
      intro id own
      exact apart declaration early id (Declaration.ids_subset inside own)
    · exact second.modules declaration late n inside

def Completes (signatures : SignatureTable) (m : Module) (names : List String)
    (declaration : Declaration) : Prop :=
  ∀ {n table done state after}, n ∈ m.modules → (m.nameTables names).get? n.name = some table →
    declaration ∈ n.declarations → declaration.ids.Nodup → (∀ id ∈ declaration.ids, id ∉ done) →
    Between signatures m done state →
    inferDeclaration ⟨signatures, m.nameTables names⟩ ⟨signatures, table, n.scopeTree⟩ state
      declaration = .ok after →
    Completed signatures m names ⟨signatures, table, n.scopeTree⟩ done declaration.ids [declaration]
      state after

theorem inferDeclarations_completed {n : Module} {table : NameTable} (within : n ∈ m.modules)
    (found : (m.nameTables names).get? n.name = some table)
    (each : ∀ declaration ∈ declarations, Completes signatures m names declaration)
    (part : declarations ⊆ n.declarations) (nodup : (declarations.flatMap Declaration.ids).Nodup)
    (new : ∀ id ∈ declarations.flatMap Declaration.ids, id ∉ done)
    (between : Between signatures m done state)
    (run : inferDeclarations ⟨signatures, m.nameTables names⟩ ⟨signatures, table, n.scopeTree⟩ state
      declarations = .ok after) :
    Completed signatures m names ⟨signatures, table, n.scopeTree⟩ done
      (declarations.flatMap Declaration.ids) declarations state after := by
  induction declarations generalizing done state with
  | nil =>
    cases run
    refine ⟨between.mono (List.subset_append_left _ _), Evolves.refl _ _ _, ?_, ?_⟩
    · intro declaration member
      cases member
    · intro declaration member
      cases member
  | cons declaration rest ih =>
    simp only [inferDeclarations, bind_eq_ok] at run
    obtain ⟨middle, first, later⟩ := run
    rw [List.flatMap_cons] at nodup new ⊢
    obtain ⟨nodup_first, nodup_rest, disjoint⟩ := List.nodup_append'.mp nodup
    obtain ⟨present, part⟩ := List.cons_subset.mp part
    have head := each declaration List.mem_cons_self within found present nodup_first
      (fun id member => new id (List.mem_append_left _ member)) between first
    have tail := ih (fun other member => each other (List.mem_cons_of_mem _ member)) part nodup_rest
      (fun id member old => (List.mem_append.mp old).elim (new id (List.mem_append_right _ member))
        fun early => disjoint early member) head.between later
    refine head.trans tail ?_
    intro other member id own
    cases List.mem_singleton.mp member
    exact disjoint own

theorem completed_of_no_expr {declaration : Declaration} (alone : declaration.all = [declaration])
    (no_expr : declaration.expr? = none) (no_module : ∀ n : Module, n.toDeclaration ≠ declaration)
    (between : Between signatures m done state) :
    Completed signatures m names context done declaration.ids [declaration] state state := by
  refine ⟨between.mono (List.subset_append_left _ _), Evolves.refl _ _ _, ?_, ?_⟩
  · intro other member
    cases List.mem_singleton.mp member
    constructor
    · intro node inside
      rw [Declaration.nodes, no_expr] at inside
      cases inside
    · rintro definition rfl
      cases no_expr
  · intro other member n inside
    cases List.mem_singleton.mp member
    rw [alone] at inside
    exact absurd (List.mem_singleton.mp inside) (no_module n)

variable (fixed : ∀ operator effect, signatures.get? operator = some (.fixed effect) →
  effect.Canonical) (distinct : m.ids.Nodup)

include fixed distinct in
theorem completes_operator (definition : Definition) :
    Completes signatures m names (.operator definition) := by
  intro n table done state after within found present nodup new between run
  simp only [inferDeclaration, bind_eq_ok, pure_eq_ok] at run
  obtain ⟨middle, inferred, rfl⟩ := run
  rw [Declaration.ids_operator] at nodup new ⊢
  obtain ⟨different, nodup_body⟩ := List.nodup_cons.mp nodup
  have new_body : ∀ id ∈ definition.body.ids, id ∉ done :=
    fun id member => new id (List.mem_cons_of_mem _ member)
  obtain ⟨first, evolves, consistent⟩ := inferExpr_between fixed distinct within found present rfl
    between new_body nodup_body inferred
  have new_head : definition.id ∉ done ++ definition.body.ids := by
    intro old
    rcases List.mem_append.mp old with early | late
    · exact new definition.id List.mem_cons_self early
    · exact different late
  obtain ⟨second, evolves', same⟩ := copyEffect_between first definition.body.id new_head
  refine ⟨second.mono ?_, (evolves.trans evolves').mono ?_, ?_, ?_⟩
  · intro id member
    simp only [List.mem_append, List.mem_cons] at member ⊢
    tauto
  · intro id touched
    rcases touched with late | early
    · exact List.mem_cons_of_mem _ late
    · exact List.mem_cons.mpr (Or.inl (List.mem_singleton.mp early))
  · intro declaration member
    cases List.mem_singleton.mp member
    constructor
    · intro node inside
      apply (consistent node inside).evolves evolves'
      intro id own head
      rw [List.mem_singleton.mp head] at own
      exact different (Expr.ownIds_subset inside own)
    · intro other same_definition
      cases same_definition
      exact same
  · intro declaration member n inside
    cases List.mem_singleton.mp member
    cases List.mem_singleton.mp inside

include fixed distinct in
theorem completes_assumption (id : NodeId) (name : String) (expr : Expr) :
    Completes signatures m names (.assumption id name expr) := by
  intro n table done state after within found present nodup new between run
  rw [Declaration.ids_assumption] at nodup new ⊢
  obtain ⟨first, evolves, consistent⟩ := inferExpr_between fixed distinct within found present rfl
    between (fun other member => new other (List.mem_cons_of_mem _ member))
    (List.nodup_cons.mp nodup).2 run
  refine ⟨first.mono ?_, evolves.mono fun _ => List.mem_cons_of_mem _, ?_, ?_⟩
  · intro other member
    rcases List.mem_append.mp member with early | late
    · exact List.mem_append_left _ early
    · exact List.mem_append_right _ (List.mem_cons_of_mem _ late)
  · intro declaration member
    cases List.mem_singleton.mp member
    exact ⟨consistent, nofun⟩
  · intro declaration member n inside
    cases List.mem_singleton.mp member
    cases List.mem_singleton.mp inside

theorem completed_module (context : Context) {n : Module} (within : n ∈ m.modules)
    (each : ∀ declaration ∈ n.declarations, Completes signatures m names declaration)
    (nodup : n.toDeclaration.ids.Nodup) (new : ∀ id ∈ n.toDeclaration.ids, id ∉ done)
    (between : Between signatures m done state)
    (run : inferModule ⟨signatures, m.nameTables names⟩ state n = .ok after) :
    Completed signatures m names context done n.toDeclaration.ids [n.toDeclaration] state
      after := by
  simp only [inferModule, bind_eq_ok] at run
  obtain ⟨inner, entered, run⟩ := run
  obtain ⟨table, found, rfl⟩ := context_eq_ok.mp entered
  rw [Module.toDeclaration, Declaration.ids_submodule] at nodup new ⊢
  have parts := inferDeclarations_completed within found each (List.Subset.refl _)
    (List.nodup_cons.mp nodup).2 (fun id member => new id (List.mem_cons_of_mem _ member))
    between run
  refine ⟨parts.between.mono ?_, parts.evolves.mono fun _ => List.mem_cons_of_mem _, ?_, ?_⟩
  · intro id member
    rcases List.mem_append.mp member with early | late
    · exact List.mem_append_left _ early
    · exact List.mem_append_right _ (List.mem_cons_of_mem _ late)
  · intro declaration member
    cases List.mem_singleton.mp member
    exact ⟨List.forall_mem_nil _, fun _ same => Declaration.noConfusion same⟩
  · intro declaration member k inside
    cases List.mem_singleton.mp member
    rw [Declaration.all_submodule] at inside
    rcases List.mem_cons.mp inside with same | inside
    · cases k
      cases same
      exact ⟨table, found, parts.declared⟩
    · obtain ⟨declaration, present, inside⟩ := List.mem_flatMap.mp inside
      exact parts.modules declaration present k inside

include fixed distinct in
theorem inferDeclaration_completes (declaration : Declaration) :
    Completes signatures m names declaration := by
  induction declaration with
  | stateVariable id name =>
    intro n table done state after within found present nodup new between run
    cases run
    exact completed_of_no_expr rfl rfl (fun _ => nofun) between
  | constant id name =>
    intro n table done state after within found present nodup new between run
    cases run
    exact completed_of_no_expr rfl rfl (fun _ => nofun) between
  | operator definition => exact completes_operator fixed distinct definition
  | assumption id name expr => exact completes_assumption fixed distinct id name expr
  | submodule id name declarations ih =>
    intro n table done state after within found present nodup new between run
    have inner : (⟨id, name, declarations⟩ : Module) ∈ m.modules :=
      Module.mem_modules.mpr (Module.mem_all_of_mem_declarations within present)
    exact completed_module _ inner ih nodup new between run

end Run

theorem Consistent.of_sites {stable stable' : NodeId → Prop} {context : Context}
    {effects : SortedMap NodeId Effect}
    (sites : ∀ {operator id definition site}, context.resolve operator id = .ok (some definition) →
      MeansOperator definition site → stable' site → stable site)
    {expr : Expr} (consistent : Consistent stable context effects expr) :
    Consistent stable' context effects expr := by
  cases expr with
  | app id operator args =>
    intro result recorded
    obtain ⟨inputs, each, fits⟩ := consistent result recorded
    refine ⟨inputs, each, fits.builtin, ?_⟩
    intro definition site resolved means stable
    exact fits.defined definition site resolved means (sites resolved means stable)
  | _ => exact consistent

/-- When a module is done, all recorded effects fit together. The uses of an operator are instances
of what its definition does in the end where signatures are kept apart from the parameters of the
module; all else holds in any case. -/
theorem recorded_effects_fit_together {signatures : SignatureTable} {m : Module}
    {names : List String} {state : State}
    (fixed : ∀ operator effect, signatures.get? operator = some (.fixed effect) → effect.Canonical)
    (distinct : m.ids.Nodup)
    (run : inferModule ⟨signatures, m.nameTables names⟩ .start m = .ok state) :
    ∀ n ∈ m.modules, ConsistentModule (fun _ => Apart signatures m)
      ⟨signatures, m.nameTables names⟩ state.effects n := by
  intro n within
  have itself : m ∈ m.modules := Module.mem_modules.mpr m.toDeclaration.mem_all_self
  have completed := completed_module ⟨signatures, ⟨[]⟩, m.scopeTree⟩ itself
    (fun declaration _ => inferDeclaration_completes fixed distinct declaration) distinct
    (fun _ _ => List.not_mem_nil) (.start signatures m) run
  obtain ⟨table, found, each⟩ :=
    completed.modules _ List.mem_cons_self n (Module.mem_modules.mp within)
  refine ⟨table, found, fun declaration present => ⟨?_, (each declaration present).body⟩⟩
  intro node member
  -- Names mean operators of modules at the nodes of their declarations, and these are stable.
  apply ((each declaration present).nodes node member).of_sites
  intro operator id definition site resolved means apart
  have listed := (NameTable.resolve_spec (mapError_eq_ok.mp resolved)).1
  exact ⟨apart, Module.site_of_operator found listed means.2.1 means.2.2⟩

/-- A module with a nested one, where an operator is used at different effects. -/
theorem fitting_effects_of_nested_modules :
    let signatures : SignatureTable := .ofList
      [("b", .fixed (.arrow [.quantified "q"] (.quantified "q"))),
        ("c", .fixed (.arrow [.arrow [.reads "x"] (.quantified "q")] (.quantified "q")))]
    let m : Module := ⟨⟨1⟩, "M",
      [.operator ⟨⟨2⟩, "f", .ref ⟨3⟩ "b"⟩,
        .operator ⟨⟨4⟩, "g", .app ⟨5⟩ "f" [.literal ⟨6⟩ (.int 1)]⟩,
        .submodule ⟨7⟩ "N"
          [.operator ⟨⟨8⟩, "h", .app ⟨9⟩ "c" [.lambda ⟨10⟩ [⟨⟨11⟩, "p"⟩] (.ref ⟨12⟩ "p")]⟩],
        .assumption ⟨13⟩ "k"
          (.letIn ⟨14⟩ ⟨15⟩ "y" (.app ⟨16⟩ "f" [.ref ⟨17⟩ "f"]) (.ref ⟨18⟩ "y"))]⟩
    (∀ operator effect, signatures.get? operator = some (.fixed effect) → effect.Canonical) ∧
      m.ids.Nodup ∧ Apart signatures m ∧
      ∃ state, inferModule ⟨signatures, m.nameTables ["b", "c"]⟩ .start m = .ok state ∧
        state.effects.get? ⟨2⟩ = some (.arrow [.quantified "_e0"] (.quantified "_e0")) ∧
        state.effects.get? ⟨5⟩ = some .empty ∧ state.effects.get? ⟨9⟩ = some (.reads "x") ∧
        ∀ n ∈ m.modules, ConsistentModule (fun _ => Apart signatures m)
          ⟨signatures, m.nameTables ["b", "c"]⟩ state.effects n := by
  intro signatures m
  have fixed : ∀ operator effect, signatures.get? operator = some (.fixed effect) →
      effect.Canonical := by
    intro operator effect found
    rcases List.mem_pair.mp (SortedMap.mem_of_get?_ofList found) with same | same
    · cases same
      decide
    · cases same
      decide
  have distinct : m.ids.Nodup := by decide
  have apart : Apart signatures m := by
    rintro name placed ⟨operator, effect, found, used⟩
    have marked : name = "e_p_10" := List.mem_singleton.mp placed
    subst marked
    rcases List.mem_pair.mp (SortedMap.mem_of_get?_ofList found) with same | same
    · cases same
      exact absurd used (by decide)
    · cases same
      exact absurd used (by decide)
  obtain ⟨state, run, effects⟩ := exists_ok _ (show
    ((inferModule ⟨signatures, m.nameTables ["b", "c"]⟩ .start m).toOption.map
      fun state => [⟨2⟩, ⟨5⟩, ⟨9⟩].map state.effects.get?) =
      some [some (.arrow [.quantified "_e0"] (.quantified "_e0")), some .empty, some (.reads "x")]
    by decide)
  simp only [List.map_cons, List.map_nil, List.cons.injEq, and_true] at effects
  obtain ⟨at_f, at_use, at_call⟩ := effects
  exact ⟨fixed, distinct, apart, state, run, at_f, at_use, at_call,
    recorded_effects_fit_together fixed distinct run⟩

/-- A signature that speaks of the unknown effect of a parameter of the module. What is learned
about the parameter of the lambda changes the effect of `f`, and its use in `g` no longer fits. -/
theorem operator_changes_after_its_use :
    let signatures : SignatureTable := .ofList
      [("b", .fixed (.arrow [.quantified "e_p_7"] (.quantified "e_p_7"))),
        ("c", .fixed (.arrow [.arrow [.reads "x"] (.quantified "e2")] (.quantified "e2")))]
    let m : Module := ⟨⟨1⟩, "M",
      [.operator ⟨⟨2⟩, "f", .ref ⟨3⟩ "b"⟩,
        .operator ⟨⟨4⟩, "g", .app ⟨5⟩ "f" [.literal ⟨6⟩ (.int 1)]⟩,
        .operator ⟨⟨8⟩, "h", .app ⟨9⟩ "c" [.lambda ⟨7⟩ [⟨⟨10⟩, "p"⟩] (.ref ⟨11⟩ "p")]⟩]⟩
    let env : Environment := ⟨signatures, m.nameTables ["b", "c"]⟩
    (∀ operator effect, signatures.get? operator = some (.fixed effect) →
        effect.Canonical ∧ (Vocabulary.usedIn [effect]).Separate) ∧
      m.ids.Nodup ∧ ∃ state, inferModule env .start m = .ok state ∧
        state.effects.get? ⟨2⟩ = some (.arrow [.reads "x"] (.reads "x")) ∧
        state.effects.get? ⟨6⟩ = some .empty ∧ state.effects.get? ⟨5⟩ = some .empty ∧
        (∀ θ : Substitution,
          θ.apply (.arrow [.reads "x"] (.reads "x")) ≠ .ok (.arrow [.empty] .empty)) ∧
        ¬ ConsistentModule (fun _ => True) env state.effects m := by
  intro signatures m env
  have fixed : ∀ operator effect, signatures.get? operator = some (.fixed effect) →
      effect.Canonical ∧ (Vocabulary.usedIn [effect]).Separate := by
    intro operator effect found
    rcases List.mem_pair.mp (SortedMap.mem_of_get?_ofList found) with same | same
    · cases same
      decide
    · cases same
      decide
  obtain ⟨state, run, effects⟩ := exists_ok _ (show
    ((inferModule env .start m).toOption.map fun state => [⟨2⟩, ⟨6⟩, ⟨5⟩].map state.effects.get?) =
      some [some (.arrow [.reads "x"] (.reads "x")), some .empty, some .empty] by decide)
  simp only [List.map_cons, List.map_nil, List.cons.injEq, and_true] at effects
  obtain ⟨at_f, at_argument, at_use⟩ := effects
  have no_instance : ∀ (θ : Substitution) (inputs : List Effect),
      θ.apply (.arrow [.reads "x"] (.reads "x")) ≠ .ok (.arrow inputs .empty) := by
    intro θ inputs applied
    obtain ⟨_, _, _, result, same⟩ := Substitution.apply_arrow.mp applied
    cases same
    have unchanged : θ.apply (.reads "x") = .ok (.reads "x") :=
      Substitution.apply_self (canonical_reads "x") fun kind name used =>
        (over_reads (fun _ _ => False) "x" kind name used).elim
    exact absurd (Except.ok.inj (result.symm.trans unchanged)) (by decide)
  refine ⟨fixed, by decide, state, run, at_f, at_argument, at_use, fun θ => no_instance θ _, ?_⟩
  rintro ⟨table, found, each⟩
  have own : env.tables.get? m.name = some (.ofDeclarations ["b", "c"] m.declarations) := rfl
  cases own.symm.trans found
  have declared := each (.operator ⟨⟨4⟩, "g", .app ⟨5⟩ "f" [.literal ⟨6⟩ (.int 1)]⟩)
    (List.mem_cons_of_mem _ List.mem_cons_self)
  obtain ⟨inputs, _, fits⟩ := declared.nodes _ List.mem_cons_self .empty at_use
  obtain ⟨general, recorded, θ, _, _, applied⟩ :=
    fits.defined ⟨.operator, "f", some ⟨2⟩, none⟩ ⟨2⟩ (by decide) ⟨rfl, rfl, rfl⟩ trivial
  cases at_f.symm.trans recorded
  exact no_instance θ inputs applied

end SpecEffects.Inference
