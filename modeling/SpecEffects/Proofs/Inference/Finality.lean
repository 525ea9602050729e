import SpecEffects.Proofs.Inference.Annotation
import SpecEffects.Proofs.Inference.Totality

/-!
A declaration that has been inferred is done with. Where no signature speaks of the unknown effect of
a parameter of the module, later declarations do not change the effects of its nodes, however they
use its operators.
-/
namespace SpecEffects.Inference

/-- Inference of these declarations finishes this one, of their own or of a module among them, and is
then in this state. -/
inductive Finishes (env : Environment) (declaration : Declaration) (finished : State) :
    Context → State → List Declaration → Prop
  | here {context : Context} {state middle : State} {declarations before rest : List Declaration}
    (parts : declarations = before ++ declaration :: rest)
    (early : inferDeclarations env context state before = .ok middle)
    (now : inferDeclaration env context middle declaration = .ok finished) :
    Finishes env declaration finished context state declarations
  | inside {context inner : Context} {state middle : State}
    {declarations before rest : List Declaration} {n : Module}
    (parts : declarations = before ++ n.toDeclaration :: rest)
    (early : inferDeclarations env context state before = .ok middle)
    (entered : env.context middle n = .ok inner)
    (within : Finishes env declaration finished inner middle n.declarations) :
    Finishes env declaration finished context state declarations

theorem Finishes.ids_subset {env : Environment} {declaration : Declaration} {finished state : State}
    {context : Context} {declarations : List Declaration}
    (finishes : Finishes env declaration finished context state declarations) :
    declaration.ids ⊆ declarations.flatMap Declaration.ids := by
  intro id own
  induction finishes with
  | here parts _ _ =>
    subst parts
    exact List.mem_flatMap.mpr ⟨declaration, List.mem_append_right _ List.mem_cons_self, own⟩
  | @inside _ _ _ _ _ _ _ n parts _ _ _ ih =>
    subst parts
    refine List.mem_flatMap.mpr ⟨n.toDeclaration, List.mem_append_right _ List.mem_cons_self, ?_⟩
    rw [Module.toDeclaration, Declaration.ids_submodule]
    exact List.mem_cons_of_mem _ ih

theorem inferDeclarations_append (env : Environment) (context : Context) (state : State)
    (before others : List Declaration) :
    inferDeclarations env context state (before ++ others) =
      (inferDeclarations env context state before).bind fun middle =>
        inferDeclarations env context middle others := by
  induction before generalizing state with
  | nil => rfl
  | cons declaration before ih =>
    rw [List.cons_append, inferDeclarations, inferDeclarations]
    cases inferDeclaration env context state declaration with
    | error halt => rfl
    | ok middle => exact ih middle

theorem inferDeclarations_around_eq_ok {env : Environment} {context : Context} {state after : State}
    {before rest : List Declaration} {declaration : Declaration} :
    inferDeclarations env context state (before ++ declaration :: rest) = .ok after ↔
      ∃ first second, inferDeclarations env context state before = .ok first ∧
        inferDeclaration env context first declaration = .ok second ∧
        inferDeclarations env context second rest = .ok after := by
  rw [inferDeclarations_append]
  constructor
  · intro run
    obtain ⟨first, early, run⟩ := bind_eq_ok.mp run
    rw [inferDeclarations] at run
    obtain ⟨second, middle, late⟩ := bind_eq_ok.mp run
    exact ⟨first, second, early, middle, late⟩
  · rintro ⟨first, second, early, middle, late⟩
    refine bind_eq_ok.mpr ⟨first, early, ?_⟩
    rw [inferDeclarations]
    exact bind_eq_ok.mpr ⟨second, middle, late⟩

section Module

variable {signatures : SignatureTable} {m n : Module} {names : List String} {table : NameTable}
  {done : List NodeId} {state after : State}

theorem Apart.unmentioned (apart : Apart signatures m) {declaration : Declaration}
    (member : declaration ∈ m.toDeclaration.all) {expr : Expr}
    (holds : declaration.expr? = some expr) :
    ∀ name ∈ expr.placeholders, ¬ Mentioned signatures name := by
  intro name placed
  refine apart name (List.mem_flatMap.mpr ⟨declaration, member, ?_⟩)
  rw [holds]
  exact placed

variable (fixed : ∀ operator effect, signatures.get? operator = some (.fixed effect) →
  effect.Canonical) (distinct : m.ids.Nodup) (apart : Apart signatures m)

include fixed distinct apart

theorem inferExpr_unchanged (within : n ∈ m.modules)
    (found : (m.nameTables names).get? n.name = some table) {declaration : Declaration}
    (present : declaration ∈ n.declarations) {expr : Expr} (holds : declaration.expr? = some expr)
    (between : Between signatures m done state) (disjoint : ∀ id ∈ expr.ids, id ∉ done)
    (nodup : expr.ids.Nodup)
    (run : inferExpr ⟨signatures, table, n.scopeTree⟩ state expr = .ok after) {id : NodeId}
    (outside : id ∉ expr.ids) : after.effects.get? id = state.effects.get? id := by
  have missing : ∀ id ∈ expr.ids, state.effects.get? id = none :=
    fun id member => between.missing (disjoint id member)
  have begun := (between.apart apart).start disjoint missing
    (apart.unmentioned (Module.mem_all_of_mem_declarations within present) holds)
  -- All nodes outside of the expression are stable, not only those of declarations.
  have fits : Fitting (.ofExpr state.fresh done expr disjoint) (Mentioned signatures)
      (Stable signatures m) ⟨signatures, table, n.scopeTree⟩ :=
    fitting_expr fixed distinct within found present holds disjoint
  have stable : Fitting (.ofExpr state.fresh done expr disjoint) (Mentioned signatures)
      (fun id => id ∉ expr.ids) ⟨signatures, table, n.scopeTree⟩ :=
    ⟨fun _ out => out, fits.signatures, fits.sites⟩
  obtain ⟨σ, evolves⟩ := (inferExpr_extends stable expr run begun
    ⟨nodup, fun _ member => member, missing, fun _ member => member⟩).evolves
  cases before : state.effects.get? id with
  | none => exact evolves.unrecorded before outside
  | some effect =>
    obtain ⟨result, _, recorded, same⟩ := evolves.kept before
    rw [recorded, same outside]

omit fixed distinct apart in
theorem copyEffect_unchanged (state : State) {id source other : NodeId} (different : other ≠ id) :
    (state.copyEffect id source).effects.get? other = state.effects.get? other := by
  have step := copyEffect_step state id source
  generalize state.copyEffect id source = after at step ⊢
  cases step with
  | copied => rw [get?_record, if_neg different.symm]
  | skipped => rfl

omit fixed distinct apart in
def Unchanging (signatures : SignatureTable) (m : Module) (names : List String)
    (declaration : Declaration) : Prop :=
  ∀ {n table done state after}, n ∈ m.modules → (m.nameTables names).get? n.name = some table →
    declaration ∈ n.declarations → declaration.ids.Nodup → (∀ id ∈ declaration.ids, id ∉ done) →
    Between signatures m done state →
    inferDeclaration ⟨signatures, m.nameTables names⟩ ⟨signatures, table, n.scopeTree⟩ state
      declaration = .ok after →
    ∀ id, id ∉ declaration.ids → after.effects.get? id = state.effects.get? id

omit apart in
theorem inferDeclarations_unchanged (within : n ∈ m.modules)
    (found : (m.nameTables names).get? n.name = some table) {declarations : List Declaration}
    (each : ∀ declaration ∈ declarations, Unchanging signatures m names declaration)
    (part : declarations ⊆ n.declarations) (nodup : (declarations.flatMap Declaration.ids).Nodup)
    (new : ∀ id ∈ declarations.flatMap Declaration.ids, id ∉ done)
    (between : Between signatures m done state)
    (run : inferDeclarations ⟨signatures, m.nameTables names⟩ ⟨signatures, table, n.scopeTree⟩ state
      declarations = .ok after) {id : NodeId}
    (outside : id ∉ declarations.flatMap Declaration.ids) :
    after.effects.get? id = state.effects.get? id := by
  induction declarations generalizing done state with
  | nil =>
    cases run
    rfl
  | cons declaration rest ih =>
    simp only [inferDeclarations, bind_eq_ok] at run
    obtain ⟨middle, first, later⟩ := run
    simp only [List.flatMap_cons, List.mem_append, not_or] at nodup new outside
    obtain ⟨nodup_first, nodup_rest, disjoint⟩ := List.nodup_append'.mp nodup
    obtain ⟨present, part⟩ := List.cons_subset.mp part
    have new_first : ∀ id ∈ declaration.ids, id ∉ done := fun id member => new id (Or.inl member)
    have completed := inferDeclaration_completes fixed distinct declaration within found present
      nodup_first new_first between first
    calc after.effects.get? id = middle.effects.get? id :=
          ih (fun other member => each other (List.mem_cons_of_mem _ member)) part nodup_rest
            (fun other member old => (List.mem_append.mp old).elim (new other (Or.inr member))
              fun early => disjoint early member) completed.between later outside.2
      _ = state.effects.get? id :=
          each declaration List.mem_cons_self within found present nodup_first new_first between first
            id outside.1

theorem inferDeclaration_unchanging (declaration : Declaration) :
    Unchanging signatures m names declaration := by
  induction declaration with
  | stateVariable declared name =>
    intro n table done state after _ _ _ _ _ _ run id _
    cases run
    rfl
  | constant declared name =>
    intro n table done state after _ _ _ _ _ _ run id _
    cases run
    rfl
  | operator definition =>
    intro n table done state after within found present nodup new between run id outside
    simp only [inferDeclaration, bind_eq_ok, pure_eq_ok] at run
    obtain ⟨middle, inner, rfl⟩ := run
    rw [Declaration.ids_operator] at nodup new outside
    rw [List.mem_cons, not_or] at outside
    rw [copyEffect_unchanged middle outside.1]
    exact inferExpr_unchanged fixed distinct apart within found present rfl between
      (fun other member => new other (List.mem_cons_of_mem _ member)) (List.nodup_cons.mp nodup).2
      inner outside.2
  | assumption declared name expr =>
    intro n table done state after within found present nodup new between run id outside
    rw [Declaration.ids_assumption] at nodup new outside
    exact inferExpr_unchanged fixed distinct apart within found present rfl between
      (fun other member => new other (List.mem_cons_of_mem _ member)) (List.nodup_cons.mp nodup).2
      run fun inside => outside (List.mem_cons_of_mem _ inside)
  | submodule declared name declarations ih =>
    intro n table done state after within found present nodup new between run id outside
    have inner : (⟨declared, name, declarations⟩ : Module) ∈ m.modules :=
      Module.mem_modules.mpr (Module.mem_all_of_mem_declarations within present)
    simp only [inferDeclaration, bind_eq_ok] at run
    obtain ⟨context, entered, run⟩ := run
    obtain ⟨table', found', rfl⟩ := context_eq_ok.mp entered
    rw [Declaration.ids_submodule] at nodup new outside
    exact inferDeclarations_unchanged fixed distinct inner found' ih (List.Subset.refl _)
      (List.nodup_cons.mp nodup).2 (fun other member => new other (List.mem_cons_of_mem _ member))
      between run fun inside => outside (List.mem_cons_of_mem _ inside)

theorem inferDeclarations_around {before rest : List Declaration} {current : Declaration}
    {middle last : State} (within : n ∈ m.modules)
    (found : (m.nameTables names).get? n.name = some table)
    (parts : n.declarations = before ++ current :: rest)
    (nodup : (n.declarations.flatMap Declaration.ids).Nodup)
    (new : ∀ id ∈ n.declarations.flatMap Declaration.ids, id ∉ done)
    (between : Between signatures m done state)
    (early : inferDeclarations ⟨signatures, m.nameTables names⟩ ⟨signatures, table, n.scopeTree⟩ state
      before = .ok middle)
    (now : inferDeclaration ⟨signatures, m.nameTables names⟩ ⟨signatures, table, n.scopeTree⟩ middle
      current = .ok last)
    (late : inferDeclarations ⟨signatures, m.nameTables names⟩ ⟨signatures, table, n.scopeTree⟩ last
      rest = .ok after) :
    Between signatures m (done ++ before.flatMap Declaration.ids) middle ∧ current.ids.Nodup ∧
      (∀ id ∈ current.ids, id ∉ done ++ before.flatMap Declaration.ids) ∧
      ∀ id ∈ current.ids, after.effects.get? id = last.effects.get? id := by
  have member : ∀ {declaration}, declaration ∈ before ++ current :: rest →
      declaration ∈ n.declarations := fun inside => parts ▸ inside
  rw [parts, List.flatMap_append, List.flatMap_cons] at nodup new
  obtain ⟨nodup_before, nodup_rest, disjoint⟩ := List.nodup_append'.mp nodup
  obtain ⟨nodup_current, nodup_rest, disjoint'⟩ := List.nodup_append'.mp nodup_rest
  have started := inferDeclarations_completed within found
    (fun declaration _ => inferDeclaration_completes fixed distinct declaration)
    (fun _ inside => member (List.mem_append_left _ inside)) nodup_before
    (fun id inside => new id (List.mem_append_left _ inside)) between early
  have fresh : ∀ id ∈ current.ids ++ rest.flatMap Declaration.ids,
      id ∉ done ++ before.flatMap Declaration.ids := fun id inside old =>
    (List.mem_append.mp old).elim (new id (List.mem_append_right _ inside))
      fun earlier => disjoint earlier inside
  have finished := inferDeclaration_completes fixed distinct current within found
    (member (List.mem_append_right _ List.mem_cons_self)) nodup_current
    (fun id inside => fresh id (List.mem_append_left _ inside)) started.between now
  refine ⟨started.between, nodup_current, fun id inside => fresh id (List.mem_append_left _ inside),
    fun id inside => ?_⟩
  refine inferDeclarations_unchanged fixed distinct within found
    (fun declaration _ => inferDeclaration_unchanging fixed distinct apart declaration)
    (fun _ later => member (List.mem_append_right _ (List.mem_cons_of_mem _ later))) nodup_rest
    (fun id later old => ?_) finished.between late (disjoint' inside)
  rcases List.mem_append.mp old with earlier | now
  · exact fresh id (List.mem_append_right _ later) earlier
  · exact disjoint' now later

theorem Finishes.unchanged {declaration : Declaration} {finished : State}
    (finishes : Finishes ⟨signatures, m.nameTables names⟩ declaration finished
      ⟨signatures, table, n.scopeTree⟩ state n.declarations)
    (within : n ∈ m.modules) (found : (m.nameTables names).get? n.name = some table)
    (nodup : (n.declarations.flatMap Declaration.ids).Nodup)
    (new : ∀ id ∈ n.declarations.flatMap Declaration.ids, id ∉ done)
    (between : Between signatures m done state)
    (run : inferDeclarations ⟨signatures, m.nameTables names⟩ ⟨signatures, table, n.scopeTree⟩ state
      n.declarations = .ok after) :
    ∀ id ∈ declaration.ids, after.effects.get? id = finished.effects.get? id := by
  generalize own : (⟨signatures, table, n.scopeTree⟩ : Context) = context at finishes
  generalize listed : n.declarations = declarations at finishes
  induction finishes generalizing n table done after with
  | @here context state middle _ before rest parts early now =>
    subst own listed
    rw [parts, inferDeclarations_around_eq_ok] at run
    obtain ⟨middle', last, early', now', late⟩ := run
    cases early.symm.trans early'
    cases now.symm.trans now'
    exact (inferDeclarations_around fixed distinct apart within found parts nodup new between early now
      late).2.2.2
  | @inside context inner state middle _ before rest k parts early entered deeper ih =>
    subst own listed
    rw [parts, inferDeclarations_around_eq_ok] at run
    obtain ⟨middle', last, early', now, late⟩ := run
    cases early.symm.trans early'
    obtain ⟨started, nodup_module, fresh, kept⟩ := inferDeclarations_around fixed distinct apart within
      found parts nodup new between early now late
    have present : k.toDeclaration ∈ n.declarations := by simp [parts]
    have among : k ∈ m.modules :=
      Module.mem_modules.mpr (Module.mem_all_of_mem_declarations within present)
    simp only [Module.toDeclaration, inferDeclaration, bind_eq_ok] at now
    obtain ⟨inner', entered', now⟩ := now
    cases entered.symm.trans entered'
    obtain ⟨table', found', rfl⟩ := context_eq_ok.mp entered
    rw [Module.toDeclaration, Declaration.ids_submodule] at nodup_module fresh kept
    have inside := ih among found' (List.nodup_cons.mp nodup_module).2
      (fun id member => fresh id (List.mem_cons_of_mem _ member)) started now rfl rfl
    intro id own
    rw [kept id (List.mem_cons_of_mem _ (deeper.ids_subset own)), inside id own]

omit fixed apart in
theorem exists_finishes {k : Module} (among : k ∈ m.modules)
    (found : (m.nameTables names).get? k.name = some table)
    (within : n.toDeclaration ∈ k.toDeclaration.all) {declaration : Declaration}
    (present : declaration ∈ n.declarations) (state : State) :
    ∃ finished, Finishes ⟨signatures, m.nameTables names⟩ declaration finished
      ⟨signatures, table, k.scopeTree⟩ state k.declarations := by
  generalize root : k.toDeclaration = whole at within
  induction whole generalizing k table state with
  | submodule _ _ _ ih =>
    obtain ⟨id, name, declarations⟩ := k
    cases root
    have total := fun {current} member state =>
      @inferDeclaration_total m _ names table current distinct signatures among found member state
    have reached : ∀ {current}, current ∈ declarations → ∃ before rest middle,
        declarations = before ++ current :: rest ∧
        inferDeclarations ⟨signatures, m.nameTables names⟩
          ⟨signatures, table, Module.scopeTree ⟨id, name, declarations⟩⟩ state before = .ok middle := by
      intro current member
      obtain ⟨before, rest, parts⟩ := List.append_of_mem member
      obtain ⟨middle, early⟩ := inferDeclarations_total
        (fun declaration inside state => total (parts ▸ List.mem_append_left _ inside) state) state
      exact ⟨before, rest, middle, parts, early⟩
    rw [Declaration.all_submodule] at within
    rcases List.mem_cons.mp within with same | deeper
    · obtain ⟨_, _, _⟩ := n
      cases same
      obtain ⟨before, rest, middle, parts, early⟩ := reached present
      obtain ⟨finished, now⟩ := total present middle
      exact ⟨finished, .here parts early now⟩
    · obtain ⟨outer, member, deeper⟩ := List.mem_flatMap.mp deeper
      cases outer with
      | submodule innerId innerName inside =>
        let inner : Module := ⟨innerId, innerName, inside⟩
        have further : inner ∈ m.modules :=
          Module.mem_modules.mpr (Module.mem_all_of_mem_declarations among member)
        obtain ⟨table', found'⟩ := Module.exists_table names further
        obtain ⟨before, rest, middle, parts, early⟩ := reached member
        obtain ⟨finished, finishes⟩ := ih inner.toDeclaration member further found' middle rfl deeper
        refine ⟨finished, .inside parts early ?_ finishes⟩
        exact context_eq_ok.mpr ⟨table', found', rfl⟩
      | _ => cases List.mem_singleton.mp deeper
  | _ => cases root

end Module

def FinishesIn (env : Environment) (m : Module) (declaration : Declaration) (finished : State) : Prop :=
  ∃ context, env.context .start m = .ok context ∧
    Finishes env declaration finished context .start m.declarations

/-- Every declaration of a module, at any depth, is finished before the module is, and all its nodes
have then the effects that they have in the end. Signatures have to be kept apart from the parameters
of the module. -/
theorem finished_declarations_are_final {signatures : SignatureTable} {m : Module}
    (names : List String)
    (fixed : ∀ operator effect, signatures.get? operator = some (.fixed effect) → effect.Canonical)
    (distinct : m.ids.Nodup) (apart : Apart signatures m) :
    ∃ final, inferModule ⟨signatures, m.nameTables names⟩ .start m = .ok final ∧
      ∀ n ∈ m.modules, ∀ declaration ∈ n.declarations,
        (∃ finished, FinishesIn ⟨signatures, m.nameTables names⟩ m declaration finished) ∧
        ∀ finished, FinishesIn ⟨signatures, m.nameTables names⟩ m declaration finished →
          ∀ id ∈ declaration.ids, final.effects.get? id = finished.effects.get? id := by
  have itself : m ∈ m.modules := Module.mem_modules.mpr m.toDeclaration.mem_all_self
  obtain ⟨table, found⟩ := Module.exists_table names itself
  obtain ⟨final, run⟩ : ∃ final, inferModule ⟨signatures, m.nameTables names⟩ .start m = .ok final :=
    inferModule_total distinct .start
  have entered : Environment.context ⟨signatures, m.nameTables names⟩ .start m =
      .ok ⟨signatures, table, m.scopeTree⟩ := by
    simp only [Environment.context, found]
  have inner : inferDeclarations ⟨signatures, m.nameTables names⟩ ⟨signatures, table, m.scopeTree⟩
      .start m.declarations = .ok final := by
    simpa only [inferModule, entered, bind, Except.bind] using run
  have nodup : (m.declarations.flatMap Declaration.ids).Nodup := by
    have all := distinct
    rw [Module.ids, Module.toDeclaration, Declaration.ids_submodule] at all
    exact (List.nodup_cons.mp all).2
  refine ⟨final, run, fun n within declaration present => ⟨?_, ?_⟩⟩
  · obtain ⟨finished, finishes⟩ := exists_finishes distinct itself found
      (Module.mem_modules.mp within) present .start
    exact ⟨finished, _, entered, finishes⟩
  · rintro finished ⟨context, entered', finishes⟩
    cases entered.symm.trans entered'
    exact finishes.unchanged fixed distinct apart itself found nodup (fun _ _ => List.not_mem_nil)
      (.start signatures m) inner

/-- An operator with an unknown parameter, which a nested module and a later declaration use at
different effects. -/
theorem final_effects_of_used_operator :
    let signatures : SignatureTable := .ofList
      [("c", .fixed (.arrow [.arrow [.reads "x"] (.quantified "q")] (.quantified "q")))]
    let f : Declaration := .operator ⟨⟨2⟩, "f", .lambda ⟨3⟩ [⟨⟨4⟩, "p"⟩] (.ref ⟨5⟩ "p")⟩
    let m : Module := ⟨⟨1⟩, "M",
      [f, .operator ⟨⟨6⟩, "g", .app ⟨7⟩ "c" [.ref ⟨8⟩ "f"]⟩,
        .submodule ⟨9⟩ "N" [.assumption ⟨10⟩ "k" (.lambda ⟨11⟩ [⟨⟨12⟩, "p"⟩] (.ref ⟨13⟩ "p"))],
        .assumption ⟨14⟩ "l" (.app ⟨15⟩ "f" [.literal ⟨16⟩ (.int 1)])]⟩
    let env : Environment := ⟨signatures, m.nameTables ["c"]⟩
    (∀ operator effect, signatures.get? operator = some (.fixed effect) → effect.Canonical) ∧
      m.ids.Nodup ∧ Apart signatures m ∧
      ∃ final finished, inferModule env .start m = .ok final ∧ FinishesIn env m f finished ∧
        final.effects.get? ⟨7⟩ = some (.reads "x") ∧ final.effects.get? ⟨15⟩ = some .empty ∧
        ∀ id ∈ f.ids, final.effects.get? id = finished.effects.get? id := by
  intro signatures f m env
  have fixed : ∀ operator effect, signatures.get? operator = some (.fixed effect) →
      effect.Canonical := by
    intro operator effect found
    cases List.mem_singleton.mp (SortedMap.mem_of_get?_ofList found)
    decide
  have apart : Apart signatures m := by
    rintro name placed ⟨operator, effect, found, used⟩
    cases List.mem_singleton.mp (SortedMap.mem_of_get?_ofList found)
    rcases List.mem_pair.mp placed with rfl | rfl
    · exact absurd used (by decide)
    · exact absurd used (by decide)
  obtain ⟨final, run, each⟩ := finished_declarations_are_final ["c"] fixed (by decide) apart
  obtain ⟨⟨finished, finishes⟩, same⟩ := each m (Module.mem_modules.mpr m.toDeclaration.mem_all_self) f
    List.mem_cons_self
  obtain ⟨state, run', effects⟩ := exists_ok _ (show
    ((inferModule env .start m).toOption.map fun state => [⟨7⟩, ⟨15⟩].map state.effects.get?) =
      some [some (.reads "x"), some .empty] by decide)
  cases run.symm.trans run'
  simp only [List.map_cons, List.map_nil, List.cons.injEq, and_true] at effects
  exact ⟨fixed, by decide, apart, final, finished, run, finishes, effects.1, effects.2,
    same finished finishes⟩

/-- A signature that speaks of the unknown effect of a parameter of a later declaration. What is learned
there about the parameter changes the effect of `f`. -/
theorem finished_operator_changes :
    let signatures : SignatureTable := .ofList
      [("b", .fixed (.arrow [.quantified "e_p_7"] (.quantified "e_p_7"))),
        ("c", .fixed (.arrow [.arrow [.reads "x"] (.quantified "e2")] (.quantified "e2")))]
    let f : Declaration := .operator ⟨⟨2⟩, "f", .ref ⟨3⟩ "b"⟩
    let m : Module := ⟨⟨1⟩, "M",
      [f, .operator ⟨⟨8⟩, "h", .app ⟨9⟩ "c" [.lambda ⟨7⟩ [⟨⟨10⟩, "p"⟩] (.ref ⟨11⟩ "p")]⟩]⟩
    let env : Environment := ⟨signatures, m.nameTables ["b", "c"]⟩
    (∀ operator effect, signatures.get? operator = some (.fixed effect) → effect.Canonical) ∧
      m.ids.Nodup ∧ ∃ final finished, inferModule env .start m = .ok final ∧
        FinishesIn env m f finished ∧
        finished.effects.get? ⟨2⟩ = some (.arrow [.quantified "_e0"] (.quantified "_e0")) ∧
        final.effects.get? ⟨2⟩ = some (.arrow [.reads "x"] (.reads "x")) := by
  intro signatures f m env
  have fixed : ∀ operator effect, signatures.get? operator = some (.fixed effect) →
      effect.Canonical := by
    intro operator effect found
    rcases List.mem_pair.mp (SortedMap.mem_of_get?_ofList found) with same | same
    · cases same
      decide
    · cases same
      decide
  let context : Context := ⟨signatures, .ofDeclarations ["b", "c"] m.declarations, m.scopeTree⟩
  obtain ⟨final, run, effects⟩ := exists_ok _ (show
    ((inferModule env .start m).toOption.map fun state => [⟨2⟩].map state.effects.get?) =
      some [some (.arrow [.reads "x"] (.reads "x"))] by decide)
  obtain ⟨finished, now, effects'⟩ := exists_ok _ (show
    ((inferDeclaration env context .start f).toOption.map fun state => [⟨2⟩].map state.effects.get?) =
      some [some (.arrow [.quantified "_e0"] (.quantified "_e0"))] by decide)
  have first : m.declarations = [] ++ f :: m.declarations.tail := rfl
  have finishes : FinishesIn env m f finished := ⟨context, rfl, .here first rfl now⟩
  exact ⟨fixed, by decide, final, finished, run, finishes, (List.cons.inj effects').1,
    (List.cons.inj effects).1⟩

end SpecEffects.Inference
