import SpecEffects.Proofs.Inference.Abreast
import SpecEffects.Proofs.StandardSignatures

/-!
Declarations that nobody refers to. Such a declaration can be taken out of a module, whether or not
something goes wrong in it. Everything before it is inferred as it was. What comes after it is inferred
abreast in both modules, from two states that differ in the nodes of this declaration only.
-/
namespace SpecEffects

namespace Declaration

/-- One declaration is taken out, from these ones or from a module among them. The last list has those
that come after it. -/
inductive Removed (gone : Declaration) :
    List Declaration → List Declaration → List Declaration → Prop
  | here (before after : List Declaration) :
    Removed gone (before ++ gone :: after) (before ++ after) after
  | inside (id : NodeId) (name : String) (before after : List Declaration)
    {declarations declarations' later : List Declaration}
    (removed : Removed gone declarations declarations' later) :
    Removed gone (before ++ .submodule id name declarations :: after)
      (before ++ .submodule id name declarations' :: after) (later ++ after)

namespace Removed

variable {gone : Declaration} {declarations declarations' later : List Declaration}
  (removed : Removed gone declarations declarations' later)

include removed

theorem mem_all : gone ∈ declarations.flatMap all := by
  induction removed with
  | here before after =>
    exact List.mem_flatMap.mpr ⟨gone, List.mem_append_right _ List.mem_cons_self, gone.mem_all_self⟩
  | inside id name before after _ ih =>
    refine List.mem_flatMap.mpr ⟨_, List.mem_append_right _ List.mem_cons_self, ?_⟩
    rw [all_submodule]
    exact List.mem_cons_of_mem _ ih

theorem id_mem_ids : gone.id ∈ declarations.flatMap ids := by
  obtain ⟨declaration, present, inside⟩ := List.mem_flatMap.mp removed.mem_all
  exact List.mem_flatMap.mpr ⟨declaration, present, ownIds_subset inside List.mem_cons_self⟩

theorem ids_sublist : (declarations'.flatMap ids).Sublist (declarations.flatMap ids) := by
  induction removed with
  | here before after =>
    exact (List.Sublist.append_left (List.sublist_cons_self gone after) before).flatMap ids
  | inside id name before after _ ih =>
    simp only [List.flatMap_append, List.flatMap_cons, ids_submodule]
    exact ((ih.cons_cons id).append_right _).append_left _

theorem findSome?_introduces? {name : String}
    (kept : ∀ definition, declarations.findSome? (introduces? name) = some definition →
      definition.reference ≠ some gone.id) :
    declarations'.findSome? (introduces? name) = declarations.findSome? (introduces? name) := by
  cases removed with
  | here before =>
    rw [List.findSome?_append, List.findSome?_cons] at kept
    rw [List.findSome?_append, List.findSome?_append, List.findSome?_cons]
    cases early : before.findSome? (introduces? name) with
    | some definition => rfl
    | none =>
      cases introduced : gone.introduces? name with
      | none => rfl
      | some definition =>
        rw [early, introduced] at kept
        exact absurd (introduces?_spec introduced).2.1 (kept definition rfl)
  | inside id moduleName before after _ =>
    rw [List.findSome?_append, List.findSome?_append, List.findSome?_cons, List.findSome?_cons]
    rfl

end Removed

end Declaration

namespace Module

structure Sheds (site : NodeId) (k k' : Module) : Prop where
  id : k'.id = k.id
  name : k'.name = k.name
  lookup : ∀ name, (∀ definition, k.declarations.findSome? (Declaration.introduces? name) =
      some definition → definition.reference ≠ some site) →
    k'.declarations.findSome? (Declaration.introduces? name) =
      k.declarations.findSome? (Declaration.introduces? name)

theorem Sheds.refl (site : NodeId) (k : Module) : Sheds site k k := ⟨rfl, rfl, fun _ _ => rfl⟩

/-- The other module is this one without the declaration, which these ones come after. -/
structure Without (gone : Declaration) (later : List Declaration) (m m' : Module) : Prop where
  id : m'.id = m.id
  name : m'.name = m.name
  removed : Declaration.Removed gone m.declarations m'.declarations later

theorem Without.sheds {gone : Declaration} {later : List Declaration} {m m' : Module}
    (without : Without gone later m m') : Sheds gone.id m m' :=
  ⟨without.id, without.name, fun _ => without.removed.findSome?_introduces?⟩

end Module

namespace Declaration

theorem innerFirst_of_expr {declaration : Declaration} {expr : Expr}
    (single : declaration.expr? = some expr) : declaration.innerFirst = [] := by
  cases declaration with
  | submodule id name declarations => cases single
  | _ => rfl

theorem ids_of_expr {declaration : Declaration} {expr : Expr}
    (single : declaration.expr? = some expr) : declaration.ids = declaration.ownIds := by
  cases declaration with
  | submodule id name declarations => cases single
  | _ => exact List.append_nil _

theorem Removed.innerFirst {gone : Declaration} {declarations declarations' later : List Declaration}
    (removed : Removed gone declarations declarations' later) (single : gone.innerFirst = []) :
    List.Forall₂ (Module.Sheds gone.id) (declarations.flatMap innerFirst)
      (declarations'.flatMap innerFirst) := by
  have same : ∀ modules : List Module, List.Forall₂ (Module.Sheds gone.id) modules modules :=
    fun modules => List.forall₂_same.mpr fun k _ => .refl gone.id k
  induction removed with
  | here before after =>
    rw [List.flatMap_append, List.flatMap_append, List.flatMap_cons, single, List.nil_append]
    exact same _
  | @inside id name before after declarations declarations' later removed ih =>
    simp only [List.flatMap_append, List.flatMap_cons, innerFirst_submodule]
    have module : Module.Sheds gone.id ⟨id, name, declarations⟩ ⟨id, name, declarations'⟩ :=
      Module.Without.sheds ⟨rfl, rfl, removed⟩
    exact List.rel_append (same _)
      (List.rel_append (List.rel_append ih (.cons module .nil)) (same _))

end Declaration

namespace Module.Without

variable {gone : Declaration} {later : List Declaration} {m m' : Module}
  (without : Without gone later m m')

include without

theorem mem_all : gone ∈ m.toDeclaration.all := by
  rw [toDeclaration, Declaration.all_submodule]
  exact List.mem_cons_of_mem _ without.removed.mem_all

theorem nodup_ids (distinct : m.ids.Nodup) : m'.ids.Nodup := by
  rw [Module.ids, toDeclaration, Declaration.ids_submodule] at distinct ⊢
  rw [without.id]
  exact distinct.sublist (without.removed.ids_sublist.cons_cons m.id)

theorem exists_owner {name : String} {k : Module} (single : gone.innerFirst = [])
    (owns : m.owner? name = some k) : ∃ k', m'.owner? name = some k' ∧ Sheds gone.id k k' := by
  have related : List.Forall₂ (Sheds gone.id) m.toDeclaration.innerFirst m'.toDeclaration.innerFirst := by
    simp only [toDeclaration, Declaration.innerFirst_submodule]
    exact List.rel_append (without.removed.innerFirst single) (.cons without.sheds .nil)
  have found : Option.Rel (Sheds gone.id) (m.owner? name) (m'.owner? name) :=
    forall₂_find? (List.forall₂_reverse_iff.mpr related) fun both => by rw [both.name]
  rw [owns] at found
  generalize owns' : m'.owner? name = k'? at found
  cases found with
  | some sheds => exact ⟨_, rfl, sheds⟩

end Module.Without

namespace Inference

variable {signatures : SignatureTable} {gone : Declaration} {later : List Declaration}
  {m m' n n' : Module}

theorem readAlike_without (without : Module.Without gone later m m') (distinct : m.ids.Nodup)
    {body : Expr} (single : gone.expr? = some body)
    (unreferenced : ∀ other ∈ m.toDeclaration.all, other ≠ gone → ¬ Refers signatures m other gone)
    {user : Declaration} (outside : gone.id ∉ user.ids) :
    ReadAlike signatures (· ∉ gone.ids) m m' user := by
  intro inner member n n' stands expr holds
  have different : inner ≠ gone := by
    rintro rfl
    exact outside (Declaration.ownIds_subset member List.mem_cons_self)
  obtain ⟨k, owns⟩ := Module.exists_owner stands.within
  obtain ⟨k', owns', sheds⟩ := without.exists_owner (Declaration.innerFirst_of_expr single) owns
  refine readsAlike_of_lookup distinct (without.nodup_ids distinct) stands owns owns' sheds.id holds
    fun node part name used resolved => ?_
  have other : ∀ definition, k.declarations.findSome? (Declaration.introduces? name) =
      some definition → definition.reference ≠ some gone.id := by
    intro definition found reference
    refine unreferenced inner (Module.mem_all_of_mem_declarations stands.within stands.present) different
      ⟨n, stands.within, stands.present, node, ?_, name, definition, used, found ▸ resolved, reference⟩
    rwa [Declaration.nodes, holds]
  refine ⟨sheds.lookup name other, fun definition site found reference own => ?_⟩
  obtain ⟨declared, declares, introduced⟩ := List.exists_of_findSome?_eq_some found
  have recorded := (Declaration.introduces?_spec introduced).2.1
  cases Option.some.inj (reference.symm.trans recorded)
  rw [Declaration.ids_of_expr single] at own
  have same := Declaration.eq_of_mem_ownIds distinct (without.mem_all)
    (Module.mem_all_of_mem_declarations (Module.owner?_inside owns) declares) own List.mem_cons_self
  exact other definition found (same ▸ recorded)

theorem inferDeclarations_module (within : n ∈ m.modules) (context : Context) (state : State) :
    inferDeclarations (m.environment signatures) context state [n.toDeclaration] =
      inferDeclarations (m.environment signatures) (contextIn signatures m n) state n.declarations := by
  rw [inferDeclarations, inferDeclaration_toDeclaration, inferModule_within within]
  exact bind_pure _

/-- One run has gone through the declaration and the other one has not. Neither has come to these nodes,
and elsewhere both have found the same. -/
structure Parted (gone : Declaration) (ids : List NodeId) (state state' : State) : Prop where
  unseen : Unseen ids state
  unseen' : Unseen ids state'
  alike : ∃ ρ, SameUpTo ρ (· ∉ gone.ids) state state'

section Runs

variable (plain : Plain signatures) (distinct : m.ids.Nodup)
  (reads : ∀ {user : Declaration}, gone.id ∉ user.ids →
    ReadAlike signatures (· ∉ gone.ids) m m' user)

include plain reads in
theorem Parted.declarations {rest : List NodeId} {state state' last : State}
    {declarations : List Declaration}
    (parted : Parted gone (declarations.flatMap Declaration.ids ++ rest) state state')
    (nodup : (declarations.flatMap Declaration.ids ++ rest).Nodup)
    (stands : ∀ declaration ∈ declarations, Stands m m' n n' declaration)
    (outside : gone.id ∉ declarations.flatMap Declaration.ids)
    (lets : ∀ declaration ∈ declarations, ∀ inner ∈ declaration.all, ∀ node ∈ inner.nodes,
      node.isLet = false)
    (run : inferDeclarations (m.environment signatures) (contextIn signatures m n) state declarations =
      .ok last) :
    ∃ last', inferDeclarations (m'.environment signatures) (contextIn signatures m' n') state'
      declarations = .ok last' ∧ Parted gone rest last last' := by
  obtain ⟨ρ, alike⟩ := parted.alike
  have later := (List.nodup_append'.mp nodup).2.2
  obtain ⟨last', run', abreast⟩ := abreast_declarations plain
    (parted.unseen.mono (List.subset_append_left _ _)) (parted.unseen'.mono (List.subset_append_left _ _))
    alike stands (fun declaration present => reads fun own =>
      outside (List.mem_flatMap.mpr ⟨declaration, present, own⟩))
    (fun declaration present inner member node part isLet =>
      absurd isLet (by simp [lets declaration present inner member node part])) run
  obtain ⟨τ, all⟩ := abreast.extend alike
  refine ⟨last', run', ?_, ?_, τ, all.mono fun _ => Or.inr⟩
  · exact (leaves_declarations plain rfl (parted.unseen.mono (List.subset_append_right _ _))
      (fun _ inside => later inside) run).unseen
  · exact (leaves_declarations plain rfl (parted.unseen'.mono (List.subset_append_right _ _))
      (fun _ inside => later inside) run').unseen

include plain distinct in
theorem parted_here {rest : List NodeId} {early late : State} (within : n ∈ m.modules)
    (present : gone ∈ n.declarations) (nodup : ([gone].flatMap Declaration.ids ++ rest).Nodup)
    (unseen : Unseen ([gone].flatMap Declaration.ids ++ rest) early)
    (run : inferDeclarations (m.environment signatures) (contextIn signatures m n) early [gone] =
      .ok late) : Parted gone rest late early := by
  have confined := confined_declarations plain (unseen.mono (List.subset_append_left _ _)) distinct within
    (List.cons_subset.mpr ⟨present, List.nil_subset _⟩) run
  rw [List.flatMap_singleton] at confined
  have unseen_late := (leaves_declarations plain rfl (unseen.mono (List.subset_append_right _ _))
    (fun _ inside => (List.nodup_append'.mp nodup).2.2 inside) run).unseen
  exact ⟨unseen_late, unseen.mono (List.subset_append_right _ _), id, confined.sameUpTo unseen_late⟩

include plain reads in
/-- What comes before the declaration leads to the same state in both runs, and they are still parted
after all that comes later. -/
theorem parted_around (before middle middle' after : List Declaration) {rest : List NodeId}
    {state last : State} (place : StandsFor m m' n n') (part : before ++ after ⊆ n.declarations)
    (part' : before ++ after ⊆ n'.declarations) (own : gone.id ∈ middle.flatMap Declaration.ids)
    (nodup : ((before ++ (middle ++ after)).flatMap Declaration.ids ++ rest).Nodup)
    (unseen : Unseen ((before ++ (middle ++ after)).flatMap Declaration.ids ++ rest) state)
    (lets : ∀ declaration ∈ after, ∀ inner ∈ declaration.all, ∀ node ∈ inner.nodes,
      node.isLet = false)
    (step : ∀ {early late : State},
      (middle.flatMap Declaration.ids ++ (after.flatMap Declaration.ids ++ rest)).Nodup →
      Unseen (middle.flatMap Declaration.ids ++ (after.flatMap Declaration.ids ++ rest)) early →
      inferDeclarations (m.environment signatures) (contextIn signatures m n) early middle = .ok late →
      ∃ late', inferDeclarations (m'.environment signatures) (contextIn signatures m' n') early middle' =
        .ok late' ∧ Parted gone (after.flatMap Declaration.ids ++ rest) late late')
    (run : inferDeclarations (m.environment signatures) (contextIn signatures m n) state
      (before ++ (middle ++ after)) = .ok last) :
    ∃ last', inferDeclarations (m'.environment signatures) (contextIn signatures m' n') state
      (before ++ (middle' ++ after)) = .ok last' ∧ Parted gone rest last last' := by
  have stands : ∀ declaration ∈ before ++ after, Stands m m' n n' declaration :=
    fun _ present => ⟨place, part present, part' present⟩
  simp only [List.flatMap_append, List.append_assoc] at nodup unseen
  obtain ⟨_, nodup, apart⟩ := List.nodup_append'.mp nodup
  obtain ⟨_, nodup_after, apart'⟩ := List.nodup_append'.mp nodup
  rw [inferDeclarations_append] at run
  obtain ⟨early, first, run⟩ := bind_eq_ok.mp run
  rw [inferDeclarations_append] at run
  obtain ⟨late, second, third⟩ := bind_eq_ok.mp run
  have unseen_early := (leaves_declarations plain rfl (unseen.mono (List.subset_append_right _ _))
    (fun _ inside => apart inside) first).unseen
  obtain ⟨late', second', parted⟩ := step nodup unseen_early second
  obtain ⟨last', third', done⟩ := parted.declarations plain reads nodup_after
    (fun declaration present => stands declaration (List.mem_append_right _ present))
    (fun inside => apart' own (List.mem_append_left _ inside)) lets third
  refine ⟨last', ?_, done⟩
  rw [inferDeclarations_before
    (fun declaration present => stands declaration (List.mem_append_left _ present))
    (fun declaration present => reads fun inside => apart
      (List.mem_flatMap.mpr ⟨declaration, present, inside⟩) (List.mem_append_left _ own)) first,
    inferDeclarations_append, second']
  exact third'

include plain distinct reads in
theorem parted_run {declarations declarations' : List Declaration}
    (removed : Declaration.Removed gone declarations declarations' later)
    (place : StandsFor m m' n n') (parts : n.declarations = declarations)
    (parts' : n'.declarations = declarations') {rest : List NodeId}
    (nodup : (declarations.flatMap Declaration.ids ++ rest).Nodup) {state last : State}
    (unseen : Unseen (declarations.flatMap Declaration.ids ++ rest) state)
    (lets : ∀ declaration ∈ later, ∀ inner ∈ declaration.all, ∀ node ∈ inner.nodes,
      node.isLet = false)
    (run : inferDeclarations (m.environment signatures) (contextIn signatures m n) state declarations =
      .ok last) :
    ∃ last', inferDeclarations (m'.environment signatures) (contextIn signatures m' n') state
      declarations' = .ok last' ∧ Parted gone rest last last' := by
  induction removed generalizing n n' rest state last with
  | here before after =>
    have own : gone.id ∈ [gone].flatMap Declaration.ids := (Declaration.Removed.here [] []).id_mem_ids
    refine parted_around plain reads before [gone] [] after place (by simp [parts]) (by simp [parts'])
      own nodup unseen lets (fun nodup unseen run => ⟨_, rfl, ?_⟩) run
    exact parted_here plain distinct place.within (by simp [parts]) nodup unseen run
  | @inside moduleId moduleName before after declarations declarations' later removed ih =>
    let inner : Module := ⟨moduleId, moduleName, declarations⟩
    let inner' : Module := ⟨moduleId, moduleName, declarations'⟩
    have present : inner.toDeclaration ∈ n.declarations := by simp [parts, Module.toDeclaration, inner]
    have present' : inner'.toDeclaration ∈ n'.declarations := by
      simp [parts', Module.toDeclaration, inner']
    have deeper : StandsFor m m' inner inner' :=
      ⟨Module.mem_modules.mpr (Module.mem_all_of_mem_declarations place.within present),
        Module.mem_modules.mpr (Module.mem_all_of_mem_declarations place.within' present'), rfl, rfl⟩
    have own : gone.id ∈ [inner.toDeclaration].flatMap Declaration.ids :=
      (removed.inside moduleId moduleName [] []).id_mem_ids
    refine parted_around plain reads before [inner.toDeclaration] [inner'.toDeclaration] after place
      (by simp [parts]) (by simp [parts']) own nodup unseen
      (fun declaration present => lets declaration (List.mem_append_right _ present))
      (fun nodup unseen run => ?_) run
    rw [inferDeclarations_module deeper.within] at run
    rw [inferDeclarations_module deeper.within']
    have only : [inner.toDeclaration].flatMap Declaration.ids =
        moduleId :: declarations.flatMap Declaration.ids :=
      (List.flatMap_singleton _ _).trans (Declaration.ids_submodule _ _ _)
    rw [only] at nodup unseen
    exact ih deeper rfl rfl (List.nodup_cons.mp nodup).2 (unseen.mono (List.subset_cons_self _ _))
      (fun declaration present => lets declaration (List.mem_append_left _ present)) run

end Runs

/-- A declaration that nobody refers to is isolated. Whether or not something goes wrong in it, without
it the others have the same errors, and the same effects up to the numbers of new names. -/
theorem unreferenced_declaration_is_isolated
    (fixed : ∀ operator effect, signatures.get? operator = some (.fixed effect) → effect.IsPlain)
    (distinct : m.ids.Nodup) (without : Module.Without gone later m m')
    (single : gone.expr?.isSome = true)
    (unreferenced : ∀ other ∈ m.toDeclaration.all, other ≠ gone → ¬ Refers signatures m other gone)
    (lets : ∀ declaration ∈ later, ∀ inner ∈ declaration.all, ∀ node ∈ inner.nodes,
      node.isLet = false) :
    ∃ state state' ρ, m.infer signatures = .ok state ∧ m'.infer signatures = .ok state' ∧
      SameUpTo ρ (· ∉ gone.ids) state state' := by
  obtain ⟨body, single⟩ := Option.isSome_iff_exists.mp single
  have plain : Plain signatures := SignatureTable.plain_of_fixed fixed
  have place : StandsFor m m' m m' := ⟨Module.mem_modules.mpr m.toDeclaration.mem_all_self,
    Module.mem_modules.mpr m'.toDeclaration.mem_all_self, without.id, without.name⟩
  obtain ⟨state, run⟩ : ∃ state, m.infer signatures = .ok state := inferModule_total distinct .start
  have entered := run
  rw [Module.infer, inferModule_within place.within] at entered
  have nodup : (m.declarations.flatMap Declaration.ids ++ []).Nodup := by
    rw [List.append_nil]
    exact Module.nodup_declarations distinct
  obtain ⟨state', run', parted⟩ := parted_run plain distinct
    (readAlike_without without distinct single unreferenced) without.removed place rfl rfl nodup
    (unseen_start _) lets entered
  obtain ⟨ρ, alike⟩ := parted.alike
  refine ⟨state, state', ρ, run, ?_, alike⟩
  rw [Module.infer, inferModule_within place.within']
  exact run'

/-- An operator of an inner module fails, after names have been made up for it. Without it other numbers
are used, and the error in a later assumption is the same. -/
theorem isolation_of_failing_operator :
    let polymorphic (name : String) : Effect := .arrow [.quantified name] (.quantified name)
    let signatures : SignatureTable := .ofList [("c", .fixed (polymorphic "q"))]
    let gone : Declaration := .operator ⟨⟨3⟩, "bad", .app ⟨4⟩ "c" [.ref ⟨5⟩ "c", .ref ⟨6⟩ "c"]⟩
    let next : Declaration := .operator ⟨⟨7⟩, "k", .ref ⟨8⟩ "c"⟩
    let others : List Declaration :=
      [.operator ⟨⟨9⟩, "f", .ref ⟨10⟩ "c"⟩, .assumption ⟨11⟩ "a" (.app ⟨12⟩ "g" [.ref ⟨13⟩ "f"])]
    let m : Module := ⟨⟨1⟩, "M", .submodule ⟨2⟩ "N" [gone, next] :: others⟩
    let m' : Module := ⟨⟨1⟩, "M", .submodule ⟨2⟩ "N" [next] :: others⟩
    (∀ operator effect, signatures.get? operator = some (.fixed effect) → effect.IsPlain) ∧
      m.ids.Nodup ∧ Module.Without gone (next :: others) m m' ∧ gone.expr?.isSome = true ∧
      (∀ other ∈ m.toDeclaration.all, other ≠ gone → ¬ Refers signatures m other gone) ∧
      (∀ declaration ∈ next :: others, ∀ inner ∈ declaration.all, ∀ node ∈ inner.nodes,
        node.isLet = false) ∧
      ∃ state state' ρ, m.infer signatures = .ok state ∧ m'.infer signatures = .ok state' ∧
        SameUpTo ρ (· ∉ gone.ids) state state' ∧
        (state.errors.keys, state.effects.get? ⟨9⟩) = ([⟨4⟩, ⟨12⟩], some (polymorphic "_e5")) ∧
        (state'.errors.keys, state'.effects.get? ⟨9⟩) = ([⟨12⟩], some (polymorphic "_e1")) := by
  intro polymorphic signatures gone next others m m'
  have fixed : ∀ operator effect, signatures.get? operator = some (.fixed effect) →
      effect.IsPlain := by
    intro operator effect found
    cases List.mem_singleton.mp (SortedMap.mem_of_get?_ofList found)
    decide
  have distinct : m.ids.Nodup := by decide
  have without : Module.Without gone (next :: others) m m' :=
    ⟨rfl, rfl, .inside ⟨2⟩ "N" [] others (.here [] [next])⟩
  have unused : ∀ other ∈ m.toDeclaration.all, ∀ node ∈ other.nodes, node.used? ≠ some "bad" := by
    decide
  have unreferenced : ∀ other ∈ m.toDeclaration.all, other ≠ gone →
      ¬ Refers signatures m other gone := by
    intro other inside different
    refine not_refers distinct without.mem_all different fun node part name used named => ?_
    cases named
    exact unused other inside node part used
  have lets : ∀ declaration ∈ next :: others, ∀ inner ∈ declaration.all, ∀ node ∈ inner.nodes,
      node.isLet = false := by decide
  obtain ⟨state, state', ρ, run, run', alike⟩ :=
    unreferenced_declaration_is_isolated fixed distinct without rfl unreferenced lets
  let view (state : State) := (state.errors.keys, state.effects.get? ⟨9⟩)
  obtain ⟨_, again, seen⟩ := exists_ok view (show (m.infer signatures).toOption.map view =
    some ([⟨4⟩, ⟨12⟩], some (polymorphic "_e5")) by decide)
  obtain ⟨_, again', seen'⟩ := exists_ok view (show (m'.infer signatures).toOption.map view =
    some ([⟨12⟩], some (polymorphic "_e1")) by decide)
  cases run.symm.trans again
  cases run'.symm.trans again'
  exact ⟨fixed, distinct, without, rfl, unreferenced, lets, state, state', ρ, run, run', alike, seen,
    seen'⟩

end Inference

end SpecEffects
