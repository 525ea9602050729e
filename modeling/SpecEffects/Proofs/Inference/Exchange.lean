import SpecEffects.Proofs.Inference.Abreast
import SpecEffects.Proofs.Inference.SignatureNames
import SpecEffects.Proofs.StandardSignatures

/-!
Independent declarations. Two adjacent declarations that do not refer to each other can change places.
The second one is inferred abreast of itself, once after the first one and once before it, and then the
first one is, so that both orders lead to states with the same effects up to the numbers of new names.
What becomes of a let depends on whether there have been errors before it, so nothing may go wrong.
-/
namespace SpecEffects

namespace Module

variable {m m' n : Module} {before others : List Declaration} {first second : Declaration}

theorem mem_modules_iff : n ∈ m.modules ↔
    n = m ∨ ∃ declaration ∈ m.declarations, n.toDeclaration ∈ declaration.all := by
  rw [mem_modules, toDeclaration, toDeclaration, Declaration.all_submodule, List.mem_cons,
    List.mem_flatMap]
  refine or_congr_left ⟨fun same => ?_, fun same => by rw [same]⟩
  cases n
  cases m
  cases same
  rfl

theorem eq_of_mem_ids (distinct : m.ids.Nodup) (present : first ∈ m.declarations)
    (present' : second ∈ m.declarations) {id : NodeId} (inside : id ∈ first.ids)
    (inside' : id ∈ second.ids) : first = second := by
  have : Std.Symm (Function.onFun List.Disjoint Declaration.ids) := ⟨fun _ _ => List.disjoint_symm⟩
  by_contra different
  exact (List.nodup_flatMap.mp (nodup_declarations distinct)).2.forall present present' different inside
    inside'

theorem moduleNames_eq (m : Module) : m.moduleNames = m.modules.map Module.name := by
  rw [moduleNames, Declaration.moduleNames, modules, List.map_filterMap]
  congr 1
  funext declaration
  cases declaration <;> rfl

theorem owner?_own (apart : m.moduleNames.Nodup) (within : n ∈ m.modules) :
    m.owner? n.name = some n := by
  obtain ⟨k, owns⟩ := exists_owner within
  have named : k.name = n.name := by simpa using List.find?_some owns
  rw [moduleNames_eq] at apart
  rw [owns, List.inj_on_of_nodup_map apart (owner?_inside owns) within named]

structure Exchanged (before : List Declaration) (first second : Declaration)
    (others : List Declaration) (m m' : Module) : Prop where
  id : m'.id = m.id
  name : m'.name = m.name
  parts : m.declarations = before ++ first :: second :: others
  parts' : m'.declarations = before ++ second :: first :: others

namespace Exchanged

variable (exchanged : Exchanged before first second others m m')

include exchanged

theorem perm : m'.declarations.Perm m.declarations := by
  rw [exchanged.parts, exchanged.parts']
  exact (List.Perm.swap first second others).append_left before

theorem nodup_ids (distinct : m.ids.Nodup) : m'.ids.Nodup := by
  rw [ids, toDeclaration, Declaration.ids_submodule] at distinct ⊢
  rw [exchanged.id]
  exact ((exchanged.perm.flatMap_right Declaration.ids).cons m.id).nodup_iff.mpr distinct

theorem nodup_moduleNames (apart : m.moduleNames.Nodup) : m'.moduleNames.Nodup := by
  rw [moduleNames, toDeclaration, Declaration.moduleNames_submodule] at apart ⊢
  rw [exchanged.name]
  exact ((exchanged.perm.flatMap_right Declaration.moduleNames).cons m.name).nodup_iff.mpr apart

theorem findSome?_introduces? (declared : m.declaredNames.Nodup) (name : String) :
    m'.declarations.findSome? (Declaration.introduces? name) =
      m.declarations.findSome? (Declaration.introduces? name) := by
  rw [exchanged.parts, exchanged.parts', List.findSome?_append, List.findSome?_append,
    List.findSome?_cons, List.findSome?_cons, List.findSome?_cons, List.findSome?_cons]
  cases introduced : first.introduces? name with
  | none => rfl
  | some definition =>
    cases introduced' : second.introduces? name with
    | none => rfl
    | some definition' =>
      rw [declaredNames, exchanged.parts, List.filterMap_append,
        List.filterMap_cons_some (Declaration.introduces?_spec introduced).1,
        List.filterMap_cons_some (Declaration.introduces?_spec introduced').1] at declared
      have nodup := (List.nodup_append'.mp declared).2.1
      simp at nodup

theorem findSome?_standsFor (distinct : m.ids.Nodup) (declared : m.declaredNames.Nodup) {n' : Module}
    (place : Inference.StandsFor m m' n n') (name : String) :
    n'.declarations.findSome? (Declaration.introduces? name) =
      n.declarations.findSome? (Declaration.introduces? name) := by
  have distinct' := exchanged.nodup_ids distinct
  rcases mem_modules_iff.mp place.within with rfl | ⟨declaration, present, inside⟩
  · have whole : m' ∈ m'.modules := mem_modules_iff.mpr (Or.inl rfl)
    rw [eq_of_id distinct' place.within' whole (place.id.trans exchanged.id.symm)]
    exact exchanged.findSome?_introduces? declared name
  · have within' : n ∈ m'.modules :=
      mem_modules_iff.mpr (Or.inr ⟨declaration, exchanged.perm.mem_iff.mpr present, inside⟩)
    rw [eq_of_id distinct' place.within' within' place.id]

end Exchanged

end Module

namespace Inference

variable {signatures : SignatureTable} {m m' n n' : Module} {before others : List Declaration}
  {first second : Declaration}

theorem readAlike_exchanged (exchanged : Module.Exchanged before first second others m m')
    (distinct : m.ids.Nodup) (apart : m.moduleNames.Nodup) (declared : m.declaredNames.Nodup)
    {sites : NodeId → Prop} {user : Declaration}
    (referred : ∀ inner ∈ user.all, ∀ n ∈ m.modules, inner ∈ n.declarations →
      ∀ other ∈ n.declarations, Refers signatures m inner other → sites other.id) :
    ReadAlike signatures sites m m' user := by
  intro inner member n n' stands expr holds
  have owns := Module.owner?_own apart stands.within
  have owns' := Module.owner?_own (exchanged.nodup_moduleNames apart) stands.within'
  rw [stands.name] at owns'
  refine readsAlike_of_lookup distinct (exchanged.nodup_ids distinct) stands owns owns' stands.id holds
    fun node part name used resolved => ⟨exchanged.findSome?_standsFor distinct declared
      stands.toStandsFor name, fun definition site found reference => ?_⟩
  obtain ⟨other, declares, introduced⟩ := List.exists_of_findSome?_eq_some found
  have recorded := (Declaration.introduces?_spec introduced).2.1
  cases Option.some.inj (reference.symm.trans recorded)
  refine referred inner member n stands.within stands.present other declares
    ⟨n, stands.within, stands.present, node, ?_, name, definition, used, found ▸ resolved, recorded⟩
  rwa [Declaration.nodes, holds]

theorem outside_of_not_refers (distinct : m.ids.Nodup) (present : first ∈ m.declarations)
    (present' : second ∈ m.declarations) (different : first ≠ second)
    (independent : ¬ Refers signatures m first second) {inner : Declaration}
    (member : inner ∈ first.all) (within : n ∈ m.modules) (stands : inner ∈ n.declarations)
    {other : Declaration} (declares : other ∈ n.declarations) (refers : Refers signatures m inner other) :
    other.id ∉ second.ids := by
  intro own
  have head : ∀ {declaration whole : Declaration}, declaration ∈ whole.all → declaration.id ∈ whole.ids :=
    fun member => Declaration.ownIds_subset member List.mem_cons_self
  rcases Module.mem_modules_iff.mp within with rfl | ⟨declaration, around, inside⟩
  · cases Module.eq_of_mem_ids distinct stands present (head inner.mem_all_self) (head member)
    cases Module.eq_of_mem_ids distinct declares present' (head other.mem_all_self) own
    exact independent refers
  · have deeper : ∀ {part : Declaration}, part ∈ n.declarations → part ∈ declaration.all := by
      intro part held
      refine Declaration.mem_all_trans inside ?_
      rw [Module.toDeclaration, Declaration.all_submodule]
      exact List.mem_cons_of_mem _ (List.mem_flatMap.mpr ⟨part, held, part.mem_all_self⟩)
    cases Module.eq_of_mem_ids distinct around present (head (deeper stands)) (head member)
    exact different (Module.eq_of_mem_ids distinct present present' (head (deeper declares)) own)

theorem readAlike_independent (exchanged : Module.Exchanged before first second others m m')
    (distinct : m.ids.Nodup) (apart : m.moduleNames.Nodup) (declared : m.declaredNames.Nodup)
    {user other : Declaration} (present : user ∈ m.declarations) (present' : other ∈ m.declarations)
    (different : user ≠ other) (independent : ¬ Refers signatures m user other) :
    ReadAlike signatures (· ∉ other.ids) m m' user :=
  readAlike_exchanged exchanged distinct apart declared
    fun _ member _ within stands _ declares refers =>
      outside_of_not_refers distinct present present' different independent member within stands declares
        refers

/-- Two stretches of nodes are gone through in either order. What has been found at the nodes of the
later stretch and what has been found elsewhere is put together. -/
theorem Abreast.exchange {ids ids' : List NodeId} {state left right both both' : State}
    {ρ : String → String} (abreast' : Abreast ids' left state both right)
    (abreast : Abreast ids state right left both') (alike : SameUpTo ρ (· ∉ ids') state right)
    (disjoint : ids.Disjoint ids') : ∃ τ, SameUpTo τ (fun _ => True) both both' := by
  obtain ⟨_, rest⟩ := abreast.extend alike
  obtain ⟨_, found⟩ := abreast'.alike
  have other : ∀ id ∈ ids', id ∉ ids := fun id inside' inside => disjoint inside inside'
  have inner := found.congr (fun _ _ => rfl) (fun id inside => abreast.confined'.effects id (other id inside))
    (fun _ _ => rfl) (fun id inside => abreast.confined'.errors id (other id inside))
  have outer := (rest.mono fun _ => Or.inr).congr abreast'.confined.effects (fun _ _ => rfl)
    abreast'.confined.errors (fun _ _ => rfl)
  -- On the right the names at `ids'` were made after `state`, and those at `ids` after all of these.
  have old : NamesApart both' (· ∈ ids') (fun id => id ∉ ids' ∧ id ∉ ids) :=
    (abreast'.confined'.apart.symm.mono (fun _ inside => inside) fun _ held => held.1).congr
      (fun id inside => abreast.confined'.effects id (other id inside))
      (fun id held => abreast.confined'.effects id held.2)
  have new : NamesApart both' (· ∈ ids') (· ∈ ids) :=
    abreast.confined'.apart.mono other fun _ inside => inside
  have apart : NamesApart both' (· ∈ ids') (· ∉ ids') := by
    rintro kind kind' name used ⟨id, effect, outside, recorded, used'⟩
    by_cases inside : id ∈ ids
    · exact new used ⟨id, effect, inside, recorded, used'⟩
    · exact old used ⟨id, effect, ⟨outside, inside⟩, recorded, used'⟩
  obtain ⟨τ, all⟩ := inner.union outer abreast'.confined.apart.symm apart
  exact ⟨τ, all.mono fun id _ => Decidable.em (id ∈ ids')⟩

section Square

variable {firsts seconds : List Declaration} {rest : List NodeId} {state left both : State}

theorem exchanged_pair (plain : Plain signatures) (distinct : m.ids.Nodup)
    (stands : ∀ declaration ∈ firsts, Stands m m' n n' declaration)
    (stands' : ∀ declaration ∈ seconds, Stands m m' n n' declaration)
    (reads : ∀ declaration ∈ firsts,
      ReadAlike signatures (· ∉ seconds.flatMap Declaration.ids) m m' declaration)
    (reads' : ∀ declaration ∈ seconds,
      ReadAlike signatures (· ∉ firsts.flatMap Declaration.ids) m m' declaration)
    (nodup : (firsts.flatMap Declaration.ids ++ (seconds.flatMap Declaration.ids ++ rest)).Nodup)
    (unseen : Unseen (firsts.flatMap Declaration.ids ++ (seconds.flatMap Declaration.ids ++ rest)) state)
    (within : n ∈ m.modules)
    (run : inferDeclarations (m.environment signatures) (contextIn signatures m n) state firsts =
      .ok left)
    (run' : inferDeclarations (m.environment signatures) (contextIn signatures m n) left seconds =
      .ok both) (clean : both.errors.isEmpty = true) :
    ∃ right both',
      inferDeclarations (m'.environment signatures) (contextIn signatures m' n') state seconds =
        .ok right ∧
      inferDeclarations (m'.environment signatures) (contextIn signatures m' n') right firsts =
        .ok both' ∧
      both'.errors.isEmpty = true ∧ Unseen rest both' ∧
      ∃ ρ, SameUpTo ρ (fun _ => True) both both' := by
  obtain ⟨_, nodup', apart⟩ := List.nodup_append'.mp nodup
  have apart_rest := (List.nodup_append'.mp nodup').2.2
  have leaves := leaves_declarations plain rfl (unseen.mono (List.subset_append_right _ _))
    (fun _ inside => apart inside) run
  have clean_left := (leaves_declarations plain rfl
    (leaves.unseen.mono (List.subset_append_right _ _)) (fun _ inside => apart_rest inside) run').clean
    clean
  have clean_state := leaves.clean clean_left
  -- The later ones run after the earlier ones on the left, and by themselves on the right.
  have unseen_first := unseen.mono (List.subset_append_left _ _)
  have confined := confined_declarations plain unseen_first distinct within
    (fun declaration present => (stands declaration present).present) run
  obtain ⟨right, alone, abreast⟩ := abreast_declarations plain
    (leaves.unseen.mono (List.subset_append_left _ _))
    ((unseen.mono (List.subset_append_right _ _)).mono (List.subset_append_left _ _))
    (confined.sameUpTo leaves.unseen) stands' reads'
    (fun _ _ _ _ _ _ _ => clean_state.trans clean_left.symm) run'
  have clean_right := (abreast.clean (clean_state.trans clean_left.symm)).trans clean
  -- Then the earlier ones run by themselves on the left, and after the later ones on the right.
  have same : SameUpTo id (· ∉ seconds.flatMap Declaration.ids) state right :=
    .same unseen abreast.confined'.effects abreast.confined'.errors
  have unseen_right : Unseen (firsts.flatMap Declaration.ids ++ rest) right := by
    refine (leaves_declarations plain rfl (unseen.mono ?_) (fun id inside other => ?_) alone).unseen
    · exact List.append_subset.mpr ⟨List.subset_append_left _ _, fun id inside =>
        List.mem_append_right _ (List.mem_append_right _ inside)⟩
    · rcases List.mem_append.mp other with other | other
      · exact apart other (List.mem_append_left _ inside)
      · exact apart_rest inside other
  obtain ⟨both', after, abreast'⟩ := abreast_declarations plain unseen_first
    (unseen_right.mono (List.subset_append_left _ _)) same stands reads
    (fun _ _ _ _ _ _ _ => clean_right.trans clean_state.symm) run
  have clean_both := (abreast'.clean (clean_right.trans clean_state.symm)).trans clean_left
  have unseen_both := (leaves_declarations plain rfl
    (unseen_right.mono (List.subset_append_right _ _))
    (fun _ inside other => apart inside (List.mem_append_right _ other)) after).unseen
  exact ⟨right, both', alone, after, clean_both, unseen_both,
    abreast.exchange abreast' same fun _ inside inside' => apart inside (List.mem_append_left _ inside')⟩

theorem exchanged_run {others : List Declaration} {last : State} (plain : Plain signatures)
    (distinct : m.ids.Nodup) (within : n ∈ m.modules)
    (stands : ∀ declaration ∈ firsts ++ (seconds ++ others), Stands m m' n n' declaration)
    (reads : ∀ declaration ∈ firsts,
      ReadAlike signatures (· ∉ seconds.flatMap Declaration.ids) m m' declaration)
    (reads' : ∀ declaration ∈ seconds,
      ReadAlike signatures (· ∉ firsts.flatMap Declaration.ids) m m' declaration)
    (later : ∀ declaration ∈ others, ReadAlike signatures (fun _ => True) m m' declaration)
    (nodup : ((firsts ++ (seconds ++ others)).flatMap Declaration.ids).Nodup)
    (unseen : Unseen ((firsts ++ (seconds ++ others)).flatMap Declaration.ids) state)
    (run : inferDeclarations (m.environment signatures) (contextIn signatures m n) state
      (firsts ++ (seconds ++ others)) = .ok last) (clean : last.errors.isEmpty = true) :
    ∃ last' ρ, inferDeclarations (m'.environment signatures) (contextIn signatures m' n') state
        (seconds ++ (firsts ++ others)) = .ok last' ∧
      last'.errors.isEmpty = true ∧ SameUpTo ρ (fun _ => True) last last' := by
  rw [List.flatMap_append, List.flatMap_append] at nodup unseen
  rw [inferDeclarations_append] at run
  obtain ⟨left, run₁, run⟩ := bind_eq_ok.mp run
  rw [inferDeclarations_append] at run
  obtain ⟨both, run₂, run₃⟩ := bind_eq_ok.mp run
  obtain ⟨_, nodup', apart⟩ := List.nodup_append'.mp nodup
  have leaves := leaves_declarations plain rfl (unseen.mono (List.subset_append_right _ _))
    (fun _ inside => apart inside) run₁
  have unseen_both := (leaves_declarations plain rfl (leaves.unseen.mono (List.subset_append_right _ _))
    (fun _ inside => (List.nodup_append'.mp nodup').2.2 inside) run₂).unseen
  have clean_both := (leaves_declarations plain rfl (unseen_both.mono (List.nil_subset _))
    (fun _ _ => List.not_mem_nil) run₃).clean clean
  obtain ⟨right, both', run₂', run₁', clean', unseen', ρ, alike⟩ := exchanged_pair plain distinct
    (fun declaration present => stands declaration (List.mem_append_left _ present))
    (fun declaration present => stands declaration
      (List.mem_append_right _ (List.mem_append_left _ present)))
    reads reads' nodup unseen within run₁ run₂ clean_both
  have same := clean'.trans clean_both.symm
  obtain ⟨last', run₃', abreast⟩ := abreast_declarations plain unseen_both unseen' alike
    (fun declaration present => stands declaration
      (List.mem_append_right _ (List.mem_append_right _ present)))
    later (fun _ _ _ _ _ _ _ => same) run₃
  obtain ⟨τ, all⟩ := abreast.extend alike
  refine ⟨last', τ, ?_, (abreast.clean same).trans clean, all.mono fun _ => Or.inr⟩
  rw [inferDeclarations_append, run₂']
  refine (inferDeclarations_append _ _ _ _ _).trans ?_
  rw [run₁']
  exact run₃'

end Square

theorem infer_exchanged (plain : Plain signatures) (distinct : m.ids.Nodup)
    (apart : m.moduleNames.Nodup) (declared : m.declaredNames.Nodup)
    (exchanged : Module.Exchanged before first second others m m')
    (independent : ¬ Refers signatures m first second)
    (independent' : ¬ Refers signatures m second first) {last : State}
    (run : m.infer signatures = .ok last) (clean : last.errors.isEmpty = true) :
    ∃ last' ρ, m'.infer signatures = .ok last' ∧ last'.errors.isEmpty = true ∧
      SameUpTo ρ (fun _ => True) last last' := by
  have place : StandsFor m m' m m' := ⟨Module.mem_modules_iff.mpr (Or.inl rfl),
    Module.mem_modules_iff.mpr (Or.inl rfl), exchanged.id, exchanged.name⟩
  have parts : m.declarations = before ++ ([first] ++ ([second] ++ others)) := exchanged.parts
  have stands : ∀ declaration ∈ before ++ ([first] ++ ([second] ++ others)),
      Stands m m' m m' declaration := fun _ present =>
    ⟨place, parts ▸ present, exchanged.perm.mem_iff.mpr (parts ▸ present)⟩
  have nodup : ((before ++ ([first] ++ ([second] ++ others))).flatMap Declaration.ids).Nodup := by
    rw [← parts]
    exact Module.nodup_declarations distinct
  rw [List.flatMap_append] at nodup
  obtain ⟨_, nodup, outside⟩ := List.nodup_append'.mp nodup
  have reads : ∀ declaration, ReadAlike signatures (fun _ => True) m m' declaration := fun _ =>
    readAlike_exchanged exchanged distinct apart declared fun _ _ _ _ _ _ _ _ => trivial
  have present : first ∈ m.declarations := by simp [parts]
  have present' : second ∈ m.declarations := by simp [parts]
  have different : first ≠ second := by
    rintro rfl
    have own := Declaration.ownIds_subset first.mem_all_self List.mem_cons_self
    simp only [List.flatMap_append, List.flatMap_singleton] at nodup
    exact (List.nodup_append'.mp nodup).2.2 own (List.mem_append_left _ own)
  have reads₁ := readAlike_independent exchanged distinct apart declared present present' different
    independent
  have reads₂ := readAlike_independent exchanged distinct apart declared present' present different.symm
    independent'
  rw [Module.infer, inferModule_within place.within, parts, inferDeclarations_append] at run
  obtain ⟨early, entered, run⟩ := bind_eq_ok.mp run
  have unseen := (leaves_declarations plain rfl (unseen_start _) (fun _ inside => outside inside)
    entered).unseen
  obtain ⟨last', ρ, run', clean', alike⟩ := exchanged_run plain distinct place.within
    (fun declaration present => stands declaration (List.mem_append_right _ present))
    (by simpa only [List.flatMap_singleton, List.forall_mem_singleton] using reads₁)
    (by simpa only [List.flatMap_singleton, List.forall_mem_singleton] using reads₂)
    (fun declaration _ => reads declaration) nodup unseen run clean
  refine ⟨last', ρ, ?_, clean', alike⟩
  rw [Module.infer, inferModule_within place.within', exchanged.parts',
    inferDeclarations_before (fun declaration present => stands declaration
      (List.mem_append_left _ present)) (fun declaration _ => reads declaration) entered]
  exact run'

/-- The order of adjacent declarations that do not refer to each other does not matter in a module
without diagnostics, up to the numbers of new names. -/
theorem independent_declarations_commute {analysis : Analysis}
    (fixed : ∀ operator effect, signatures.get? operator = some (.fixed effect) → effect.IsPlain)
    (distinct : m.ids.Nodup) (apart : m.moduleNames.Nodup) (declared : m.declaredNames.Nodup)
    (exchanged : Module.Exchanged before first second others m m')
    (independent : ¬ Refers signatures m first second)
    (independent' : ¬ Refers signatures m second first)
    (run : m.analyze signatures = .ok analysis) (ok : analysis.isOk = true) :
    ∃ analysis' ρ, m'.analyze signatures = .ok analysis' ∧ analysis'.isOk = true ∧
      (∀ id, analysis'.effectOf? id = (analysis.effectOf? id).map (Effect.rename ρ)) ∧
      analysis.names.Injective ρ ∧
      ∀ kind name, analysis.names kind name →
        (∃ n n', name = numbered kind n ∧ ρ name = numbered kind n') ∨
          isPlaceholder name = true ∧ ρ name = name := by
  simp only [Module.analyze, bind_eq_ok, pure_eq_ok] at run ⊢
  obtain ⟨last, run, rfl⟩ := run
  rw [isOk_analysis] at ok
  obtain ⟨last', ρ, run', ok', alike⟩ := infer_exchanged (SignatureTable.plain_of_fixed fixed) distinct
    apart declared exchanged independent independent' run ok
  have inside : ∀ {kind name}, last.analysis.names kind name →
      last.namesAt (fun _ => True) kind name := by
    rintro kind name ⟨id, effect, found, used⟩
    exact ⟨id, effect, trivial, found, used⟩
  refine ⟨last'.analysis, ρ, ⟨last', run', rfl⟩, ?_, fun id => alike.effects id trivial, ?_, ?_⟩
  · rw [isOk_analysis, ok']
  · exact Vocabulary.Injective.mono alike.injective fun _ _ => inside
  · exact fun kind name used => alike.numbers kind name (inside used)

/-- In the other order both operators get other numbers. The let after them and the inner module do not
notice. -/
theorem commutation_of_polymorphic_operators :
    let polymorphic (name : String) : Effect := .arrow [.quantified name] (.quantified name)
    let signatures : SignatureTable := .ofList [("c", .fixed (polymorphic "q"))]
    let first : Declaration := .operator ⟨⟨3⟩, "f", .ref ⟨4⟩ "c"⟩
    let second : Declaration :=
      .operator ⟨⟨5⟩, "g", .lambda ⟨6⟩ [⟨⟨7⟩, "p"⟩] (.app ⟨8⟩ "c" [.ref ⟨9⟩ "p"])⟩
    let others : List Declaration :=
      [.submodule ⟨10⟩ "N" [.assumption ⟨11⟩ "a" (.ref ⟨12⟩ "c")],
        .operator ⟨⟨13⟩, "h",
          .letIn ⟨14⟩ ⟨15⟩ "y" (.ref ⟨16⟩ "f") (.app ⟨17⟩ "g" [.ref ⟨18⟩ "x"])⟩]
    let m : Module := ⟨⟨1⟩, "M", .stateVariable ⟨2⟩ "x" :: first :: second :: others⟩
    let m' : Module := ⟨⟨1⟩, "M", .stateVariable ⟨2⟩ "x" :: second :: first :: others⟩
    (∀ operator effect, signatures.get? operator = some (.fixed effect) → effect.IsPlain) ∧
      m.ids.Nodup ∧ m.moduleNames.Nodup ∧ m.declaredNames.Nodup ∧
      Module.Exchanged [.stateVariable ⟨2⟩ "x"] first second others m m' ∧
      ¬ Refers signatures m first second ∧ ¬ Refers signatures m second first ∧
      ∃ analysis analysis' ρ, m.analyze signatures = .ok analysis ∧ analysis.isOk = true ∧
        m'.analyze signatures = .ok analysis' ∧ analysis'.isOk = true ∧
        (∀ id, analysis'.effectOf? id = (analysis.effectOf? id).map (Effect.rename ρ)) ∧
        analysis.names.Injective ρ ∧
        (∀ kind name, analysis.names kind name →
          (∃ n n', name = numbered kind n ∧ ρ name = numbered kind n') ∨
            isPlaceholder name = true ∧ ρ name = name) ∧
        [⟨3⟩, ⟨5⟩, ⟨13⟩].map analysis.effectOf? =
          [some (polymorphic "_e0"), some (polymorphic "_e2"), some (.reads "x")] ∧
        [⟨3⟩, ⟨5⟩, ⟨13⟩].map analysis'.effectOf? =
          [some (polymorphic "_e2"), some (polymorphic "_e1"), some (.reads "x")] := by
  intro polymorphic signatures first second others m m'
  have fixed : ∀ operator effect, signatures.get? operator = some (.fixed effect) →
      effect.IsPlain := by
    intro operator effect found
    cases List.mem_singleton.mp (SortedMap.mem_of_get?_ofList found)
    decide
  have distinct : m.ids.Nodup := by decide
  have apart : m.moduleNames.Nodup := by decide
  have declared : m.declaredNames.Nodup := by decide
  have exchanged : Module.Exchanged [.stateVariable ⟨2⟩ "x"] first second others m m' :=
    ⟨rfl, rfl, rfl, rfl⟩
  have inside : ∀ declaration ∈ m.declarations, declaration ∈ m.toDeclaration.all :=
    fun _ => Module.mem_all_of_mem_declarations (Module.mem_modules_iff.mpr (Or.inl rfl))
  have unused : ∀ node ∈ first.nodes, node.used? ≠ some "g" := by decide
  have unused' : ∀ node ∈ second.nodes, node.used? ≠ some "f" := by decide
  have different : first ≠ second := fun same => absurd (congrArg Declaration.id same) (by decide)
  have independent : ¬ Refers signatures m first second := by
    refine not_refers distinct (inside second (by simp [m])) different fun node part name used named => ?_
    cases named
    exact unused node part used
  have independent' : ¬ Refers signatures m second first := by
    refine not_refers distinct (inside first (by simp [m])) different.symm
      fun node part name used named => ?_
    cases named
    exact unused' node part used
  let view (analysis : Analysis) := (analysis.isOk, [⟨3⟩, ⟨5⟩, ⟨13⟩].map analysis.effectOf?)
  obtain ⟨analysis, run, seen⟩ := exists_ok view (show (m.analyze signatures).toOption.map view =
    some (true, [some (polymorphic "_e0"), some (polymorphic "_e2"), some (.reads "x")]) by decide)
  obtain ⟨ok, effects⟩ := Prod.mk.inj seen
  obtain ⟨analysis', ρ, run', ok', renamed, injective, numbers⟩ := independent_declarations_commute fixed
    distinct apart declared exchanged independent independent' run ok
  obtain ⟨_, again, seen'⟩ := exists_ok view (show (m'.analyze signatures).toOption.map view =
    some (true, [some (polymorphic "_e2"), some (polymorphic "_e1"), some (.reads "x")]) by decide)
  cases run'.symm.trans again
  exact ⟨fixed, distinct, apart, declared, exchanged, independent, independent', analysis, analysis', ρ,
    run, ok, run', ok', renamed, injective, numbers, effects, (Prod.mk.inj seen').2⟩

end Inference

end SpecEffects
