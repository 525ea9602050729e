import Mathlib.Logic.Equiv.Basic
import SpecEffects.Proofs.Renaming
import SpecEffects.Proofs.Unification.SolvedForm
import SpecEffects.Proofs.Unification.Unions

/-!
Unification under a renaming. Renamed effects can be made equal exactly when the effects can, and
otherwise they fail for the same reason. The solutions are the same up to the renaming, also where a
name stands for an effect here and for a set there. Unions are listed in the order of their names,
which a renaming may change, so that the bindings may be found in another order.
-/
namespace SpecEffects

namespace Substitution

variable {ρ : String → String} {V : Vocabulary} {σ σ' new new' existing : Substitution}

theorem get?_of_mem (once : σ.BindsOnce) {binding : Binding} (member : binding ∈ σ.bindings) :
    σ.get? binding.name = some binding.value := by
  obtain ⟨value, found⟩ := get?_isSome_of_mem member
  have same : (⟨binding.name, value⟩ : Binding) = binding :=
    List.inj_on_of_nodup_map once (mem_of_get? found) member rfl
  rw [found, ← same]

theorem exists_compose_iff :
    (∃ composed, new.compose existing = .ok composed) ↔
      ∀ binding ∈ existing.bindings, ∃ value, new.applyToTerm binding.value = .ok value := by
  constructor
  · rintro ⟨composed, run⟩ binding member
    obtain ⟨changed, each, _⟩ := compose_eq_ok.mp run
    obtain ⟨result, _, _, value⟩ := forall₂_mem_left each member
    exact ⟨result.value, value⟩
  · exact exists_compose

/-- One substitution is the other under a renaming, as a finite map on the names that are renamed.
A name may be used at both kinds. -/
structure Mirrored (ρ : String → String) (V : Vocabulary) (σ σ' : Substitution) : Prop where
  canonical : σ.Canonical
  canonical' : σ'.Canonical
  once : σ.BindsOnce
  once' : σ'.BindsOnce
  spelled : σ.Over V
  spelled' : σ'.Over (V.image ρ)
  image : ∀ {kind name}, V kind name → σ'.get? (ρ name) = (σ.get? name).map (Term.rename ρ)

namespace Mirrored

theorem commutes (mirrored : Mirrored ρ V σ σ') : Commutes ρ ρ V σ σ' := by
  refine ⟨mirrored.canonical, mirrored.canonical', fun {kind name} used => ?_⟩
  exact valueAt_rename (mirrored.image used) kind

theorem matched (mirrored : Mirrored ρ V σ σ') (separate : V.Separate) : Matched ρ V V σ σ' := by
  refine ⟨mirrored.canonical, mirrored.canonical', ?_, mirrored.image⟩
  intro kind name value used found
  obtain ⟨used', within⟩ := mirrored.spelled _ (mem_of_get? found)
  exact ⟨separate.kind_eq used' used, within⟩

theorem mem_image (mirrored : Mirrored ρ V σ σ') {binding : Binding}
    (member : binding ∈ σ.bindings) :
    ⟨ρ binding.name, binding.value.rename ρ⟩ ∈ σ'.bindings := by
  apply mem_of_get?
  rw [mirrored.image (mirrored.spelled binding member).1, get?_of_mem mirrored.once member]
  rfl

theorem exists_of_mem (mirrored : Mirrored ρ V σ σ') {binding' : Binding}
    (member : binding' ∈ σ'.bindings) :
    ∃ binding ∈ σ.bindings, ρ binding.name = binding'.name ∧
      binding.value.rename ρ = binding'.value := by
  obtain ⟨old, used, same⟩ := (mirrored.spelled' binding' member).1
  have image := mirrored.image used
  rw [same, get?_of_mem mirrored.once' member] at image
  obtain ⟨value, found, renamed⟩ := Option.map_eq_some_iff.mp image.symm
  exact ⟨⟨old, value⟩, mem_of_get? found, same, renamed⟩

theorem empty : Mirrored ρ V ∅ ∅ :=
  ⟨everySet_empty, everySet_empty, List.nodup_nil, List.nodup_nil, over_empty, over_empty,
    fun _ => rfl⟩

theorem single (injective : V.Injective ρ) {name : String} {value : Term}
    (used : V value.kind name) (canonical : value.Canonical) (within : value.Over V) :
    Mirrored ρ V (.single name value) (.single (ρ name) (value.rename ρ)) := by
  refine ⟨everySet_single canonical, everySet_single (value.canonical_rename ρ),
    bindsOnce_single _ _, bindsOnce_single _ _, over_single used within, over_single ?_ ?_, ?_⟩
  · rw [Term.kind_rename]
    exact ⟨name, used, rfl⟩
  · intro kind other used'
    obtain ⟨old, before, rfl⟩ := Term.uses_rename.mp used'
    exact ⟨old, within kind old before, rfl⟩
  · intro kind other used'
    rw [get?_single, get?_single]
    by_cases same : name = other
    · rw [if_pos same, if_pos (congrArg ρ same)]
      rfl
    · rw [if_neg same, if_neg fun equal => same (injective used used' equal)]
      rfl

theorem assign (injective : V.Injective ρ) (vars : NameSet) {names : NameSet}
    (within : ∀ name, name ∈ names → V .variables name) :
    Mirrored ρ V (VariableSet.assign vars names.toList)
      (VariableSet.assign vars (names.image ρ).toList) := by
  have closed : ∀ V : Vocabulary, (Term.variables (.concrete vars)).Over V :=
    fun _ _ _ used => absurd used VariableSet.uses_concrete
  have once : ∀ names : NameSet, (VariableSet.assign vars names.toList).BindsOnce := by
    intro names
    simpa [BindsOnce, VariableSet.assign, Function.comp_def] using names.toList_nodup
  refine ⟨VariableSet.canonical_assign _ _, VariableSet.canonical_assign _ _, once names,
    once (names.image ρ), ?_, ?_, ?_⟩
  · intro binding member
    obtain ⟨name, present, rfl⟩ := List.mem_map.mp member
    exact ⟨within name present, closed V⟩
  · intro binding member
    obtain ⟨name, present, rfl⟩ := List.mem_map.mp member
    obtain ⟨old, before, same⟩ := SortedSet.mem_image.mp present
    exact ⟨⟨old, within old before, same⟩, closed _⟩
  · intro kind name used
    rw [VariableSet.get?_assign, VariableSet.get?_assign]
    by_cases present : name ∈ names.toList
    · have image : ρ name ∈ (names.image ρ).toList := SortedSet.mem_image.mpr ⟨name, present, rfl⟩
      rw [if_pos present, if_pos image]
      rfl
    · have outside : ρ name ∉ (names.image ρ).toList := by
        intro image
        obtain ⟨old, before, same⟩ := SortedSet.mem_image.mp image
        cases injective (within old before) used same
        exact present before
      rw [if_neg present, if_neg outside]
      rfl

theorem applyToVariables (mirrored : Mirrored ρ V σ σ') {set : VariableSet}
    (within : (Term.variables set).Over V) :
    Corresponds (fun _ _ => True) (fun after after' => after' = after.rename ρ ∧
        after.Canonical ∧ (Term.variables after).Over V)
      (σ.applyToVariables set) (σ'.applyToVariables (set.rename ρ)) := by
  refine .of_exists_iff ?_ fun after after' run run' => ?_
  · rw [exists_applyToVariables, exists_applyToVariables]
    exact mirrored.commutes.allowed_iff within
  · have both := mirrored.commutes.applyToVariables within run
    exact ⟨Except.ok.inj (run'.symm.trans both),
      canonical_applyToVariables mirrored.canonical run,
      over_applyToTerm mirrored.spelled.values within (applyToTerm_variables.mpr ⟨after, run, rfl⟩)⟩

theorem apply (mirrored : Mirrored ρ V σ σ') {effect : Effect} (canonical : effect.Canonical)
    (within : effect.Over V) :
    Corresponds (fun _ _ => True) (fun after after' => after' = after.rename ρ ∧
        after.Canonical ∧ after.Over V ∧ σ.apply effect = .ok after)
      (σ.apply effect) (σ'.apply (effect.rename ρ)) := by
  refine .of_exists_iff ?_ fun after after' run run' => ?_
  · rw [exists_apply, exists_apply]
    exact mirrored.commutes.allowed_iff (show (Term.effect effect).Over V from within)
  · have both := mirrored.commutes.apply canonical within run
    exact ⟨Except.ok.inj (run'.symm.trans both), everySet_apply mirrored.canonical
      (fun _ => canonical_applyToVariables mirrored.canonical) canonical run,
      over_apply mirrored.spelled.values within run, run⟩

theorem compose (news : Mirrored ρ V new new') (olds : Mirrored ρ V σ σ') :
    Corresponds (fun _ _ => True) (Mirrored ρ V) (new.compose σ) (new'.compose σ') := by
  refine .of_exists_iff ?_ fun composed composed' run run' => ?_
  · rw [exists_compose_iff, exists_compose_iff]
    constructor
    · intro each binding' member'
      obtain ⟨binding, member, _, same⟩ := olds.exists_of_mem member'
      rw [← same, ← news.commutes.exists_iff (olds.spelled.values binding member)]
      exact each binding member
    · intro each binding member
      rw [news.commutes.exists_iff (olds.spelled.values binding member)]
      exact each _ (olds.mem_image member)
  · refine ⟨canonical_compose news.canonical olds.canonical run,
      canonical_compose news.canonical' olds.canonical' run', news.once.compose olds.once run,
      news.once'.compose olds.once' run', over_compose news.spelled olds.spelled run,
      over_compose news.spelled' olds.spelled' run', fun {kind name} used => ?_⟩
    have image := olds.image used
    cases found : σ.get? name with
    | none =>
      rw [found] at image
      rw [get?_compose_unbound run found, get?_compose_unbound run' image]
      exact news.image used
    | some value =>
      rw [found] at image
      obtain ⟨after, applied, kept⟩ := get?_compose_bound run found
      obtain ⟨after', applied', kept'⟩ := get?_compose_bound run' image
      have member := mem_of_get? found
      have both := news.commutes.applyToTerm (olds.canonical _ member)
        (olds.spelled.values _ member) applied
      cases applied'.symm.trans both
      rw [kept, kept']
      rfl

end Mirrored

end Substitution

open Substitution Unification

variable {ρ : String → String} {V : Vocabulary} {σ σ' : Substitution}

namespace VariableSet

variable {set other : VariableSet}

theorem bind_alike (injective : V.Injective ρ) {name : String} (used : V .variables name)
    (canonical : set.Canonical) (within : (Term.variables set).Over V) :
    Alike (Mirrored ρ V) (bind name set) (bind (ρ name) (set.rename ρ)) := by
  unfold bind
  by_cases inside : name ∈ set.quantifiedNames
  · rw [if_pos inside, if_pos (mem_quantifiedNames_rename.mpr ⟨name, inside, rfl⟩)]
    exact .error rfl
  · have outside : ρ name ∉ (set.rename ρ).quantifiedNames := by
      intro renamed
      obtain ⟨old, inside', same⟩ := mem_quantifiedNames_rename.mp renamed
      cases injective (within .variables old ⟨rfl, inside'⟩) used same
      exact inside inside'
    rw [if_neg inside, if_neg outside]
    exact .ok (.single injective used canonical within)

theorem union_alike (injective : V.Injective ρ) (flipped : Bool) (vars : NameSet)
    {sets : List VariableSet} (canonical : (union sets).Canonical)
    (within : (Term.variables (union sets)).Over V) :
    Alike (Mirrored ρ V)
      ((sides flipped (union sets) vars).1.unify (sides flipped (union sets) vars).2)
      ((sides flipped ((union sets).rename ρ) vars).1.unify
        (sides flipped ((union sets).rename ρ) vars).2) := by
  obtain ⟨names, own, _, rfl, renamed⟩ := rename_union injective canonical within
  have inside : ∀ name, name ∈ names → V .variables name := by
    intro name present
    apply within .variables name ⟨rfl, ?_⟩
    exact mem_quantifiedNames_union.mpr (mem_quantifiedNames_members.mpr present)
  rw [renamed]
  exact unions_alike flipped flipped own (.assign injective vars inside)

theorem unify_alike (injective : V.Injective ρ) (canonical : set.Canonical)
    (canonical' : other.Canonical) (within : (Term.variables set).Over V)
    (within' : (Term.variables other).Over V) :
    Alike (Mirrored ρ V) (set.unify other) ((set.rename ρ).unify (other.rename ρ)) := by
  have named : ∀ {name}, (Term.variables (quantified name)).Over V → V .variables name :=
    fun spelled => spelled _ _ (uses_quantified.mpr ⟨rfl, rfl⟩)
  by_cases same : set = other
  · subst same
    rw [unify_self, unify_self]
    exact .ok .empty
  · have different : set.rename ρ ≠ other.rename ρ := fun equal =>
      same (rename_injective injective canonical canonical' within within' equal)
    cases set with
    | quantified name =>
      have bound := bind_alike injective (named within) canonical' within'
      rw [rename_quantified] at different ⊢
      simpa only [unify, solveWith, same, different, if_false] using bound
    | concrete vars =>
      cases other with
      | concrete vars' =>
        rw [rename_concrete, rename_concrete] at different ⊢
        simp only [unify, solveWith, same, if_false]
        exact .error rfl
      | quantified name =>
        have bound := bind_alike injective (named within') canonical within
        rw [rename_concrete] at bound
        rw [rename_quantified, rename_concrete] at different ⊢
        simpa only [unify, solveWith, same, different, if_false] using bound
      | union sets => exact union_alike injective true vars canonical' within'
    | union sets =>
      cases other with
      | concrete vars => exact union_alike injective false vars canonical within
      | quantified name =>
        have bound := bind_alike injective (named within') canonical within
        obtain ⟨_, _, _, _, renamed⟩ := rename_union injective canonical within
        rw [rename_quantified] at different ⊢
        rw [renamed] at different bound ⊢
        simpa only [unify, solveWith, same, different, if_false] using bound
      | union sets' =>
        obtain ⟨_, _, _, _, renamed⟩ := rename_union injective canonical within
        obtain ⟨_, _, _, _, renamed'⟩ := rename_union injective canonical' within'
        rw [renamed, renamed'] at different ⊢
        simp only [unify, solveWith, same, different, if_false]
        exact .error rfl

theorem solveUnder_alike (injective : V.Injective ρ) (known : Mirrored ρ V σ σ')
    (within : (Term.variables set).Over V) (within' : (Term.variables other).Over V) :
    Alike (Mirrored ρ V) (solveUnder unify σ set other)
      (solveUnder unify σ' (set.rename ρ) (other.rename ρ)) := by
  unfold solveUnder
  apply (alike_of_corresponds (known.applyToVariables within)).bind
  rintro left _ ⟨rfl, canonical, inside⟩
  apply (alike_of_corresponds (known.applyToVariables within')).bind
  rintro right _ ⟨rfl, canonical', inside'⟩
  apply (unify_alike injective canonical canonical' inside inside').bind
  intro new new' news
  exact alike_of_corresponds (news.compose known)

end VariableSet

namespace Effect

theorem footprint_alike (injective : V.Injective ρ) {expected actual : Footprint}
    (within : (concrete expected).Over V) (within' : (concrete actual).Over V) :
    Alike (Mirrored ρ V) (expected.unify actual)
      ((Footprint.ofFn fun component => (expected.get component).rename ρ).unify
        (.ofFn fun component => (actual.get component).rename ρ)) := by
  apply footprints_alike .empty fun left right => (left.rename ρ, right.rename ρ)
  · intro component
    rw [get_rename, get_rename]
  · intro component known known' related
    rw [get_rename, get_rename]
    exact VariableSet.solveUnder_alike injective related
      (fun kind name used => within kind name (uses_concrete.mpr ⟨component, used⟩))
      fun kind name used => within' kind name (uses_concrete.mpr ⟨component, used⟩)

variable {effect other : Effect}

theorem bind_alike (injective : V.Injective ρ) {name : String} (used : V .effect name)
    (canonical : effect.Canonical) (within : effect.Over V) :
    Alike (Mirrored ρ V) (bind name effect) (bind (ρ name) (effect.rename ρ)) := by
  unfold bind
  by_cases inside : name ∈ effect.names
  · obtain ⟨kind, inside'⟩ := mem_names.mp inside
    rw [if_pos inside, if_pos (mem_names.mpr ⟨kind, uses_rename.mpr ⟨name, inside', rfl⟩⟩)]
    exact .error rfl
  · have outside : ρ name ∉ (effect.rename ρ).names := by
      intro renamed
      obtain ⟨kind, renamed⟩ := mem_names.mp renamed
      obtain ⟨old, inside', same⟩ := uses_rename.mp renamed
      cases injective (within kind old inside') used same
      exact inside (mem_names.mpr ⟨kind, inside'⟩)
    rw [if_neg inside, if_neg outside]
    exact .ok (.single injective used canonical within)

theorem arrowPieces_rename (ρ : String → String) (params params' : List Effect)
    (result result' : Effect) :
    arrowPieces (params.map (rename ρ)) (params'.map (rename ρ)) (result.rename ρ)
        (result'.rename ρ) =
      (arrowPieces params params' result result').map fun piece =>
        (piece.1, piece.2.1.rename ρ, piece.2.2.rename ρ) := by
  rw [arrowPieces, arrowPieces, List.map_append]
  congr 1
  exact List.ext_getElem (by simp) (by simp)

theorem solveUnder_alike (known : Mirrored ρ V σ σ') (canonical : effect.Canonical)
    (canonical' : other.Canonical) (within : effect.Over V) (within' : other.Over V)
    (called : ∀ left right, σ.apply effect = .ok left → σ.apply other = .ok right →
      left.Canonical → right.Canonical → left.Over V → right.Over V →
      Alike (Mirrored ρ V) (left.unify right) ((left.rename ρ).unify (right.rename ρ))) :
    Alike (Mirrored ρ V) (solveUnder unify σ effect other)
      (solveUnder unify σ' (effect.rename ρ) (other.rename ρ)) := by
  unfold solveUnder
  apply (alike_of_corresponds (known.apply canonical within)).bind
  rintro left _ ⟨rfl, canonicals, inside, run⟩
  apply (alike_of_corresponds (known.apply canonical' within')).bind
  rintro right _ ⟨rfl, canonicals', inside', run'⟩
  apply (called left right run run' canonicals canonicals' inside inside').bind
  intro new new' news
  exact alike_of_corresponds (news.compose known)

theorem unify_alike (injective : V.Injective ρ) (canonical : effect.Canonical)
    (canonical' : other.Canonical) (within : effect.Over V) (within' : other.Over V) :
    Alike (Mirrored ρ V) (effect.unify other) ((effect.rename ρ).unify (other.rename ρ)) := by
  have named : ∀ {name}, (quantified name).Over V → V .effect name :=
    fun spelled => spelled _ _ (uses_quantified.mpr ⟨rfl, rfl⟩)
  induction effect, other using effects_induction with
  | step effect other ih =>
    rw [unify_eq_solveLayer, unify_eq_solveLayer]
    cases effect with
    | quantified name =>
      simp only [rename, solveLayer]
      by_cases same : other = .quantified name
      · subst same
        simp only [rename, if_true]
        exact .ok .empty
      · have different : other.rename ρ ≠ .quantified (ρ name) := fun equal =>
          same (rename_injective injective canonical' canonical within' within equal)
        rw [if_neg same, if_neg different]
        exact bind_alike injective (named within) canonical' within'
    | concrete expected =>
      cases other with
      | concrete actual => exact footprint_alike injective within within'
      | quantified name => exact bind_alike injective (named within') canonical within
      | arrow params result => exact .error rfl
    | arrow params result =>
      cases other with
      | concrete actual => exact .error rfl
      | quantified name => exact bind_alike injective (named within') canonical within
      | arrow params' result' =>
        rw [rename_arrow, rename_arrow]
        simp only [solveLayer, List.length_map, arrowPieces_rename]
        split
        · rename_i arity
          apply arrows_alike .empty (fun left right => (left.rename ρ, right.rename ρ)) arity canonical
            canonical' within within'
          intro left right known known' written written' spelled spelled' related calls
          apply solveUnder_alike related written written' spelled spelled'
          intro called called' run run' canonical canonical' within within'
          exact ih called called' (calls called called' run run') canonical canonical' within within'
        · exact .error rfl

variable {A B : Effect}

/-- Renamed sides can be made equal exactly when the sides can, and fail for the same reason. The
solution binds the renamed names to the renamed values and nothing else. Values are compared in
canonical form, which renaming ends in. -/
theorem unification_is_independent_of_names (injective : Function.Injective ρ)
    (canonical : A.Canonical) (canonical' : B.Canonical) :
    ((∃ σ, A.unify B = .ok σ) ↔ ∃ σ', (A.rename ρ).unify (B.rename ρ) = .ok σ') ∧
    (∀ error error', A.unify B = .error error →
      (A.rename ρ).unify (B.rename ρ) = .error error' →
      error'.rootCause.reason = error.rootCause.reason) ∧
    ∀ σ σ', A.unify B = .ok σ → (A.rename ρ).unify (B.rename ρ) = .ok σ' →
      (∀ name value, value.Canonical →
        (σ'.get? (ρ name) = some (value.rename ρ) ↔ σ.get? name = some value)) ∧
      ∀ name' value', σ'.get? name' = some value' →
        ∃ name value, σ.get? name = some value ∧ ρ name = name' ∧ value.rename ρ = value' := by
  have apart : ∀ V : Vocabulary, V.Injective ρ := fun _ _ _ _ _ _ _ same => injective same
  have alike := unify_alike (apart _) canonical canonical'
    (V := fun kind name => A.Uses kind name ∨ B.Uses kind name) (fun _ _ => Or.inl) fun _ _ => Or.inr
  refine ⟨alike.exists_iff, fun _ _ => rootCause_alike alike, fun σ σ' run run' => ?_⟩
  have mirrored := alike.related run run'
  have back : ∀ {name' value'}, σ'.get? name' = some value' →
      ∃ name value, σ.get? name = some value ∧ ρ name = name' ∧ value.rename ρ = value' := by
    intro name' value' found
    obtain ⟨binding, member, name, value⟩ := mirrored.exists_of_mem (mem_of_get? found)
    exact ⟨_, _, get?_of_mem mirrored.once member, name, value⟩
  refine ⟨fun name value written => ⟨fun found => ?_, fun found => ?_⟩, fun _ _ => back⟩
  · obtain ⟨old, bound, before, same, renamed⟩ := back found
    cases injective same
    have canonicals : bound.Canonical := mirrored.canonical _ (mem_of_get? before)
    rw [before, Term.rename_injective (apart fun _ _ => True) canonicals written
      (fun _ _ _ => trivial) (fun _ _ _ => trivial) renamed]
  · rw [mirrored.image (mirrored.spelled _ (mem_of_get? found)).1, found]
    rfl

/-- The names `a` and `c` change places, so that the names of the union are bound in another order.
Where the name `a` has both kinds, both runs fail for this reason. -/
theorem independent_of_order_of_names :
    let ρ : String → String := Equiv.swap "a" "c"
    let A : Effect := .arrow [.concrete ⟨.union [.quantified "a", .quantified "b"], .empty, .empty⟩]
      (.concrete ⟨.quantified "c", .empty, .empty⟩)
    let B : Effect := .arrow [.reads "x"] (.concrete
      ⟨.union [.quantified "a", .quantified "d", .concrete (.singleton "y")], .empty, .empty⟩)
    let value : Term := .variables (.union [.quantified "d", .concrete (.ofList ["x", "y"])])
    let σ : Substitution := ⟨[⟨"a", .variables (.concrete (.singleton "x"))⟩,
      ⟨"b", .variables (.concrete (.singleton "x"))⟩, ⟨"c", value⟩]⟩
    let σ' : Substitution := ⟨[⟨"b", .variables (.concrete (.singleton "x"))⟩,
      ⟨"c", .variables (.concrete (.singleton "x"))⟩, ⟨"a", value⟩]⟩
    let C : Effect := .arrow [.quantified "a"] (.concrete ⟨.quantified "a", .empty, .empty⟩)
    let D : Effect := .arrow [.reads "x"] (.reads "x")
    let error : UnificationError :=
      .nested .result (.effect C) (.effect D) (.kindMismatch ⟨"a", .variables⟩)
    let error' : UnificationError :=
      .nested .result (.effect (C.rename ρ)) (.effect D) (.kindMismatch ⟨"c", .variables⟩)
    Function.Injective ρ ∧ A.Canonical ∧ B.Canonical ∧ A.unify B = .ok σ ∧
      (A.rename ρ).unify (B.rename ρ) = .ok σ' ∧
      (σ'.get? (ρ "c") = some (value.rename ρ) ↔ σ.get? "c" = some value) ∧
      C.Canonical ∧ D.Canonical ∧ C.unify D = .error error ∧
      (C.rename ρ).unify (D.rename ρ) = .error error' ∧
      error'.rootCause.reason = error.rootCause.reason := by
  intro ρ A B value σ σ' C D error error'
  have injective : Function.Injective ρ := (Equiv.swap "a" "c").injective
  have canonical : A.Canonical := by decide
  have canonical' : B.Canonical := by decide
  have written : value.Canonical := by decide
  have run : A.unify B = .ok σ := by decide
  have run' : (A.rename ρ).unify (B.rename ρ) = .ok σ' := by decide
  have same := (unification_is_independent_of_names injective canonical canonical').2.2 σ σ' run run'
  have clashing : C.Canonical := by decide
  have closed : D.Canonical := by decide
  have failed : C.unify D = .error error := by decide
  have failed' : (C.rename ρ).unify (D.rename ρ) = .error error' := by decide
  have reason := (unification_is_independent_of_names injective clashing closed).2.1 error error'
    failed failed'
  exact ⟨injective, canonical, canonical', run, run', same.1 "c" value written, clashing, closed,
    failed, failed', reason⟩

end Effect

end SpecEffects
