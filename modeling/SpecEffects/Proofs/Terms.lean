import SpecEffects.Proofs.Application

/-!
Substitutions on effects as they are applied, and on terms of either kind. The substitution without
bindings leaves effects alone, and on canonical effects this is what replacing would do as well.
-/
namespace SpecEffects

namespace Substitution

variable {σ : Substitution}

@[simp] theorem get?_empty (name : String) : (∅ : Substitution).get? name = none := rfl

theorem apply_cases (σ : Substitution) :
    (σ = ∅ ∧ ∀ effect, σ.apply effect = .ok effect) ∨
      (σ.isEmpty = false ∧ ∀ effect, σ.apply effect = σ.replaceIn effect) := by
  cases h : σ.isEmpty
  · exact Or.inr ⟨rfl, fun effect => by simp [apply, h]⟩
  · exact Or.inl ⟨isEmpty_iff.mp h, fun effect => by simp [apply, h]⟩

theorem apply_eq_replaceIn {effect : Effect} (canonical : effect.Canonical) :
    σ.apply effect = σ.replaceIn effect := by
  rcases apply_cases σ with ⟨rfl, same⟩ | ⟨_, same⟩
  · rw [same, replaceIn_self canonical fun _ name _ => get?_empty name]
  · exact same effect

theorem exists_apply {effect : Effect} :
    (∃ result, σ.apply effect = .ok result) ↔
      ∀ kind name, effect.Uses kind name → σ.Allows kind name := by
  rcases apply_cases σ with ⟨rfl, same⟩ | ⟨_, same⟩
  · simp only [same]
    exact ⟨fun _ kind name _ => allows_of_unbound (get?_empty name), fun _ => ⟨effect, rfl⟩⟩
  · simp only [same]
    exact exists_replaceIn

theorem valueAt_empty (kind : Kind) (name : String) :
    (∅ : Substitution).valueAt kind name = kind.quantified name := rfl

theorem uses_apply {effect result : Effect} (run : σ.apply effect = .ok result) (kind : Kind)
    (name : String) :
    result.Uses kind name ↔
      ∃ other name', effect.Uses other name' ∧ (σ.valueAt other name').Uses kind name := by
  rcases apply_cases σ with ⟨rfl, same⟩ | ⟨_, same⟩
  · rw [same] at run
    cases run
    simp only [valueAt_empty, Term.uses_quantified]
    constructor
    · intro used
      exact ⟨kind, name, used, rfl, rfl⟩
    · rintro ⟨other, name', used, at_kind, at_name⟩
      subst at_kind at_name
      exact used
  · rw [same] at run
    exact uses_replaceIn run kind name

theorem everySet_apply {P : VariableSet → Prop} (values : σ.EverySet P)
    (kept : ∀ {set result}, P set → σ.applyToVariables set = .ok result → P result)
    {effect result : Effect} (sets : effect.EverySet P) (run : σ.apply effect = .ok result) :
    result.EverySet P := by
  rcases apply_cases σ with ⟨_, same⟩ | ⟨_, same⟩
  · rw [same] at run
    cases run
    exact sets
  · rw [same] at run
    exact everySet_replaceIn values kept sets run

theorem apply_quantified {name : String} {result : Effect} :
    σ.apply (.quantified name) = .ok result ↔ σ.valueAt .effect name = .effect result := by
  rw [apply_eq_replaceIn (.quantified name), replaceIn_quantified]

theorem apply_concrete {footprint : Footprint} {result : Effect}
    (canonical : ∀ component, (footprint.get component).Canonical) :
    σ.apply (.concrete footprint) = .ok result ↔
      ∃ after : Footprint,
        (∀ component, σ.applyToVariables (footprint.get component) = .ok (after.get component)) ∧
        result = .concrete after := by
  rw [apply_eq_replaceIn (.concrete canonical), replaceIn_concrete]

theorem apply_arrow {params : List Effect} {output result : Effect} :
    σ.apply (.arrow params output) = .ok result ↔
      ∃ params' output',
        List.Forall₂ (fun param after => σ.apply param = .ok after) params params' ∧
        σ.apply output = .ok output' ∧ result = .arrow params' output' := by
  rcases apply_cases σ with ⟨_, same⟩ | ⟨_, same⟩
  · simp only [same, Except.ok.injEq]
    constructor
    · intro eq
      subst eq
      exact ⟨params, output, List.forall₂_same.mpr fun _ _ => rfl, rfl, rfl⟩
    · rintro ⟨params', output', inputs, last, eq⟩
      rw [List.forall₂_eq_eq_eq] at inputs
      rw [eq, inputs, last]
  · simp only [same]
    exact replaceIn_arrow

theorem applyToTerm_effect {effect : Effect} {result : Term} :
    σ.applyToTerm (.effect effect) = .ok result ↔
      ∃ after, σ.apply effect = .ok after ∧ result = .effect after := by
  simp only [applyToTerm, bind_eq_ok, pure_eq_ok]

theorem applyToTerm_variables {set : VariableSet} {result : Term} :
    σ.applyToTerm (.variables set) = .ok result ↔
      ∃ after, σ.applyToVariables set = .ok after ∧ result = .variables after := by
  simp only [applyToTerm, bind_eq_ok, pure_eq_ok]

theorem kind_applyToTerm {term result : Term} (run : σ.applyToTerm term = .ok result) :
    result.kind = term.kind := by
  cases term
  · obtain ⟨after, _, rfl⟩ := applyToTerm_effect.mp run
    rfl
  · obtain ⟨after, _, rfl⟩ := applyToTerm_variables.mp run
    rfl

theorem exists_applyToTerm {term : Term} :
    (∃ result, σ.applyToTerm term = .ok result) ↔
      ∀ kind name, term.Uses kind name → σ.Allows kind name := by
  cases term
  · simp only [applyToTerm_effect]
    constructor
    · rintro ⟨_, after, run, _⟩
      exact exists_apply.mp ⟨after, run⟩
    · intro allowed
      obtain ⟨after, run⟩ := exists_apply.mpr allowed
      exact ⟨_, after, run, rfl⟩
  · simp only [applyToTerm_variables]
    constructor
    · rintro ⟨_, after, run, _⟩
      exact exists_applyToVariables.mp ⟨after, run⟩
    · intro allowed
      obtain ⟨after, run⟩ := exists_applyToVariables.mpr allowed
      exact ⟨_, after, run, rfl⟩

theorem uses_applyToTerm {term result : Term} (run : σ.applyToTerm term = .ok result) (kind : Kind)
    (name : String) :
    result.Uses kind name ↔
      ∃ other name', term.Uses other name' ∧ (σ.valueAt other name').Uses kind name := by
  cases term
  · obtain ⟨after, inside, rfl⟩ := applyToTerm_effect.mp run
    exact uses_apply inside kind name
  · obtain ⟨after, inside, rfl⟩ := applyToTerm_variables.mp run
    exact uses_applyToVariables inside kind name

theorem mem_concreteNames_applyToTerm {term result : Term} (run : σ.applyToTerm term = .ok result)
    (at_variables : term.kind = .variables) (var : String) :
    var ∈ result.concreteNames ↔
      var ∈ term.concreteNames ∨
        ∃ name, term.Uses .variables name ∧ var ∈ (σ.valueAt .variables name).concreteNames := by
  cases term
  · cases at_variables
  · obtain ⟨after, inside, rfl⟩ := applyToTerm_variables.mp run
    exact mem_concreteNames_applyToVariables inside var

theorem everySet_applyToTerm {P : VariableSet → Prop} (values : σ.EverySet P)
    (kept : ∀ {set result}, P set → σ.applyToVariables set = .ok result → P result)
    {term result : Term} (sets : term.EverySet P) (run : σ.applyToTerm term = .ok result) :
    result.EverySet P := by
  cases term
  · obtain ⟨after, inside, rfl⟩ := applyToTerm_effect.mp run
    exact everySet_apply values kept sets inside
  · obtain ⟨after, inside, rfl⟩ := applyToTerm_variables.mp run
    exact kept sets inside

theorem canonical_applyToTerm (values : σ.Canonical) {term result : Term}
    (canonical : term.Canonical) (run : σ.applyToTerm term = .ok result) : result.Canonical :=
  everySet_applyToTerm values (fun _ => canonical_applyToVariables values) canonical run

theorem apply_self {effect : Effect} (canonical : effect.Canonical)
    (unbound : ∀ kind name, effect.Uses kind name → σ.get? name = none) :
    σ.apply effect = .ok effect :=
  (apply_eq_replaceIn canonical).trans (replaceIn_self canonical unbound)

theorem applyToTerm_self {term : Term} (canonical : term.Canonical)
    (unbound : ∀ kind name, term.Uses kind name → σ.get? name = none) :
    σ.applyToTerm term = .ok term := by
  cases term with
  | effect effect =>
    rw [applyToTerm_effect]
    exact ⟨effect, apply_self canonical unbound, rfl⟩
  | _ set =>
    rw [applyToTerm_variables]
    exact ⟨set, applyToVariables_self canonical unbound, rfl⟩

theorem applyToTerm_quantified {kind : Kind} {name : String} {result : Term} :
    σ.applyToTerm (kind.quantified name) = .ok result ↔
      σ.Allows kind name ∧ result = σ.valueAt kind name := by
  cases kind
  · simp only [Kind.quantified, applyToTerm_effect, apply_quantified, Allows]
    constructor
    · rintro ⟨after, value, eq⟩
      rw [eq, value]
      exact ⟨rfl, rfl⟩
    · rintro ⟨kind, eq⟩
      rw [eq]
      cases value : σ.valueAt .effect name
      · exact ⟨_, rfl, rfl⟩
      · rw [value] at kind
        cases kind
  · simp only [Kind.quantified, applyToTerm_variables, applyToVariables_quantified, Allows]
    constructor
    · rintro ⟨after, value, eq⟩
      rw [eq, value]
      exact ⟨rfl, rfl⟩
    · rintro ⟨kind, eq⟩
      rw [eq]
      cases value : σ.valueAt .variables name
      · rw [value] at kind
        cases kind
      · exact ⟨_, rfl, rfl⟩

variable {V : Vocabulary}

theorem allows_of_over (bounded : σ.Over V) (separate : V.Separate) {kind : Kind} {name : String}
    (used : V kind name) : σ.Allows kind name := by
  cases found : σ.get? name with
  | none => exact allows_of_unbound found
  | some value =>
    rw [allows_of_get? found]
    exact separate.kind_eq (bounded _ (mem_of_get? found)).1 used

theorem exists_applyToTerm_of_over (bounded : σ.Over V) (separate : V.Separate) {term : Term}
    (within : term.Over V) : ∃ result, σ.applyToTerm term = .ok result :=
  exists_applyToTerm.mpr fun kind name used =>
    allows_of_over bounded separate (within kind name used)

theorem over_valueAt (values : σ.ValuesOver V) {kind : Kind} {name : String} (used : V kind name) :
    (σ.valueAt kind name).Over V := by
  cases found : σ.get? name with
  | none =>
    rw [valueAt_of_unbound found]
    intro other name' uses
    obtain ⟨rfl, rfl⟩ := Term.uses_quantified.mp uses
    exact used
  | some value =>
    rw [valueAt_of_get? found]
    exact values _ (mem_of_get? found)

theorem over_applyToTerm (values : σ.ValuesOver V) {term result : Term} (within : term.Over V)
    (run : σ.applyToTerm term = .ok result) : result.Over V := by
  intro kind name used
  obtain ⟨other, name', before, value⟩ := (uses_applyToTerm run kind name).mp used
  exact over_valueAt values (within other name' before) kind name value

theorem over_apply (values : σ.ValuesOver V) {effect result : Effect} (within : effect.Over V)
    (run : σ.apply effect = .ok result) : result.Over V := by
  have before : (Term.effect effect).Over V := within
  exact over_applyToTerm values before (applyToTerm_effect.mpr ⟨result, run, rfl⟩)

end Substitution

end SpecEffects
