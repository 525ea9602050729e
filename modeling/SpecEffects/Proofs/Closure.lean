import SpecEffects.Proofs.Inference.StateSteps

/-!
Canonical form is closed under all operations on effects. Values that are put for a name are canonical
as they are, and a union in which a name is replaced is joined again. What is built from scratch is
joined in the first place. So no operation leaves the sets that are determined by their names, and to
compare two sets is to compare what they stand for.
-/
namespace SpecEffects

namespace Substitution

variable {σ : Substitution}

theorem canonical_apply (values : σ.Canonical) {effect result : Effect} (canonical : effect.Canonical)
    (run : σ.apply effect = .ok result) : result.Canonical :=
  everySet_apply values (fun _ => canonical_applyToVariables values) canonical run

end Substitution

theorem VariableSet.unify_canonical {s t : VariableSet} {σ : Substitution} (canonical : s.Canonical)
    (canonical' : t.Canonical) (run : s.unify t = .ok σ) : σ.Canonical :=
  (Unification.unify_variables_solved Unification.Layer.sound run canonical canonical').1

/-- Applying and composing canonical substitutions and unifying canonical terms give canonical
results. Footprints that are put together from parts, and the effects of operators that pass on what
their arguments do, are canonical whatever they are made from. -/
theorem canonical_form_is_closed :
    (∀ σ : Substitution, σ.Canonical →
      (∀ effect result, effect.Canonical → σ.apply effect = .ok result → result.Canonical) ∧
      (∀ set result, set.Canonical → σ.applyToVariables set = .ok result → result.Canonical) ∧
      ∀ existing composed : Substitution, existing.Canonical → σ.compose existing = .ok composed →
        composed.Canonical) ∧
    (∀ (A B : Effect) (σ : Substitution), A.Canonical → B.Canonical → A.unify B = .ok σ →
      σ.Canonical) ∧
    (∀ (s t : VariableSet) (σ : Substitution), s.Canonical → t.Canonical → s.unify t = .ok σ →
      σ.Canonical) ∧
    (∀ parts, (Effect.concrete (.ofParts parts)).Canonical) ∧
    ∀ components arity, (Signature.instantiate (.propagate components) arity).Canonical := by
  refine ⟨fun σ values => ⟨fun effect result => ?_, fun set result _ => ?_, fun existing composed => ?_⟩,
    fun A B σ canonical canonical' run => ?_, fun s t σ => ?_, ?_, fun components arity => ?_⟩
  · exact Substitution.canonical_apply values
  · exact Substitution.canonical_applyToVariables values
  · exact Substitution.canonical_compose values
  · exact (Effect.unify_canonical canonical canonical' run).1
  · exact VariableSet.unify_canonical
  · exact Inference.canonical_ofParts
  · exact (Inference.propagate_spec components arity).1

/-- A union in which one name becomes a second name of it and another the empty set shrinks to a
name. The same names are bound by unification, and composed with a substitution that brings one of
them into a value. -/
theorem closed_under_shrinking_unions :
    let union : VariableSet := .union [.quantified "u", .quantified "v", .quantified "w"]
    let σ : Substitution := ⟨[⟨"u", .variables (.quantified "w")⟩, ⟨"v", .variables .empty⟩]⟩
    let existing : Substitution := .single "e" (.effect (.concrete ⟨union, .empty, union⟩))
    let composed : Substitution := ⟨⟨"e", .effect (.concrete
      ⟨.quantified "w", .empty, .quantified "w"⟩)⟩ :: σ.bindings⟩
    let A : Effect := .concrete ⟨.quantified "u", .quantified "v", union⟩
    let B : Effect := .concrete ⟨.quantified "w", .empty, .quantified "w"⟩
    σ.Canonical ∧ existing.Canonical ∧ A.Canonical ∧ B.Canonical ∧
      σ.applyToVariables union = .ok (.quantified "w") ∧
      (σ.apply A = .ok B ∧ B.Canonical) ∧
      (σ.compose existing = .ok composed ∧ composed.Canonical) ∧
      A.unify B = .ok σ ∧ σ.Canonical := by
  intro union σ existing composed A B
  have values : σ.Canonical := by decide
  have values' : existing.Canonical := by decide
  have canonical : A.Canonical := by decide
  have canonical' : B.Canonical := by decide
  have applied : σ.apply A = .ok B := by decide
  have added : σ.compose existing = .ok composed := by decide
  have solved : A.unify B = .ok σ := by decide
  obtain ⟨algebra, unified, _⟩ := canonical_form_is_closed
  obtain ⟨apply, _, compose⟩ := algebra σ values
  exact ⟨values, values', canonical, canonical', by decide, ⟨applied, apply A B canonical applied⟩,
    ⟨added, compose existing composed values' added⟩, solved,
    unified A B σ canonical canonical' solved⟩

end SpecEffects
