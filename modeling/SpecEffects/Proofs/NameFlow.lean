import SpecEffects.Proofs.Associativity

/-!
How names flow through a substitution. A name of the result either was there before and is not bound,
or it comes in with a value that a name of the term is bound to. Names of sets also come in with the
values of effects. Joining drops no name, and what a value brings is not looked into again.
-/
namespace SpecEffects.Substitution

variable {σ : Substitution} {used : Kind → String → Prop}

theorem uses_valueAt {kind other : Kind} {name old : String} : (σ.valueAt other old).Uses kind name ↔
    (σ.get? old = none ∧ kind = other ∧ name = old) ∨
      ∃ value, σ.get? old = some value ∧ value.Uses kind name := by
  cases found : σ.get? old with
  | none => simp [valueAt_of_unbound found]
  | some value => simp [valueAt_of_get? found]

theorem uses_values_iff (allowed : ∀ kind name, used kind name → σ.Allows kind name) (kind : Kind)
    (name : String) :
    (∃ other old, used other old ∧ (σ.valueAt other old).Uses kind name) ↔
      used kind name ∧ σ.binds name = false ∨
      (∃ old, used .effect old ∧ ∃ value, σ.get? old = some (.effect value) ∧ value.Uses kind name) ∨
      ∃ old, used .variables old ∧
        ∃ value, σ.get? old = some (.variables value) ∧ value.Uses kind name := by
  rw [binds_eq_isSome, Option.isSome_eq_false_iff, Option.isNone_iff_eq_none]
  constructor
  · rintro ⟨other, old, at_old, brought⟩
    rcases uses_valueAt.mp brought with ⟨unbound, rfl, rfl⟩ | ⟨value, found, brought'⟩
    · exact Or.inl ⟨at_old, unbound⟩
    · -- The value is of the kind at which the name is used, or there would be no result.
      have fits := (allows_of_get? found).mp (allowed other old at_old)
      subst fits
      cases value
      · exact Or.inr (Or.inl ⟨old, at_old, _, found, brought'⟩)
      · exact Or.inr (Or.inr ⟨old, at_old, _, found, brought'⟩)
  · rintro (⟨at_name, unbound⟩ | ⟨old, at_old, value, found, brought⟩ |
      ⟨old, at_old, value, found, brought⟩)
    · exact ⟨kind, name, at_name, uses_valueAt.mpr (Or.inl ⟨unbound, rfl, rfl⟩)⟩
    · exact ⟨.effect, old, at_old, uses_valueAt.mpr (Or.inr ⟨_, found, brought⟩)⟩
    · exact ⟨.variables, old, at_old, uses_valueAt.mpr (Or.inr ⟨_, found, brought⟩)⟩

theorem uses_result {effect result : Effect} (run : σ.apply effect = .ok result) (kind : Kind)
    (name : String) :
    result.Uses kind name ↔
      effect.Uses kind name ∧ σ.binds name = false ∨
      (∃ old, effect.Uses .effect old ∧
        ∃ value, σ.get? old = some (.effect value) ∧ value.Uses kind name) ∨
      ∃ old, effect.Uses .variables old ∧
        ∃ value, σ.get? old = some (.variables value) ∧ value.Uses kind name := by
  rw [uses_apply run]
  exact uses_values_iff (exists_apply.mp ⟨result, run⟩) kind name

/-- The names of a result are exactly those of the term that are not bound and those of the values
that the names of the term are bound to. Effects bring names of both kinds, sets only names of
sets. -/
theorem names_flow_from_term_and_values (σ : Substitution) :
    (∀ effect result, σ.apply effect = .ok result → ∀ name,
      (name ∈ result.effectNames ↔
        name ∈ effect.effectNames ∧ σ.binds name = false ∨
        ∃ old ∈ effect.effectNames,
          ∃ value, σ.get? old = some (.effect value) ∧ name ∈ value.effectNames) ∧
      (name ∈ result.variableNames ↔
        name ∈ effect.variableNames ∧ σ.binds name = false ∨
        (∃ old ∈ effect.effectNames,
          ∃ value, σ.get? old = some (.effect value) ∧ name ∈ value.variableNames) ∨
        ∃ old ∈ effect.variableNames,
          ∃ value, σ.get? old = some (.variables value) ∧ name ∈ value.quantifiedNames)) ∧
    ∀ set result, σ.applyToVariables set = .ok result → ∀ name,
      name ∈ result.quantifiedNames ↔
        name ∈ set.quantifiedNames ∧ σ.binds name = false ∨
        ∃ old ∈ set.quantifiedNames,
          ∃ value, σ.get? old = some (.variables value) ∧ name ∈ value.quantifiedNames := by
  refine ⟨fun effect result run name => ⟨?_, ?_⟩, fun set result run name => ?_⟩
  · have flow := uses_result run .effect name
    simpa [Effect.Uses, VariableSet.Uses] using flow
  · have flow := uses_result run .variables name
    simpa [Effect.Uses, VariableSet.Uses] using flow
  · have flow := uses_values_iff (exists_applyToVariables.mp ⟨result, run⟩) .variables name
    rw [← uses_applyToVariables run .variables name] at flow
    simpa [VariableSet.Uses] using flow

/-- A name that is bound twice, an effect that brings names of both kinds, and a nested union of which
one member becomes empty and another a union. -/
theorem names_flow_through_nested_union :
    let value : Effect := .arrow [.quantified "f"] (.concrete ⟨.quantified "w", .empty, .empty⟩)
    let σ : Substitution := ⟨[⟨"e", .effect value⟩, ⟨"e", .effect (.quantified "g")⟩,
      ⟨"u", .variables .empty⟩, ⟨"v", .variables (.union [.quantified "w", .quantified "x"])⟩]⟩
    let set : VariableSet := .union [.quantified "u", .union [.quantified "v", .quantified "y"]]
    let after : VariableSet := .union [.quantified "w", .quantified "x", .quantified "y"]
    let effect : Effect := .arrow [.quantified "e", .quantified "k"] (.concrete ⟨.empty, set, .empty⟩)
    let result : Effect := .arrow [value, .quantified "k"] (.concrete ⟨.empty, after, .empty⟩)
    σ.apply effect = .ok result ∧
    ("f" ∈ result.effectNames ∧ "k" ∈ result.effectNames ∧ ¬ "g" ∈ result.effectNames) ∧
    ("w" ∈ result.variableNames ∧ "x" ∈ result.variableNames ∧ ¬ "u" ∈ result.variableNames) ∧
    σ.applyToVariables set = .ok after ∧ "y" ∈ after.quantifiedNames := by
  intro value σ set after effect result
  have applied : σ.apply effect = .ok result := by decide
  have applied' : σ.applyToVariables set = .ok after := by decide
  obtain ⟨effects, sets⟩ := names_flow_from_term_and_values σ
  have flow := effects effect result applied
  refine ⟨applied, ⟨(flow "f").1.mpr ?_, (flow "k").1.mpr ?_, by decide⟩,
    ⟨(flow "w").2.mpr ?_, (flow "x").2.mpr ?_, by decide⟩, applied', (sets set after applied' "y").mpr ?_⟩
  · exact Or.inr ⟨"e", by decide, value, rfl, by decide⟩
  · exact Or.inl ⟨by decide, by decide⟩
  · exact Or.inr (Or.inl ⟨"e", by decide, value, rfl, by decide⟩)
  · exact Or.inr (Or.inr ⟨"v", by decide, _, rfl, by decide⟩)
  · exact Or.inl ⟨by decide, by decide⟩

end SpecEffects.Substitution
