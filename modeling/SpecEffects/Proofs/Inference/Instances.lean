import SpecEffects.Proofs.Inference.MadeNames
import SpecEffects.Proofs.Unification.Soundness

/-!
Copies of effects under new names, and instances: what an effect becomes when values are put for its
names. An instance stays one when something more is learned about its names.
-/
namespace SpecEffects.Inference

open Substitution

def Renames (lo hi : FreshNames) (σ : Substitution) : Prop :=
  ∀ binding ∈ σ.bindings, ∃ kind n, lo.count (stem kind) ≤ n ∧ n < hi.count (stem kind) ∧
    binding.value = kind.quantified (numbered kind n)

variable {lo hi : FreshNames} {σ : Substitution}

theorem Renames.canonical (renames : Renames lo hi σ) : σ.Canonical := by
  intro binding member
  obtain ⟨kind, n, _, _, value⟩ := renames binding member
  rw [value]
  exact Term.canonical_quantified kind _

theorem Renames.within (renames : Renames lo hi σ) (placeholders : String → Prop)
    {binding : Binding}
    (member : binding ∈ σ.bindings) : binding.value.Over (made lo hi placeholders) := by
  obtain ⟨kind, n, above, below, value⟩ := renames binding member
  rw [value]
  intro other name used
  obtain ⟨rfl, rfl⟩ := Term.uses_quantified.mp used
  exact Or.inl ⟨n, above, below, rfl⟩

/-- What instantiation does: it makes a copy, and it may learn what placeholders are called now. -/
structure Instantiated (state : State) (effect : Effect) (result : Except KindClash Effect)
    (after : State) : Prop where
  effects : after.effects = state.effects
  fresh : state.fresh ≤ after.fresh
  running : after.running = state.running ∨
    ∃ learned : Substitution, Renames state.fresh after.fresh learned ∧
      (∀ binding ∈ learned.bindings,
        effect.Uses .effect binding.name ∧ isPlaceholder binding.name = true) ∧
      learned.compose state.running = .ok after.running
  copy : ∀ copy, result = .ok copy → ∃ ρ : Substitution,
    Renames state.fresh after.fresh ρ ∧
      (∀ kind name, effect.Uses kind name → ∃ value, ρ.get? name = some value) ∧
      ρ.apply effect = .ok copy

section Copying

variable {fresh between later : FreshNames} {effect : Effect}
  {effectBindings variableBindings : List Binding}
  (first : State.freshBindings fresh effectStem (fun name => .effect (.quantified name))
    effect.effectNames.toList = (effectBindings, between))
  (second : State.freshBindings between variablesStem (fun name => .variables (.quantified name))
    effect.variableNames.toList = (variableBindings, later))

include first second

theorem renames_freshBindings : Renames fresh later ⟨effectBindings ++ variableBindings⟩ := by
  obtain ⟨order, _, values⟩ := State.freshBindings_spec .effect _ _ _ _ first
  obtain ⟨order', _, values'⟩ := State.freshBindings_spec .variables _ _ _ _ second
  intro binding member
  rcases List.mem_append.mp member with member | member
  · obtain ⟨n, above, below, value⟩ := values binding member
    exact ⟨.effect, n, above, Nat.lt_of_lt_of_le below (order' _), value⟩
  · obtain ⟨n, above, below, value⟩ := values' binding member
    exact ⟨.variables, n, Nat.le_trans (order _) above, below, value⟩

theorem covers_freshBindings {kind : Kind} {name : String} (used : effect.Uses kind name) :
    ∃ value, get? ⟨effectBindings ++ variableBindings⟩ name = some value := by
  obtain ⟨_, names, _⟩ := State.freshBindings_spec .effect _ _ _ _ first
  obtain ⟨_, names', _⟩ := State.freshBindings_spec .variables _ _ _ _ second
  have listed : name ∈ (effectBindings ++ variableBindings).map Binding.name := by
    rw [List.map_append, names, names', List.mem_append]
    cases kind
    · exact Or.inl used
    · exact Or.inr used
  obtain ⟨binding, member, rfl⟩ := List.mem_map.mp listed
  exact get?_isSome_of_mem member

end Copying

theorem instantiated {state after : State} {effect : Effect} {result : Except KindClash Effect}
    (run : state.instantiate effect = (result, after)) :
    Instantiated state effect result after := by
  unfold State.instantiate at run
  generalize first : State.freshBindings state.fresh effectStem
    (fun name => .effect (.quantified name)) effect.effectNames.toList = bindings at run
  obtain ⟨effectBindings, between⟩ := bindings
  dsimp only at run
  generalize second : State.freshBindings between variablesStem
    (fun name => .variables (.quantified name)) effect.variableNames.toList = bindings at run
  obtain ⟨variableBindings, later⟩ := bindings
  obtain ⟨order, names, _⟩ := State.freshBindings_spec .effect _ _ _ _ first
  obtain ⟨order', _, _⟩ := State.freshBindings_spec .variables _ _ _ _ second
  have renames := renames_freshBindings first second
  have forward := FreshNames.le_trans order order'
  split at run
  · cases run
    exact ⟨rfl, forward, Or.inl rfl, fun _ absurd => nomatch absurd⟩
  · rename_i copy copied
    have made : ∀ other, (.ok copy : Except KindClash Effect) = .ok other → ∃ ρ : Substitution,
        Renames state.fresh later ρ ∧
          (∀ kind name, effect.Uses kind name → ∃ value, ρ.get? name = some value) ∧
          ρ.apply effect = .ok other := by
      intro other same
      cases same
      exact ⟨_, renames, fun _ _ => covers_freshBindings first second, copied⟩
    split at run
    · cases run
      exact ⟨rfl, forward, Or.inl rfl, made⟩
    · split at run
      · cases run
        exact ⟨rfl, forward, Or.inl rfl, fun _ absurd => nomatch absurd⟩
      · rename_i composed
        cases run
        -- Of the new names only those for placeholders are learned.
        refine ⟨rfl, forward, Or.inr ⟨_, ?_, ?_, composed⟩, made⟩
        · intro binding member
          exact renames binding (List.mem_append_left _ (List.mem_of_mem_filter member))
        · intro binding member
          obtain ⟨present, marked⟩ := List.mem_filter.mp member
          have listed := List.mem_map_of_mem (f := Binding.name) present
          rw [names] at listed
          exact ⟨listed, marked⟩

/-- Values are put for the names of the general effect. -/
def IsInstance (general effect : Effect) : Prop :=
  ∃ θ : Substitution, θ.Canonical ∧ θ.ValuesOver possible ∧
    θ.apply general = .ok effect

theorem IsInstance.apply {general effect result : Effect} (instanced : IsInstance general effect)
    (canonical : σ.Canonical) (bounded : σ.Over possible) (run : σ.apply effect = .ok result) :
    IsInstance general result := by
  obtain ⟨θ, canonical', values, before⟩ := instanced
  obtain ⟨composed, both⟩ := exists_compose fun binding member =>
    exists_applyToTerm_of_over bounded possible_separate (values binding member)
  refine ⟨composed, canonical_compose canonical canonical' both, ?_,
    (apply_compose canonical canonical' both).mpr ⟨effect, before, run⟩⟩
  intro binding member
  rcases mem_compose both member with ⟨old, present, _, value⟩ | ⟨present, _⟩
  · exact over_applyToTerm bounded.values (values old present) value
  · exact bounded.values binding present

theorem Renames.isInstance (renames : Renames lo hi σ) {general copy : Effect}
    (run : σ.apply general = .ok copy) : IsInstance general copy := by
  refine ⟨σ, renames.canonical, fun binding member kind name used => ?_, run⟩
  have none : ∀ name, (fun _ => False) name → isPlaceholder name = true :=
    fun _ absurd => absurd.elim
  exact possible_of_made none (renames.within _ member kind name used)

theorem Renames.copy_within (renames : Renames lo hi σ) (placeholders : String → Prop)
    {effect copy : Effect}
    (covers : ∀ kind name, effect.Uses kind name → ∃ value, σ.get? name = some value)
    (run : σ.apply effect = .ok copy) : copy.Over (made lo hi placeholders) := by
  intro kind name used
  obtain ⟨other, name', before, value⟩ := (uses_apply run kind name).mp used
  obtain ⟨bound, found⟩ := covers other name' before
  rw [valueAt_of_get? found] at value
  exact renames.within placeholders (mem_of_get? found) kind name value

theorem Renames.copy_canonical (renames : Renames lo hi σ) {effect copy : Effect}
    (canonical : effect.Canonical) (run : σ.apply effect = .ok copy) : copy.Canonical :=
  everySet_apply renames.canonical (fun _ => canonical_applyToVariables renames.canonical) canonical
    run

end SpecEffects.Inference
