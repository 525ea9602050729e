import SpecEffects.Proofs.Canonical
import SpecEffects.Substitution

/-!
Where quantified names are used. A name is used at a kind: it stands for an effect or for a set of
variables. A vocabulary says which names may be used at which kind, and a term is over a vocabulary
when it uses no others.
-/
namespace SpecEffects

namespace Footprint

theorem ext_get {footprint other : Footprint}
    (same : ∀ component, footprint.get component = other.get component) : footprint = other := by
  obtain ⟨read, update, temporal⟩ := footprint
  obtain ⟨read', update', temporal'⟩ := other
  cases same .read
  cases same .update
  cases same .temporal
  rfl

theorem exists_of_get {P : Component → VariableSet → Prop}
    (each : ∀ component, ∃ set, P component set) :
    ∃ footprint : Footprint, ∀ component, P component (footprint.get component) := by
  obtain ⟨read, hread⟩ := each .read
  obtain ⟨update, hupdate⟩ := each .update
  obtain ⟨temporal, htemporal⟩ := each .temporal
  refine ⟨⟨read, update, temporal⟩, fun component => ?_⟩
  cases component with
  | read => exact hread
  | update => exact hupdate
  | temporal => exact htemporal

theorem get_ofParts (parts : List (Component × VariableSet)) (component : Component) :
    (ofParts parts).get component = .join (parts.filterMap fun part =>
      if part.1 = component then some part.2 else none) := by
  cases component <;> rfl

theorem mem_variableNames {footprint : Footprint} {name : String} :
    name ∈ footprint.variableNames ↔
      ∃ component, name ∈ (footprint.get component).quantifiedNames := by
  simp only [variableNames, SortedSet.mem_union]
  constructor
  · rintro ((read | update) | temporal)
    · exact ⟨.read, read⟩
    · exact ⟨.update, update⟩
    · exact ⟨.temporal, temporal⟩
  · rintro ⟨component, used⟩
    cases component with
    | read => exact Or.inl (Or.inl used)
    | update => exact Or.inl (Or.inr used)
    | temporal => exact Or.inr used

end Footprint

namespace Effect

@[induction_eliminator]
theorem induct {motive : Effect → Prop} (concrete : ∀ footprint, motive (.concrete footprint))
    (quantified : ∀ name, motive (.quantified name))
    (arrow : ∀ params result, (∀ param ∈ params, motive param) → motive result →
      motive (.arrow params result)) : ∀ effect, motive effect
  | .concrete footprint => concrete footprint
  | .quantified name => quantified name
  | .arrow params result =>
    arrow params result (fun param _ => induct concrete quantified arrow param)
      (induct concrete quantified arrow result)

inductive EverySet (P : VariableSet → Prop) : Effect → Prop where
  | concrete {footprint : Footprint} (slots : ∀ component, P (footprint.get component)) :
      EverySet P (.concrete footprint)
  | quantified (name : String) : EverySet P (.quantified name)
  | arrow {params : List Effect} {result : Effect} (inputs : ∀ param ∈ params, EverySet P param)
      (output : EverySet P result) : EverySet P (.arrow params result)

variable {P : VariableSet → Prop}

@[simp] theorem everySet_concrete {footprint : Footprint} :
    EverySet P (.concrete footprint) ↔ ∀ component, P (footprint.get component) :=
  ⟨fun | .concrete slots => slots, .concrete⟩

@[simp] theorem everySet_quantified {name : String} : EverySet P (.quantified name) :=
  .quantified name

@[simp] theorem everySet_arrow {params : List Effect} {result : Effect} :
    EverySet P (.arrow params result) ↔ (∀ param ∈ params, EverySet P param) ∧ EverySet P result :=
  ⟨fun | .arrow inputs output => ⟨inputs, output⟩, fun parts => .arrow parts.1 parts.2⟩

theorem EverySet.mono {Q : VariableSet → Prop} (weaker : ∀ {set}, P set → Q set) {effect : Effect}
    (every : effect.EverySet P) : effect.EverySet Q := by
  induction every with
  | concrete slots => exact .concrete fun component => weaker (slots component)
  | quantified name => exact .quantified name
  | arrow _ _ inputs output => exact .arrow inputs output

mutual

def decideEverySet [DecidablePred P] : (effect : Effect) → Decidable (effect.EverySet P)
  | .concrete footprint =>
    decidable_of_iff (∀ component ∈ Component.all, P (footprint.get component)) <| by
      rw [everySet_concrete]
      exact ⟨fun each component => each component (by cases component <;> decide),
        fun each component _ => each component⟩
  | .quantified name => isTrue (.quantified name)
  | .arrow params result =>
    have := decideEverySets params
    have := decideEverySet result
    decidable_of_iff _ everySet_arrow.symm

def decideEverySets [DecidablePred P] :
    (effects : List Effect) → Decidable (∀ effect ∈ effects, effect.EverySet P)
  | [] => isTrue fun _ member => nomatch member
  | effect :: rest =>
    have := decideEverySet effect
    have := decideEverySets rest
    decidable_of_iff _ List.forall_mem_cons.symm

end

instance [DecidablePred P] (effect : Effect) : Decidable (effect.EverySet P) :=
  decideEverySet effect

abbrev Canonical (effect : Effect) : Prop := effect.EverySet VariableSet.Canonical

theorem mem_effectNamesOf {effects : List Effect} {name : String} :
    name ∈ effectNamesOf effects ↔ ∃ effect ∈ effects, name ∈ effect.effectNames := by
  induction effects with
  | nil => simp [effectNamesOf]
  | cons effect rest ih => simp [effectNamesOf, ih]

theorem mem_variableNamesOf {effects : List Effect} {name : String} :
    name ∈ variableNamesOf effects ↔ ∃ effect ∈ effects, name ∈ effect.variableNames := by
  induction effects with
  | nil => simp [variableNamesOf]
  | cons effect rest ih => simp [variableNamesOf, ih]

end Effect

namespace VariableSet

/-- A set uses names at one kind only. -/
def Uses (set : VariableSet) (kind : Kind) (name : String) : Prop :=
  kind = .variables ∧ name ∈ set.quantifiedNames

@[simp] theorem uses_concrete {vars : NameSet} {kind : Kind} {name : String} :
    ¬ (concrete vars).Uses kind name := fun used => SortedSet.not_mem_empty _ used.2

@[simp] theorem uses_quantified {name other : String} {kind : Kind} :
    (quantified other).Uses kind name ↔ kind = .variables ∧ name = other := by
  simp [Uses, quantifiedNames]

@[simp] theorem uses_union {sets : List VariableSet} {kind : Kind} {name : String} :
    (union sets).Uses kind name ↔ ∃ set ∈ sets, set.Uses kind name := by
  simp only [Uses, mem_quantifiedNames_union]
  constructor
  · rintro ⟨rfl, set, member, used⟩
    exact ⟨set, member, rfl, used⟩
  · rintro ⟨set, member, rfl, used⟩
    exact ⟨rfl, set, member, used⟩

theorem uses_join {sets : List VariableSet} {kind : Kind} {name : String} :
    (join sets).Uses kind name ↔ ∃ set ∈ sets, set.Uses kind name := by
  rw [← uses_union, Uses, Uses, mem_quantifiedNames_join, mem_quantifiedNames_union]

end VariableSet

namespace Effect

def Uses (effect : Effect) : Kind → String → Prop
  | .effect, name => name ∈ effect.effectNames
  | .variables, name => name ∈ effect.variableNames

instance (effect : Effect) : (kind : Kind) → (name : String) → Decidable (effect.Uses kind name)
  | .effect, name => inferInstanceAs (Decidable (name ∈ effect.effectNames))
  | .variables, name => inferInstanceAs (Decidable (name ∈ effect.variableNames))

@[simp] theorem uses_concrete {footprint : Footprint} {kind : Kind} {name : String} :
    (concrete footprint).Uses kind name ↔
      ∃ component, (footprint.get component).Uses kind name := by
  cases kind
  · simp [Uses, effectNames, VariableSet.Uses]
  · simp only [Uses, variableNames, VariableSet.Uses, true_and]
    exact Footprint.mem_variableNames

@[simp] theorem uses_quantified {name other : String} {kind : Kind} :
    (quantified other).Uses kind name ↔ kind = .effect ∧ name = other := by
  cases kind <;> simp [Uses, effectNames, variableNames]

@[simp] theorem uses_arrow {params : List Effect} {result : Effect} {kind : Kind} {name : String} :
    (arrow params result).Uses kind name ↔
      (∃ param ∈ params, param.Uses kind name) ∨ result.Uses kind name := by
  cases kind
  · simp [Uses, effectNames, mem_effectNamesOf]
  · simp [Uses, variableNames, mem_variableNamesOf]

theorem mem_names {effect : Effect} {name : String} :
    name ∈ effect.names ↔ ∃ kind, effect.Uses kind name := by
  rw [names, SortedSet.mem_union]
  constructor
  · rintro (used | used)
    · exact ⟨.effect, used⟩
    · exact ⟨.variables, used⟩
  · rintro ⟨kind, used⟩
    cases kind
    · exact Or.inl used
    · exact Or.inr used

end Effect

namespace Kind

def quantified : Kind → String → Term
  | .effect, name => .effect (.quantified name)
  | .variables, name => .variables (.quantified name)

end Kind

namespace Term

def Uses : Term → Kind → String → Prop
  | .effect value => value.Uses
  | .variables value => value.Uses

def concreteNames : Term → NameSet
  | .effect _ => ∅
  | .variables value => value.concreteNames

def EverySet (P : VariableSet → Prop) : Term → Prop
  | .effect value => value.EverySet P
  | .variables value => P value

instance {P : VariableSet → Prop} [DecidablePred P] (term : Term) : Decidable (term.EverySet P) :=
  match term with
  | .effect value => inferInstanceAs (Decidable (value.EverySet P))
  | .variables value => inferInstanceAs (Decidable (P value))

abbrev Canonical (term : Term) : Prop := term.EverySet VariableSet.Canonical

@[simp] theorem kind_quantified (kind : Kind) (name : String) :
    (kind.quantified name).kind = kind := by
  cases kind <;> rfl

@[simp] theorem uses_quantified {kind other : Kind} {name name' : String} :
    (other.quantified name').Uses kind name ↔ kind = other ∧ name = name' := by
  cases other
  · exact Effect.uses_quantified
  · exact VariableSet.uses_quantified

theorem canonical_quantified (kind : Kind) (name : String) : (kind.quantified name).Canonical := by
  cases kind
  · exact .quantified name
  · trivial

end Term

abbrev Vocabulary := Kind → String → Prop

namespace Vocabulary

def usedIn (effects : List Effect) : Vocabulary := fun kind name =>
  ∃ effect ∈ effects, effect.Uses kind name

theorem mem_names_union {effect other : Effect} {name : String} :
    name ∈ effect.names.union other.names ↔ ∃ kind, usedIn [effect, other] kind name := by
  simp only [SortedSet.mem_union, Effect.mem_names, usedIn, List.mem_cons, List.not_mem_nil,
    or_false]
  constructor
  · intro used
    rcases used with ⟨kind, used⟩ | ⟨kind, used⟩
    · exact ⟨kind, effect, Or.inl rfl, used⟩
    · exact ⟨kind, other, Or.inr rfl, used⟩
  · rintro ⟨kind, _, which, used⟩
    rcases which with rfl | rfl
    · exact Or.inl ⟨kind, used⟩
    · exact Or.inr ⟨kind, used⟩

def Separate (V : Vocabulary) : Prop := ∀ name, V .effect name → ¬ V .variables name

instance (effects : List Effect) : Decidable (usedIn effects).Separate :=
  decidable_of_iff (∀ effect ∈ effects, ∀ name ∈ effect.effectNames.toList, ∀ other ∈ effects,
    ¬ name ∈ other.variableNames) <| by
    constructor
    · rintro apart name ⟨effect, member, used⟩ ⟨other, member', used'⟩
      exact apart effect member name used other member' used'
    · intro separate effect member name used other member' used'
      exact separate name ⟨effect, member, used⟩ ⟨other, member', used'⟩

theorem Separate.kind_eq {V : Vocabulary} (separate : V.Separate) {kind other : Kind}
    {name : String}
    (used : V kind name) (used' : V other name) : kind = other := by
  cases kind <;> cases other
  · rfl
  · exact absurd used' (separate name used)
  · exact absurd used (separate name used')
  · rfl

end Vocabulary

def Effect.Over (V : Vocabulary) (effect : Effect) : Prop :=
  ∀ kind name, effect.Uses kind name → V kind name

def Term.Over (V : Vocabulary) (term : Term) : Prop :=
  ∀ kind name, term.Uses kind name → V kind name

namespace Substitution

def EverySet (P : VariableSet → Prop) (σ : Substitution) : Prop :=
  ∀ binding ∈ σ.bindings, binding.value.EverySet P

instance {P : VariableSet → Prop} [DecidablePred P] (σ : Substitution) : Decidable (σ.EverySet P) :=
  inferInstanceAs (Decidable (∀ binding ∈ σ.bindings, binding.value.EverySet P))

abbrev Canonical (σ : Substitution) : Prop := σ.EverySet VariableSet.Canonical

def ValuesOver (V : Vocabulary) (σ : Substitution) : Prop :=
  ∀ binding ∈ σ.bindings, binding.value.Over V

def Over (V : Vocabulary) (σ : Substitution) : Prop :=
  ∀ binding ∈ σ.bindings, V binding.value.kind binding.name ∧ binding.value.Over V

theorem Over.values {V : Vocabulary} {σ : Substitution} (bounded : σ.Over V) : σ.ValuesOver V :=
  fun binding member => (bounded binding member).2

end Substitution

end SpecEffects
