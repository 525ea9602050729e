import SpecEffects.Proofs.StandardSignatures

/-!
Operators that pass on components of what their arguments do, applied to footprints without
quantified names. Such an application has an instance just when the arguments do nothing at other
components, and its result is then the union of what they do.
-/
namespace SpecEffects

namespace Footprint

theorem get_ofFn (slot : Component → VariableSet) (component : Component) :
    (ofFn slot).get component = slot component := by
  cases component <;> rfl

theorem get_ofParts_map {sets : Component → VariableSet} (canonical : ∀ other, (sets other).Canonical)
    (components : List Component) (component : Component) :
    (ofParts (components.map fun other => (other, sets other))).get component =
      if component ∈ components then sets component else .empty := by
  rw [get_ofParts]
  split
  · rename_i present
    refine VariableSet.canonical_ext (VariableSet.canonical_join _) (canonical component)
      (fun name => ?_) fun var => ?_
    · simp [present]
    · simp [present]
  · rename_i absent
    refine VariableSet.canonical_ext (VariableSet.canonical_join _) trivial
      (fun name => ?_) fun var => ?_
    · simp [absent, VariableSet.empty, VariableSet.quantifiedNames]
    · simp [absent, VariableSet.empty, VariableSet.concreteNames]

end Footprint

abbrev Slots := Component → NameSet

namespace Slots

def effect (slots : Slots) : Effect :=
  .concrete (.ofFn fun component => .concrete (slots component))

def nothing : Slots := fun _ => ∅

def reads (name : String) : Slots
  | .read => .singleton name
  | _ => ∅

def unionOf (inputs : List Slots) : Slots := fun component =>
  inputs.foldr (fun input vars => (input component).union vars) ∅

def passOn (components : List Component) (inputs : List Slots) : Slots := fun component =>
  if component ∈ components then unionOf inputs component else ∅

def Fits (components : List Component) (inputs : List Slots) : Prop :=
  ∀ input ∈ inputs, ∀ component ∈ Component.all, component ∉ components → input component = ∅

instance (components : List Component) (inputs : List Slots) : Decidable (Fits components inputs) :=
  inferInstanceAs (Decidable (∀ input ∈ inputs, ∀ component ∈ Component.all, _ → _))

theorem mem_unionOf {inputs : List Slots} {component : Component} {var : String} :
    var ∈ unionOf inputs component ↔ ∃ input ∈ inputs, var ∈ input component := by
  induction inputs with
  | nil => simp [unionOf]
  | cons input inputs ih =>
    have step : unionOf (input :: inputs) component =
        (input component).union (unionOf inputs component) := rfl
    simp [step, SortedSet.mem_union, ih]

theorem canonical_effect (slots : Slots) : (effect slots).Canonical := by
  refine .concrete fun component => ?_
  rw [Footprint.get_ofFn]
  trivial

theorem closed_effect (slots : Slots) : (effect slots).Closed := by
  intro kind name used
  obtain ⟨component, used⟩ := Effect.uses_concrete.mp used
  rw [Footprint.get_ofFn] at used
  exact VariableSet.uses_concrete used

theorem argumentIndices_eq (inputs : List Slots) :
    Signature.argumentIndices inputs.length = (inputs.zipIdx 1).map Prod.snd := by
  rw [List.zipIdx_map_snd, List.range'_eq_map_range, Signature.argumentIndices]
  simp only [Nat.add_comm]

theorem argumentName_injective {component component' : Component} {index index' : Nat}
    (same : Signature.componentLetter component ++ toString index =
      Signature.componentLetter component' ++ toString index') :
    component = component' ∧ index = index' := by
  have chars := congrArg String.toList same
  rw [String.toList_append, String.toList_append, Inference.toList_digits,
    Inference.toList_digits] at chars
  cases component <;> cases component' <;>
    simp [Signature.componentLetter] at chars ⊢ <;> exact Inference.digits_injective chars

def assignment (inputs : List Slots) : Substitution :=
  ⟨(inputs.zipIdx 1).flatMap fun entry => Component.all.map fun component =>
    ⟨Signature.componentLetter component ++ toString entry.2,
      .variables (.concrete (entry.1 component))⟩⟩

theorem mem_assignment {inputs : List Slots} {binding : Binding} :
    binding ∈ (assignment inputs).bindings ↔
      ∃ input index component, (input, index) ∈ inputs.zipIdx 1 ∧
        binding = ⟨Signature.componentLetter component ++ toString index,
          .variables (.concrete (input component))⟩ := by
  simp only [assignment, List.mem_flatMap, List.mem_map, Prod.exists]
  constructor
  · rintro ⟨input, index, member, component, _, rfl⟩
    exact ⟨input, index, component, member, rfl⟩
  · rintro ⟨input, index, component, member, rfl⟩
    exact ⟨input, index, member, component, by cases component <;> decide, rfl⟩

theorem valueAt_assignment {inputs : List Slots} {input : Slots} {index : Nat}
    (member : (input, index) ∈ inputs.zipIdx 1) (component : Component) :
    (assignment inputs).valueAt .variables (Signature.componentLetter component ++ toString index) =
      .variables (.concrete (input component)) := by
  refine Substitution.valueAt_of_get? ?_
  obtain ⟨value, found⟩ := Substitution.get?_isSome_of_mem
    (mem_assignment.mpr ⟨input, index, component, member, rfl⟩)
  obtain ⟨input', index', component', member', same⟩ :=
    mem_assignment.mp (Substitution.mem_of_get? found)
  obtain ⟨names, rfl⟩ := Binding.mk.inj same
  obtain ⟨rfl, rfl⟩ := argumentName_injective names
  rw [List.mk_mem_zipIdx_iff_le_and_getElem?_sub] at member member'
  cases member.2.symm.trans member'.2
  exact found

theorem apply_argument {σ : Substitution} {components : List Component} {index : Nat} {slots : Slots} :
    σ.apply (Signature.argument components index) = .ok (effect slots) ↔
      ∀ component, if component ∈ components then
        σ.valueAt .variables (Signature.componentLetter component ++ toString index) =
          .variables (.concrete (slots component))
      else slots component = ∅ := by
  have sets : ∀ component, (Signature.argumentSet component index).Canonical := fun _ => trivial
  have here := Footprint.get_ofParts_map sets components
  have apart : ∀ component, σ.applyToVariables ((Footprint.ofParts (components.map fun other =>
      (other, Signature.argumentSet other index))).get component) = .ok (.concrete (slots component)) ↔
        if component ∈ components then
          σ.valueAt .variables (Signature.componentLetter component ++ toString index) =
            .variables (.concrete (slots component))
        else slots component = ∅ := by
    intro component
    rw [here]
    split
    · exact Substitution.applyToVariables_quantified
    · simp [VariableSet.empty, Substitution.applyToVariables, eq_comm]
  rw [Signature.argument, Substitution.apply_concrete (Effect.everySet_concrete.mp
    (Inference.canonical_ofParts _))]
  constructor
  · rintro ⟨after, each, same⟩ component
    have slot := each component
    rw [← Effect.concrete.inj same, Footprint.get_ofFn] at slot
    exact (apart component).mp slot
  · intro each
    refine ⟨_, fun component => ?_, rfl⟩
    rw [Footprint.get_ofFn]
    exact (apart component).mpr (each component)

theorem uses_arguments {inputs : List Slots} {component : Component} {kind : Kind} {name : String} :
    (VariableSet.join ((Signature.argumentIndices inputs.length).map
      (Signature.argumentSet component))).Uses kind name ↔ kind = .variables ∧
        ∃ input index, (input, index) ∈ inputs.zipIdx 1 ∧
          name = Signature.componentLetter component ++ toString index := by
  rw [VariableSet.uses_join, argumentIndices_eq]
  constructor
  · rintro ⟨set, member, used⟩
    obtain ⟨_, present, rfl⟩ := List.mem_map.mp member
    obtain ⟨⟨input, index⟩, given, rfl⟩ := List.mem_map.mp present
    obtain ⟨rfl, rfl⟩ := VariableSet.uses_quantified.mp used
    exact ⟨rfl, input, index, given, rfl⟩
  · rintro ⟨rfl, input, index, present, rfl⟩
    exact ⟨_, List.mem_map_of_mem (List.mem_map_of_mem present),
      VariableSet.uses_quantified.mpr ⟨rfl, rfl⟩⟩

theorem canonical_assignment (inputs : List Slots) : (assignment inputs).Canonical := by
  intro binding member
  obtain ⟨input, index, component, _, rfl⟩ := mem_assignment.mp member
  trivial

theorem applyToVariables_arguments (inputs : List Slots) (component : Component) :
    (assignment inputs).applyToVariables (.join ((Signature.argumentIndices inputs.length).map
      (Signature.argumentSet component))) = .ok (.concrete (unionOf inputs component)) := by
  obtain ⟨result, run⟩ := Substitution.exists_applyToVariables.mpr fun kind name used => by
    obtain ⟨rfl, input, index, member, rfl⟩ := uses_arguments.mp used
    rw [Substitution.Allows, valueAt_assignment member]
    rfl
  rw [run]
  refine congrArg Except.ok (VariableSet.canonical_ext
    (Substitution.canonical_applyToVariables (canonical_assignment inputs) run) trivial
    (fun name => ?_) fun var => ?_)
  · have unused : ¬ result.Uses .variables name := by
      intro used
      obtain ⟨_, _, standing, value⟩ := (Substitution.uses_applyToVariables run _ _).mp used
      obtain ⟨rfl, input, index, member, rfl⟩ := uses_arguments.mp standing
      rw [valueAt_assignment member] at value
      exact VariableSet.uses_concrete value
    exact ⟨fun used => (unused ⟨rfl, used⟩).elim, fun used => (SortedSet.not_mem_empty name used).elim⟩
  · have written : ¬ var ∈ (VariableSet.join ((Signature.argumentIndices inputs.length).map
        (Signature.argumentSet component))).concreteNames := by
      simp [Signature.argumentSet, VariableSet.concreteNames]
    rw [Substitution.mem_concreteNames_applyToVariables run]
    show _ ↔ var ∈ unionOf inputs component
    rw [mem_unionOf]
    constructor
    · rintro (own | ⟨name, standing, value⟩)
      · exact (written own).elim
      · obtain ⟨_, input, index, member, rfl⟩ := uses_arguments.mp standing
        rw [valueAt_assignment member] at value
        exact ⟨input, List.fst_mem_of_mem_zipIdx member, value⟩
    · rintro ⟨input, present, value⟩
      obtain ⟨index, member⟩ : ∃ index, (input, index) ∈ inputs.zipIdx 1 := by
        rw [← List.zipIdx_map_fst 1 inputs] at present
        obtain ⟨⟨_, index⟩, member, rfl⟩ := List.mem_map.mp present
        exact ⟨index, member⟩
      refine Or.inr ⟨_, uses_arguments.mpr ⟨rfl, input, index, member, rfl⟩, ?_⟩
      rw [valueAt_assignment member]
      exact value

theorem apply_result (components : List Component) (inputs : List Slots) :
    (assignment inputs).apply (Signature.result components inputs.length) =
      .ok (effect (passOn components inputs)) := by
  rw [Signature.result, Substitution.apply_concrete (Effect.everySet_concrete.mp
    (Inference.canonical_ofParts _))]
  refine ⟨_, fun component => ?_, rfl⟩
  rw [Footprint.get_ofFn, Footprint.get_ofParts_map (fun _ => VariableSet.canonical_join _), passOn]
  split
  · exact applyToVariables_arguments inputs component
  · rfl

open Inference

variable {components : List Component} {inputs : List Slots}

theorem forall₂_arguments {R : Effect → Effect → Prop} :
    List.Forall₂ R ((Signature.argumentIndices inputs.length).map (Signature.argument components))
      (inputs.map effect) ↔
        ∀ input index, (input, index) ∈ inputs.zipIdx 1 →
          R (Signature.argument components index) (effect input) := by
  have outputs : inputs.map effect = (inputs.zipIdx 1).map fun entry => effect entry.1 := by
    conv => lhs; rw [← List.zipIdx_map_fst 1 inputs, List.map_map]
    rfl
  rw [argumentIndices_eq, outputs, List.map_map, List.forall₂_map_left_iff,
    List.forall₂_map_right_iff, List.forall₂_same]
  exact ⟨fun each input index => each (input, index), fun each entry => each entry.1 entry.2⟩

theorem Fits.isInstance (fits : Fits components inputs) :
    IsInstance (Signature.instantiate (.propagate components) inputs.length)
      (.arrow (inputs.map effect) (effect (passOn components inputs))) := by
  refine ⟨assignment inputs, canonical_assignment inputs, ?_, ?_⟩
  · intro binding member
    obtain ⟨input, index, component, _, rfl⟩ := mem_assignment.mp member
    exact fun kind name used => (VariableSet.uses_concrete used).elim
  · refine Substitution.apply_arrow.mpr ⟨_, _, forall₂_arguments.mpr fun input index member => ?_,
      apply_result components inputs, rfl⟩
    refine apply_argument.mpr fun component => ?_
    split
    · exact valueAt_assignment member component
    · rename_i absent
      exact fits input (List.fst_mem_of_mem_zipIdx member) component
        (by cases component <;> decide) absent

theorem fits_of_isInstance {result : Effect}
    (instanced : IsInstance (Signature.instantiate (.propagate components) inputs.length)
      (.arrow (inputs.map effect) result)) : Fits components inputs := by
  obtain ⟨θ, _, _, run⟩ := instanced
  obtain ⟨_, _, each, _, same⟩ := Substitution.apply_arrow.mp run
  obtain ⟨rfl, _⟩ := Effect.arrow.inj same
  intro input present component _ absent
  rw [← List.zipIdx_map_fst 1 inputs] at present
  obtain ⟨⟨input, index⟩, member, rfl⟩ := List.mem_map.mp present
  have slots := apply_argument.mp (forall₂_arguments.mp each input index member) component
  rwa [if_neg absent] at slots

/-- With these arguments the operator has an instance just when they fit, and just one. -/
theorem propagate_instance_iff {result : Effect} :
    IsInstance (Signature.instantiate (.propagate components) inputs.length)
        (.arrow (inputs.map effect) result) ↔
      Fits components inputs ∧ result = effect (passOn components inputs) := by
  constructor
  · intro instanced
    have fits := fits_of_isInstance instanced
    obtain ⟨θ, _, _, run⟩ := instanced
    obtain ⟨τ, _, _, run'⟩ := fits.isInstance
    exact ⟨fits, (Signature.propagate_determined components inputs.length).result_eq run run'⟩
  · rintro ⟨fits, rfl⟩
    exact fits.isInstance

end Slots

end SpecEffects
