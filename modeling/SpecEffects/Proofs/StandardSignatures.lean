import SpecEffects.Proofs.Inference.Unseen
import SpecEffects.Proofs.Unification.Operators
import SpecEffects.Signature.Standard

/-!
What the builtins of the specification language have in common: their results are determined by
their arguments, and their effects use no placeholders.
-/
namespace SpecEffects

theorem VariableSet.unionFree_join {sets : List VariableSet} {name : String}
    (same : ∀ set ∈ sets, set = .quantified name) : (join sets).UnionFree := by
  cases sets with
  | nil => trivial
  | cons set rest =>
    have joined : join (set :: rest) = .quantified name := by
      refine canonical_ext (canonical_join _) trivial (fun other => ?_) fun var => ?_
      · rw [mem_quantifiedNames_join]
        constructor
        · rintro ⟨set', member, used⟩
          rw [same set' member] at used
          exact used
        · intro used
          refine ⟨set, List.mem_cons_self, ?_⟩
          rw [same set List.mem_cons_self]
          exact used
      · rw [mem_concreteNames_join]
        constructor
        · rintro ⟨set', member, used⟩
          rw [same set' member] at used
          exact used
        · intro used
          exact (SortedSet.not_mem_empty var used).elim
    rw [joined]
    trivial

namespace Effect

theorem uses_ofParts {parts : List (Component × VariableSet)} {kind : Kind} {name : String} :
    (Effect.concrete (.ofParts parts)).Uses kind name ↔ ∃ part ∈ parts, part.2.Uses kind name := by
  simp only [uses_concrete, Footprint.get_ofParts, VariableSet.uses_join, List.mem_filterMap]
  constructor
  · rintro ⟨component, set, ⟨part, member, chosen⟩, used⟩
    split at chosen
    · cases chosen
      exact ⟨part, member, used⟩
    · cases chosen
  · rintro ⟨part, member, used⟩
    exact ⟨part.1, part.2, ⟨part, member, if_pos rfl⟩, used⟩

instance (params : List Effect) (result : Effect) : Decidable (Determined params result) :=
  decidable_of_iff
    ((∀ param ∈ params, param.UnionFree) ∧ result.Canonical ∧
      (Vocabulary.usedIn [.arrow params result]).Separate ∧
      (∀ name ∈ result.effectNames.toList, ∃ param ∈ params, param.Uses .effect name) ∧
      ∀ name ∈ result.variableNames.toList, ∃ param ∈ params, param.Uses .variables name) <| by
    constructor
    · rintro ⟨unionFree, canonical, separate, effects, sets⟩
      exact ⟨unionFree, canonical, separate, fun kind => by cases kind; exacts [effects, sets]⟩
    · rintro ⟨unionFree, canonical, separate, named⟩
      exact ⟨unionFree, canonical, separate, named .effect, named .variables⟩

def IsDetermined : Effect → Prop
  | .arrow params result => Determined params result
  | _ => False

instance : DecidablePred IsDetermined
  | .arrow params result => inferInstanceAs (Decidable (Determined params result))
  | .concrete _ => isFalse id
  | .quantified _ => isFalse id

theorem IsDetermined.separate {effect : Effect} (determined : effect.IsDetermined) :
    (Vocabulary.usedIn [effect]).Separate := by
  cases effect with
  | arrow params result => exact Determined.separate determined
  | concrete footprint => exact determined.elim
  | quantified name => exact determined.elim

def IsPlain (effect : Effect) : Prop :=
  effect.Canonical ∧ ∀ name ∈ effect.effectNames.toList, Inference.isPlaceholder name = false

instance : DecidablePred IsPlain := fun _ => inferInstanceAs (Decidable (_ ∧ _))

end Effect

namespace Signature

open Effect

theorem uses_argument {components : List Component} {index : Nat} {kind : Kind} {name : String} :
    (argument components index).Uses kind name ↔
      ∃ component ∈ components, (argumentSet component index).Uses kind name := by
  simp [argument, uses_ofParts, -uses_concrete]

theorem uses_result {components : List Component} {arity : Nat} {kind : Kind} {name : String} :
    (result components arity).Uses kind name ↔ ∃ index ∈ argumentIndices arity,
      ∃ component ∈ components, (argumentSet component index).Uses kind name := by
  simp only [result, uses_ofParts, List.mem_map, exists_exists_and_eq_and, VariableSet.uses_join]
  constructor
  · rintro ⟨component, member, index, present, used⟩
    exact ⟨index, present, component, member, used⟩
  · rintro ⟨index, present, component, member, used⟩
    exact ⟨component, member, index, present, used⟩

theorem propagate_determined (components : List Component) (arity : Nat) :
    (instantiate (.propagate components) arity).IsDetermined where
  unionFree param member := by
    obtain ⟨index, _, rfl⟩ := List.mem_map.mp member
    refine .concrete fun component => ?_
    rw [Footprint.get_ofParts]
    refine @VariableSet.unionFree_join _ (componentLetter component ++ toString index) fun set member => ?_
    obtain ⟨part, present, chosen⟩ := List.mem_filterMap.mp member
    obtain ⟨component', _, rfl⟩ := List.mem_map.mp present
    split at chosen
    · rename_i same
      cases chosen
      exact congrArg (argumentSet · index) same
    · cases chosen
  canonical := Inference.canonical_ofParts _
  separate := Inference.propagate_separate components arity
  named kind name used := by
    obtain ⟨index, present, standing⟩ := uses_result.mp used
    exact ⟨_, List.mem_map_of_mem present, uses_argument.mpr standing⟩

theorem propagate_plain (components : List Component) (arity : Nat) :
    (instantiate (.propagate components) arity).IsPlain := by
  obtain ⟨canonical, no_effects⟩ := Inference.propagate_spec components arity
  exact ⟨canonical, fun name used => (no_effects name used).elim⟩

end Signature

namespace SignatureTable

theorem plain_of_fixed {signatures : SignatureTable} (fixed : ∀ operator effect,
    signatures.get? operator = some (.fixed effect) → effect.IsPlain) : Inference.Plain signatures := by
  intro operator arity effect found
  obtain ⟨signature, listed, rfl⟩ := Option.map_eq_some_iff.mp found
  cases signature with
  | fixed effect => exact fixed operator effect listed
  | propagate components => exact Signature.propagate_plain components arity

theorem fixedSignatures_spec :
    ∀ entry ∈ fixedSignatures, entry.2.IsDetermined ∧ entry.2.IsPlain := by
  decide +kernel

theorem of_standard {P : Effect → Prop}
    (propagate : ∀ components arity, P (Signature.instantiate (.propagate components) arity))
    (fixed : ∀ entry ∈ fixedSignatures, P entry.2) {operator : String} {arity : Nat}
    {effect : Effect} (found : standard.signature? operator arity = some effect) : P effect := by
  obtain ⟨signature, listed, rfl⟩ := Option.map_eq_some_iff.mp found
  have member := SortedMap.mem_of_get?_ofList listed
  simp only [List.mem_append, List.mem_map, Prod.mk.injEq] at member
  rcases member with ((⟨_, _, _, rfl⟩ | ⟨_, _, _, rfl⟩) | ⟨_, _, _, rfl⟩) | ⟨entry, present, _, rfl⟩
  · exact propagate _ arity
  · exact propagate _ arity
  · exact propagate _ arity
  · exact fixed entry present

theorem standard_spec {operator : String} {arity : Nat} {effect : Effect}
    (found : standard.signature? operator arity = some effect) :
    effect.IsDetermined ∧ effect.IsPlain := by
  refine of_standard (P := fun effect => effect.IsDetermined ∧ effect.IsPlain)
    (fun components arity => ?_) fixedSignatures_spec found
  exact ⟨Signature.propagate_determined components arity,
    Signature.propagate_plain components arity⟩

theorem plain_standard : Inference.Plain standard := fun found => (standard_spec found).2

end SignatureTable

end SpecEffects
