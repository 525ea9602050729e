import SpecEffects.Proofs.Unification.Soundness

/-!
What unification binds is gone afterwards: no bound name stands in a value. So every name that is
learned leaves fewer names for the pieces that follow. Where neither side has a union, no value has
one.
-/
namespace SpecEffects

def VariableSet.UnionFree : VariableSet → Prop
  | .concrete _ => True
  | .quantified _ => True
  | .union _ => False

instance : DecidablePred VariableSet.UnionFree
  | .concrete _ => isTrue trivial
  | .quantified _ => isTrue trivial
  | .union _ => isFalse id

theorem VariableSet.UnionFree.canonical {set : VariableSet} (free : set.UnionFree) :
    set.Canonical := by
  cases set with
  | concrete vars => trivial
  | quantified name => trivial
  | union sets => exact free.elim

theorem VariableSet.unionFree_member {sets : List VariableSet} {set : VariableSet}
    (canonical : (union sets).Canonical) (member : set ∈ sets) : set.UnionFree := by
  obtain ⟨_, names, vars, _, rfl⟩ := canonical
  rcases List.mem_append.mp member with quantified | rest
  · obtain ⟨name, _, rfl⟩ := List.mem_map.mp quantified
    trivial
  · split at rest
    · cases rest
    · cases List.mem_singleton.mp rest
      trivial

abbrev Effect.UnionFree (effect : Effect) : Prop := effect.EverySet VariableSet.UnionFree

abbrev Term.UnionFree (term : Term) : Prop := term.EverySet VariableSet.UnionFree

namespace Substitution

variable {σ new existing composed : Substitution}

theorem unionFree_applyToVariables (values : σ.EverySet VariableSet.UnionFree)
    {set result : VariableSet} (free : set.UnionFree)
    (run : σ.applyToVariables set = .ok result) : result.UnionFree := by
  cases set with
  | concrete vars =>
    cases run
    trivial
  | quantified name =>
    have value := everySet_valueAt values (fun _ => trivial) .variables name
    rw [applyToVariables_quantified.mp run] at value
    exact value
  | union sets => exact free.elim

/-- No bound name stands in a value. -/
def Eliminates (σ : Substitution) : Prop :=
  ∀ binding ∈ σ.bindings, ∀ kind name, binding.value.Uses kind name → σ.get? name = none

theorem Eliminates.applyToTerm (eliminates : σ.Eliminates) {term result : Term}
    (run : σ.applyToTerm term = .ok result) {kind : Kind} {name : String}
    (used : result.Uses kind name) : σ.get? name = none := by
  obtain ⟨other, name', _, value⟩ := (uses_applyToTerm run kind name).mp used
  cases found : σ.get? name' with
  | none =>
    rw [valueAt_of_unbound found] at value
    rw [(Term.uses_quantified.mp value).2]
    exact found
  | some bound =>
    rw [valueAt_of_get? found] at value
    exact eliminates _ (mem_of_get? found) kind name value

theorem Eliminates.fewer_names (eliminates : σ.Eliminates) (some : σ.isEmpty = false)
    {names : NameSet} (bounded : σ.Over fun _ name => name ∈ names) {e f e' f' : Effect}
    (within : e.Over fun _ name => name ∈ names) (within' : f.Over fun _ name => name ∈ names)
    (run : σ.apply e = .ok e') (run' : σ.apply f = .ok f') :
    (e'.names.union f'.names).size < names.size := by
  obtain ⟨binding, bound⟩ := List.exists_mem_of_ne_nil σ.bindings (by simpa [isEmpty] using some)
  obtain ⟨value, found⟩ := get?_isSome_of_mem bound
  have applied := applyToTerm_effect.mpr ⟨e', run, rfl⟩
  have applied' := applyToTerm_effect.mpr ⟨f', run', rfl⟩
  apply SortedSet.size_lt_of_missing _ (bounded binding bound).1
  · intro still
    obtain ⟨kind, effect, member, used⟩ := Vocabulary.mem_names_union.mp still
    have gone : σ.get? binding.name = none := by
      rcases List.mem_pair.mp member with rfl | rfl
      · exact eliminates.applyToTerm applied used
      · exact eliminates.applyToTerm applied' used
    cases gone.symm.trans found
  · intro name still
    obtain ⟨kind, effect, member, used⟩ := Vocabulary.mem_names_union.mp still
    rcases List.mem_pair.mp member with rfl | rfl
    · exact over_apply bounded.values within run kind name used
    · exact over_apply bounded.values within' run' kind name used

/-- The new substitution must not bring back names that the existing one has eliminated. -/
theorem Eliminates.compose (news : new.Eliminates) (olds : existing.Eliminates)
    (bounded : new.Over fun _ name => existing.get? name = none)
    (run : new.compose existing = .ok composed) : composed.Eliminates := by
  have unbound : ∀ name, existing.get? name = none → new.get? name = none →
      composed.get? name = none := by
    intro name old fresh
    rw [get?_compose_unbound run old, fresh]
  intro binding member kind name used
  rcases mem_compose run member with ⟨old, before, _, value⟩ | ⟨present, _⟩
  · apply unbound name _ (news.applyToTerm value used)
    obtain ⟨other, name', used', later⟩ := (uses_applyToTerm value kind name).mp used
    exact over_valueAt bounded.values (olds old before other name' used') kind name later
  · exact unbound name ((bounded binding present).2 kind name used)
      (news binding present kind name used)

theorem eliminates_single {name : String} {value : Term} (unused : ∀ kind, ¬ value.Uses kind name) :
    (single name value).Eliminates := by
  intro binding member kind other used
  cases List.mem_singleton.mp member
  rw [get?_single, if_neg]
  intro same
  subst same
  exact unused kind used

end Substitution

namespace Unification

open Substitution

structure Outcome (left right : Term) (σ : Substitution) : Prop where
  eliminates : σ.Eliminates
  isLocal : Local left right σ
  unionFree : left.UnionFree → right.UnionFree → σ.EverySet VariableSet.UnionFree

theorem InTurn.outcome {pieces : List (Term × Term)} {σ last : Substitution}
    (run : InTurn Outcome σ pieces last) :
    (σ.Eliminates → last.Eliminates) ∧ InTurn Local σ pieces last ∧
      (σ.EverySet VariableSet.UnionFree →
        (∀ piece ∈ pieces, piece.1.UnionFree ∧ piece.2.UnionFree) →
        last.EverySet VariableSet.UnionFree) := by
  induction run with
  | nil σ => exact ⟨id, .nil σ, fun known _ => known⟩
  | cons applied applied' solved added _ ih =>
    obtain ⟨eliminates, turns, free⟩ := ih
    refine ⟨?_, .cons applied applied' solved.isLocal added turns, ?_⟩
    · intro known
      have bounded := solved.isLocal _ (fun _ _ used => known.applyToTerm applied used)
        fun _ _ used => known.applyToTerm applied' used
      exact eliminates (solved.eliminates.compose known bounded added)
    · intro known each
      obtain ⟨onLeft, onRight⟩ := each _ List.mem_cons_self
      have learned := solved.unionFree
        (everySet_applyToTerm known (unionFree_applyToVariables known) onLeft applied)
        (everySet_applyToTerm known (unionFree_applyToVariables known) onRight applied')
      exact free (everySet_compose learned (unionFree_applyToVariables learned) known added)
        fun piece member => each piece (List.mem_cons_of_mem _ member)

theorem Layer.outcome {left right : Term} {σ : Substitution} (layer : Layer Outcome left right σ) :
    Outcome left right σ := by
  cases layer with
  | same term =>
    exact ⟨fun _ member => (nomatch member), Layer.isLocal (.same _), fun _ _ => everySet_empty⟩
  | bindLeft name value unused =>
    exact ⟨eliminates_single unused, Layer.isLocal (.bindLeft name _ unused),
      fun _ free => everySet_single free⟩
  | bindRight name value unused =>
    exact ⟨eliminates_single unused, Layer.isLocal (.bindRight name _ unused),
      fun free _ => everySet_single free⟩
  | pieces split run =>
    obtain ⟨eliminates, turns, free⟩ := run.outcome
    exact ⟨eliminates fun _ member => (nomatch member), Layer.isLocal (.pieces split turns),
      fun onLeft onRight => free everySet_empty (split.everySet False.elim onLeft onRight)⟩

end Unification

end SpecEffects
