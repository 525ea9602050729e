import SpecEffects.Proofs.Unification.Elimination

/-!
What unification returns is in solved form. Each name is bound once, to a value that speaks of names
of the two sides only and of none that is bound. A second application therefore changes nothing.
Solved form holds of all effects, whether or not they are canonical and each of their names has one
kind.
-/
namespace SpecEffects

namespace Substitution

variable {σ new existing composed : Substitution}

def BindsOnce (σ : Substitution) : Prop := (σ.bindings.map Binding.name).Nodup

theorem bindsOnce_single (name : String) (value : Term) : (single name value).BindsOnce := by
  simp [BindsOnce, single]

theorem names_changed {R : Binding → Binding → Prop} {bindings changed : List Binding}
    (each : List.Forall₂ (fun binding result => result.name = binding.name ∧ R binding result)
      bindings changed) : changed.map Binding.name = bindings.map Binding.name := by
  induction each with
  | nil => rfl
  | cons head _ ih => rw [List.map_cons, List.map_cons, head.1, ih]

/-- A binding of the new substitution is added only where the existing one has none. -/
theorem BindsOnce.compose (news : new.BindsOnce) (olds : existing.BindsOnce)
    (run : new.compose existing = .ok composed) : composed.BindsOnce := by
  obtain ⟨changed, each, rfl⟩ := compose_eq_ok.mp run
  rw [BindsOnce, List.map_append, names_changed each, List.nodup_append]
  refine ⟨olds, news.sublist (List.filter_sublist.map _), ?_⟩
  intro name old name' added same
  subst same
  obtain ⟨before, present, rfl⟩ := List.mem_map.mp old
  obtain ⟨binding, chosen, same⟩ := List.mem_map.mp added
  have unbound := get?_eq_none_of_not_binds (List.mem_filter.mp chosen).2
  obtain ⟨value, found⟩ := get?_isSome_of_mem present
  rw [same, found] at unbound
  cases unbound

end Substitution

namespace Unification

open Substitution

theorem InTurn.bindsOnce {pieces : List (Term × Term)} {σ last : Substitution}
    (run : InTurn (fun _ _ => BindsOnce) σ pieces last) (known : σ.BindsOnce) : last.BindsOnce := by
  induction run with
  | nil σ => exact known
  | cons _ _ solved added _ ih => exact ih (solved.compose known added)

theorem Layer.bindsOnce {left right : Term} {σ : Substitution}
    (layer : Layer (fun _ _ => BindsOnce) left right σ) : σ.BindsOnce := by
  cases layer with
  | same term => exact List.nodup_nil
  | bindLeft name _ _ => exact bindsOnce_single name _
  | bindRight name _ _ => exact bindsOnce_single name _
  | pieces split run => exact run.bindsOnce List.nodup_nil

end Unification

namespace Effect

open Substitution Unification

variable {A B : Effect} {σ : Substitution}

theorem unify_eliminates (run : A.unify B = .ok σ) : σ.Eliminates :=
  (solve_solved Layer.outcome run).eliminates

theorem apply_twice (eliminates : σ.Eliminates) (values : σ.Canonical) {effect result : Effect}
    (canonical : effect.Canonical) (run : σ.apply effect = .ok result) :
    σ.apply result = .ok result := by
  have applied : σ.applyToTerm (.effect effect) = .ok (.effect result) :=
    applyToTerm_effect.mpr ⟨result, run, rfl⟩
  have written : result.Canonical :=
    everySet_apply values (fun _ => canonical_applyToVariables values) canonical run
  exact apply_self written fun kind name used => eliminates.applyToTerm applied used

/-- A solution binds each name once, names and values are of the two sides, and no bound name is
used in a value. Between canonical effects it is idempotent. -/
theorem unifier_is_solved_form (run : A.unify B = .ok σ) :
    (σ.bindings.map Binding.name).Nodup ∧
    (∀ binding ∈ σ.bindings,
      (A.Uses binding.value.kind binding.name ∨ B.Uses binding.value.kind binding.name) ∧
      ∀ kind name, binding.value.Uses kind name → A.Uses kind name ∨ B.Uses kind name) ∧
    (∀ binding ∈ σ.bindings, ∀ other ∈ σ.bindings, ∀ kind,
      ¬ binding.value.Uses kind other.name) ∧
    (A.Canonical → B.Canonical → ∀ effect result, effect.Canonical →
      σ.apply effect = .ok result → σ.apply result = .ok result) := by
  have eliminates := unify_eliminates run
  have bounded : σ.Over fun kind name => A.Uses kind name ∨ B.Uses kind name :=
    unify_over (fun _ _ => Or.inl) (fun _ _ => Or.inr) run
  refine ⟨?_, bounded, fun binding member other bound kind used => ?_,
    fun canonical canonical' effect result => ?_⟩
  · have once : σ.BindsOnce := solve_solved Layer.bindsOnce run
    exact once
  · obtain ⟨value, found⟩ := get?_isSome_of_mem bound
    cases (eliminates binding member kind other.name used).symm.trans found
  · exact apply_twice eliminates (unify_canonical canonical canonical' run).1

/-- The name `n` stands for an effect and for a set. The value of `e` holds `v`, which is bound
later, and the union with `v` shrinks. -/
theorem solved_form_of_shared_name :
    let A : Effect := .arrow [.quantified "n", .quantified "e",
      .concrete ⟨.union [.quantified "v", .concrete (.singleton "x")], .empty, .empty⟩]
      (.quantified "e")
    let B : Effect := .arrow [.quantified "n",
      .arrow [.quantified "f"] (.concrete ⟨.quantified "v", .quantified "n", .empty⟩), .reads "x"]
      (.quantified "g")
    let value : Effect := .arrow [.quantified "f"]
      (.concrete ⟨.concrete (.singleton "x"), .quantified "n", .empty⟩)
    let σ : Substitution := ⟨[⟨"e", .effect value⟩, ⟨"v", .variables (.concrete (.singleton "x"))⟩,
      ⟨"g", .effect value⟩]⟩
    let effect : Effect := .arrow [.quantified "g"]
      (.concrete ⟨.union [.quantified "v", .quantified "w"], .empty, .empty⟩)
    A.unify B = .ok σ ∧
      (σ.bindings.map Binding.name).Nodup ∧
      (∀ binding ∈ σ.bindings,
        (A.Uses binding.value.kind binding.name ∨ B.Uses binding.value.kind binding.name) ∧
        ∀ kind name, binding.value.Uses kind name → A.Uses kind name ∨ B.Uses kind name) ∧
      (∀ binding ∈ σ.bindings, ∀ other ∈ σ.bindings, ∀ kind,
        ¬ binding.value.Uses kind other.name) ∧
      A.Canonical ∧ B.Canonical ∧ effect.Canonical ∧
      ∃ result, σ.apply effect = .ok result ∧ σ.apply result = .ok result := by
  intro A B value σ effect
  have run : A.unify B = .ok σ := by decide
  have canonical : A.Canonical := by decide
  have canonical' : B.Canonical := by decide
  have written : effect.Canonical := by decide
  have first : σ.apply effect = .ok (.arrow [value] (.concrete
      ⟨.union [.quantified "w", .concrete (.singleton "x")], .empty, .empty⟩)) := by decide
  obtain ⟨once, inside, eliminated, twice⟩ := unifier_is_solved_form run
  exact ⟨run, once, inside, eliminated, canonical, canonical', written, _, first,
    twice canonical canonical' effect _ written first⟩

end Effect

end SpecEffects
