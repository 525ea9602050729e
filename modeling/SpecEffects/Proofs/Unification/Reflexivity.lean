import SpecEffects.Proofs.Unification.Termination

/-!
When there is nothing to solve. Equal sides are made equal without binding anything, at every piece
and with unions as they are written. Between canonical effects nothing else is: what binds nothing
leaves both sides as they are, and so they have been equal before.
-/
namespace SpecEffects

namespace Unification

open Substitution

theorem solvePieces_nothing {α : Type}
    {under : Substitution → α → α → Except UnificationError Substitution} (expected actual : Term)
    {pieces : List (Position × α × α)}
    (each : ∀ piece ∈ pieces, under ∅ piece.2.1 piece.2.2 = .ok ∅) :
    solvePieces under expected actual ∅ pieces = .ok ∅ := by
  induction pieces with
  | nil => rfl
  | cons piece rest ih =>
    obtain ⟨position, left, right⟩ := piece
    simp only [solvePieces, bind_eq_ok, mapError_eq_ok]
    exact ⟨∅, each _ List.mem_cons_self, ih fun piece member =>
      each piece (List.mem_cons_of_mem _ member)⟩

end Unification

namespace VariableSet

open Substitution

theorem unify_self (set : VariableSet) : set.unify set = .ok ∅ := by
  simp [unify, solveWith]

theorem solveUnder_self (set : VariableSet) : solveUnder unify ∅ set set = .ok ∅ := by
  obtain ⟨after, run⟩ := exists_applyToVariables.mpr fun kind name (_ : set.Uses kind name) =>
    allows_of_unbound (get?_empty name)
  simp only [solveUnder, bind_eq_ok, mapError_eq_ok]
  exact ⟨after, run, after, run, ∅, unify_self after, compose_empty_right ∅⟩

end VariableSet

theorem Footprint.unify_self (footprint : Footprint) : footprint.unify footprint = .ok ∅ := by
  rw [Footprint.unify, Unification.solveInTurn_eq_solvePieces]
  apply Unification.solvePieces_nothing
  intro piece member
  obtain ⟨component, _, rfl⟩ := List.mem_map.mp member
  exact VariableSet.solveUnder_self _

namespace Effect

open Substitution Unification

theorem mem_arrowPieces_self {params : List Effect} {result : Effect}
    {piece : Position × Effect × Effect} (member : piece ∈ arrowPieces params params result result) :
    piece.2.1 = piece.2.2 ∧ (piece.2.1 ∈ params ∨ piece.2.1 = result) := by
  rcases List.mem_append.mp member with input | output
  · obtain ⟨index, bound, rfl⟩ := List.mem_mapIdx.mp input
    simp
  · cases List.mem_singleton.mp output
    exact ⟨rfl, Or.inr rfl⟩

theorem unify_self (effect : Effect) : effect.unify effect = .ok ∅ := by
  induction effect with
  | concrete footprint =>
    rw [unify_eq_solveLayer]
    exact footprint.unify_self
  | quantified name =>
    rw [unify_eq_solveLayer]
    exact if_pos rfl
  | arrow params result inputs output =>
    rw [unify_eq_solveLayer, solveLayer, if_pos rfl]
    apply solvePieces_nothing
    intro piece member
    obtain ⟨same, inside⟩ := mem_arrowPieces_self member
    rw [solveUnder_empty, ← same]
    rcases inside with input | last
    · exact inputs _ input
    · rw [last]
      exact output

variable {A B : Effect}

/-- Nothing is bound exactly when both sides are equal. Every effect is equal to itself, and what a
solution makes of the two sides has nothing left to solve. -/
theorem nothing_to_solve_means_equal (canonical : A.Canonical) (canonical' : B.Canonical) :
    (A.unify B = .ok ∅ ↔ A = B) ∧
    (∀ effect : Effect, effect.unify effect = .ok ∅) ∧
    ∀ σ A' B', A.unify B = .ok σ → σ.apply A = .ok A' → σ.apply B = .ok B' →
      A'.unify B' = .ok ∅ := by
  have solved : ∀ {σ A' B'}, A.unify B = .ok σ → σ.apply A = .ok A' → σ.apply B = .ok B' →
      A' = B' := by
    intro σ A' B' run first second
    have equal := (unify_canonical canonical canonical' run).2
    exact Term.effect.inj (equal _ _ (applyToTerm_effect.mpr ⟨A', first, rfl⟩)
      (applyToTerm_effect.mpr ⟨B', second, rfl⟩))
  refine ⟨⟨fun run => solved run rfl rfl, fun same => ?_⟩, unify_self, ?_⟩
  · rw [same]
    exact unify_self B
  · intro σ A' B' run first second
    rw [solved run first second]
    exact unify_self B'

/-- A union shrinks, and the name `n` stands for an effect and for a set. After that there is nothing
left to solve. -/
theorem nothing_to_solve_after_shrinking :
    let A : Effect := .arrow [.concrete
      ⟨.union [.quantified "v", .concrete (.singleton "x")], .empty, .quantified "n"⟩,
      .quantified "n"] (.quantified "e")
    let B : Effect := .arrow [.concrete ⟨.concrete (.singleton "x"), .empty, .quantified "n"⟩,
      .quantified "n"] (.concrete ⟨.union [.quantified "v", .quantified "w"], .empty, .empty⟩)
    let value : Effect :=
      .concrete ⟨.union [.quantified "w", .concrete (.singleton "x")], .empty, .empty⟩
    let σ : Substitution :=
      ⟨[⟨"v", .variables (.concrete (.singleton "x"))⟩, ⟨"e", .effect value⟩]⟩
    let C : Effect := .arrow [.concrete ⟨.concrete (.singleton "x"), .empty, .quantified "n"⟩,
      .quantified "n"] value
    A.Canonical ∧ B.Canonical ∧ A.unify B = .ok σ ∧ A.unify B ≠ .ok ∅ ∧
      σ.apply A = .ok C ∧ σ.apply B = .ok C ∧ C.unify C = .ok ∅ := by
  intro A B value σ C
  have canonical : A.Canonical := by decide
  have canonical' : B.Canonical := by decide
  have run : A.unify B = .ok σ := by decide
  have first : σ.apply A = .ok C := by decide
  have second : σ.apply B = .ok C := by decide
  obtain ⟨nothing, _, after⟩ := nothing_to_solve_means_equal canonical canonical'
  have different : A.unify B ≠ .ok ∅ := fun same => absurd (nothing.mp same) (by decide)
  exact ⟨canonical, canonical', run, different, first, second, after σ C C run first second⟩

end Effect

end SpecEffects
