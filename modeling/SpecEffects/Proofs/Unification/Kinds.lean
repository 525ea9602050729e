import SpecEffects.Proofs.Unification.Soundness

/-!
Unification of terms in which every name has one kind. A substitution over these names can be applied
to every term over them and composed with every other, and what is learned stays over them. So
whatever keeps two terms from being equal, it is not that the kinds of a name clash.
-/
namespace SpecEffects

namespace UnificationError

def KeepsKinds (error : UnificationError) : Prop := ∀ clash, error.rootCause ≠ .kindMismatch clash

end UnificationError

namespace Unification

open Substitution

def Settles {α : Type} (P : α → Prop) : Except UnificationError α → Prop
  | .ok found => P found
  | .error error => error.KeepsKinds

section Settles

variable {α β : Type} {P : α → Prop} {Q : β → Prop}

theorem Settles.bind {run : Except UnificationError α} {next : α → Except UnificationError β}
    (first : Settles P run) (later : ∀ found, P found → Settles Q (next found)) :
    Settles Q (run >>= next) := by
  cases run with
  | error error => exact first
  | ok found => exact later found first

theorem Settles.located {run : Except UnificationError α} (settles : Settles P run)
    (position : Position) (expected actual : Term) :
    Settles P (run.mapError (.nested position expected actual)) := by
  cases run with
  | error error => exact settles
  | ok found => exact settles

theorem settles_of_ok {step : Except KindClash α} {found : α} (run : step = .ok found)
    (holds : P found) : Settles P (step.mapError .kindMismatch) := by
  subst run
  exact holds

end Settles

variable {V : Vocabulary} (separate : V.Separate) {σ new : Substitution}

include separate

theorem compose_settles (news : new.Over V) (known : σ.Over V) :
    Settles (·.Over V) ((new.compose σ).mapError .kindMismatch) := by
  obtain ⟨composed, run⟩ := exists_compose fun binding member =>
    exists_applyToTerm_of_over news separate (known.values binding member)
  exact settles_of_ok run (over_compose news known run)

section Sets

open VariableSet

theorem applyToVariables_settles (known : σ.Over V) {set : VariableSet}
    (within : (Term.variables set).Over V) :
    Settles (fun after => (Term.variables after).Over V)
      ((σ.applyToVariables set).mapError .kindMismatch) := by
  obtain ⟨result, applied⟩ := exists_applyToTerm_of_over known separate within
  obtain ⟨after, run, rfl⟩ := applyToTerm_variables.mp applied
  exact settles_of_ok run (over_applyToTerm known.values within applied)

omit separate in
theorem bind_variables_settles {name : String} {value : VariableSet} (named : V .variables name)
    (within : (Term.variables value).Over V) : Settles (·.Over V) (VariableSet.bind name value) := by
  unfold VariableSet.bind
  split
  · intro clash same
    cases same
  · exact over_single named within

variable {member : VariableSet.Solver}
  (members : ∀ {s t}, (Term.variables s).Over V → (Term.variables t).Over V →
    Settles (·.Over V) (member s t))

include members

theorem solveUnder_variables_settles (known : σ.Over V) {s t : VariableSet}
    (within : (Term.variables s).Over V) (within' : (Term.variables t).Over V) :
    Settles (·.Over V) (VariableSet.solveUnder member σ s t) := by
  unfold VariableSet.solveUnder
  apply (applyToVariables_settles separate known within).bind
  intro left onLeft
  apply (applyToVariables_settles separate known within').bind
  intro right onRight
  apply (members onLeft onRight).bind
  intro new news
  exact compose_settles separate news known

theorem solveInTurn_settles {expected actual : Term}
    {pieces : List (Position × VariableSet × VariableSet)} (known : σ.Over V)
    (within : ∀ piece ∈ pieces,
      (Term.variables piece.2.1).Over V ∧ (Term.variables piece.2.2).Over V) :
    Settles (·.Over V) (solveInTurn member expected actual σ pieces) := by
  induction pieces generalizing σ with
  | nil => exact known
  | cons piece rest ih =>
    obtain ⟨position, left, right⟩ := piece
    obtain ⟨onLeft, onRight⟩ := within _ List.mem_cons_self
    have first := solveUnder_variables_settles separate members known onLeft onRight
    unfold solveInTurn
    apply (first.located position expected actual).bind
    intro known more
    exact ih more fun piece member => within piece (List.mem_cons_of_mem _ member)

theorem solveWith_variables_settles {s t : VariableSet} (within : (Term.variables s).Over V)
    (within' : (Term.variables t).Over V) :
    Settles (·.Over V) (VariableSet.solveWith member s t) := by
  have named : ∀ {name}, (Term.variables (.quantified name)).Over V → V .variables name :=
    fun spelled => spelled _ _ (VariableSet.uses_quantified.mpr ⟨rfl, rfl⟩)
  have part : ∀ {sets set}, set ∈ sets → (Term.variables (.union sets)).Over V →
      (Term.variables set).Over V :=
    fun member spelled kind name used =>
      spelled kind name (VariableSet.uses_union.mpr ⟨_, member, used⟩)
  simp only [VariableSet.solveWith]
  split
  · exact over_empty
  · split
    · exact bind_variables_settles (named within) within'
    · exact bind_variables_settles (named within') within
    · apply solveInTurn_settles separate members over_empty
      intro piece inside
      obtain ⟨i, bound, rfl⟩ := List.mem_mapIdx.mp inside
      exact ⟨part (List.getElem_mem bound) within, within'⟩
    · apply solveInTurn_settles separate members over_empty
      intro piece inside
      obtain ⟨i, bound, rfl⟩ := List.mem_mapIdx.mp inside
      exact ⟨within, part (List.getElem_mem bound) within'⟩
    · intro clash same
      cases same

omit members

theorem unify_variables_settles {s t : VariableSet} (within : (Term.variables s).Over V)
    (within' : (Term.variables t).Over V) : Settles (·.Over V) (s.unify t) := by
  unfold VariableSet.unify
  refine solveWith_variables_settles separate (fun within within' => ?_) within within'
  refine solveWith_variables_settles separate (fun within within' => ?_) within within'
  refine solveWith_variables_settles separate (fun within within' => ?_) within within'
  intro clash same
  cases same

end Sets

section Effects

open Effect

theorem unify_footprints_settles {expected actual : Footprint}
    (within : (Effect.concrete expected).Over V) (within' : (Effect.concrete actual).Over V) :
    Settles (·.Over V) (expected.unify actual) := by
  apply solveInTurn_settles separate (unify_variables_settles separate) over_empty
  intro piece inside
  obtain ⟨component, _, rfl⟩ := List.mem_map.mp inside
  exact ⟨fun kind name used => within kind name (Effect.uses_concrete.mpr ⟨component, used⟩),
    fun kind name used => within' kind name (Effect.uses_concrete.mpr ⟨component, used⟩)⟩

omit separate in
theorem bind_effect_settles {name : String} {value : Effect} (named : V .effect name)
    (within : value.Over V) : Settles (·.Over V) (Effect.bind name value) := by
  unfold Effect.bind
  split
  · intro clash same
    cases same
  · exact over_single named within

theorem apply_settles (known : σ.Over V) {effect : Effect} (within : effect.Over V) :
    Settles (·.Over V) ((σ.apply effect).mapError .kindMismatch) := by
  obtain ⟨after, run⟩ := exists_apply.mpr fun kind name used =>
    allows_of_over known separate (within kind name used)
  exact settles_of_ok run (over_apply known.values within run)

variable {further : Effect.Solver}
  (furthers : ∀ {e f : Effect}, e.Over V → f.Over V → Settles (·.Over V) (further e f))

include furthers

theorem solveUnder_settles (known : σ.Over V) {e f : Effect} (within : e.Over V)
    (within' : f.Over V) : Settles (·.Over V) (Effect.solveUnder further σ e f) := by
  unfold Effect.solveUnder
  apply (apply_settles separate known within).bind
  intro left onLeft
  apply (apply_settles separate known within').bind
  intro right onRight
  apply (furthers onLeft onRight).bind
  intro new news
  exact compose_settles separate news known

theorem solveParams_settles {expected actual : Term} {params params' : List Effect} {index : Nat}
    (known : σ.Over V)
    (direct : ∀ param ∈ params, ∀ {param'}, param.Over V → param'.Over V →
      Settles (·.Over V) (solveWith further param param'))
    (within : ∀ param ∈ params, param.Over V) (within' : ∀ param ∈ params', param.Over V) :
    Settles (·.Over V)
      (solveParams further (.nested · expected actual) index σ params params') := by
  induction params generalizing params' index σ with
  | nil =>
    simp only [solveParams]
    exact known
  | cons param params ih =>
    cases params' with
    | nil =>
      simp only [solveParams]
      exact known
    | cons param' params' =>
      have onLeft := within param List.mem_cons_self
      have onRight := within' param' List.mem_cons_self
      have later := fun known (more : known.Over V) => @ih known params' (index + 1) more
        (fun other member => direct other (List.mem_cons_of_mem _ member))
        (fun other member => within other (List.mem_cons_of_mem _ member))
        (fun other member => within' other (List.mem_cons_of_mem _ member))
      simp only [solveParams]
      split
      · have first := direct param List.mem_cons_self onLeft onRight
        exact (first.located _ _ _).bind later
      · have first := solveUnder_settles separate furthers known onLeft onRight
        exact (first.located _ _ _).bind later

theorem solveWith_settles {e f : Effect} (within : e.Over V) (within' : f.Over V) :
    Settles (·.Over V) (solveWith further e f) := by
  have named : ∀ {name}, (Effect.quantified name).Over V → V .effect name :=
    fun spelled => spelled _ _ (Effect.uses_quantified.mpr ⟨rfl, rfl⟩)
  induction e generalizing f with
  | quantified name =>
    simp only [solveWith]
    split
    · exact over_empty
    · exact bind_effect_settles (named within) within'
  | concrete footprint =>
    cases f with
    | quantified name =>
      simp only [solveWith]
      exact bind_effect_settles (named within') within
    | concrete actual =>
      simp only [solveWith]
      exact unify_footprints_settles separate within within'
    | arrow params result =>
      simp only [solveWith]
      intro clash same
      cases same
  | arrow params result inputs output =>
    cases f with
    | quantified name =>
      simp only [solveWith]
      exact bind_effect_settles (named within') within
    | concrete actual =>
      simp only [solveWith]
      intro clash same
      cases same
    | arrow params' result' =>
      simp only [solveWith]
      split
      · have onLeft : result.Over V :=
          fun kind name used => within kind name (Effect.uses_arrow.mpr (.inr used))
        have onRight : result'.Over V :=
          fun kind name used => within' kind name (Effect.uses_arrow.mpr (.inr used))
        have onLefts : ∀ param ∈ params, param.Over V := fun param member kind name used =>
          within kind name (Effect.uses_arrow.mpr (.inl ⟨param, member, used⟩))
        have onRights : ∀ param ∈ params', param.Over V := fun param member kind name used =>
          within' kind name (Effect.uses_arrow.mpr (.inl ⟨param, member, used⟩))
        apply (solveParams_settles separate furthers over_empty
          (fun param member _ => inputs param member) onLefts onRights).bind
        intro known more
        split
        · exact (output onLeft onRight).located _ _ _
        · exact (solveUnder_settles separate furthers more onLeft onRight).located _ _ _
      · intro clash same
        cases same

omit furthers

theorem solve_settles {names : Nat} {e f : Effect} (within : e.Over V) (within' : f.Over V) :
    Settles (·.Over V) (solve names e f) := by
  induction names generalizing e f with
  | zero =>
    refine solveWith_settles separate (fun _ _ => ?_) within within'
    intro clash same
    cases same
  | succ names ih => exact solveWith_settles separate ih within within'

end Effects

end Unification

theorem Effect.unify_keepsKinds {V : Vocabulary} (separate : V.Separate) {expected actual : Effect}
    (within : expected.Over V) (within' : actual.Over V) {cause : UnificationError}
    (failed : expected.unify actual = .error cause) : cause.KeepsKinds := by
  have settles : Unification.Settles (·.Over V) (expected.unify actual) :=
    Unification.solve_settles separate within within'
  rw [failed] at settles
  exact settles

end SpecEffects
