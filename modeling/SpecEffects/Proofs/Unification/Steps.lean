import SpecEffects.Proofs.Composition
import SpecEffects.Unification.Effects

/-!
How two terms are made equal, said once for sets and effects. They are the same, a name is bound, or
they have the same shape and their pieces are made equal in turn. A property of solutions that goes
from pieces to wholes holds of every solution that is found.
-/
namespace SpecEffects.Unification

/-- Pieces in turn: what is known is applied to the next piece, and what is learned is added. -/
inductive InTurn (Solved : Term → Term → Substitution → Prop) :
    Substitution → List (Term × Term) → Substitution → Prop where
  | nil (σ : Substitution) : InTurn Solved σ [] σ
  | cons {σ new known last : Substitution} {left right left' right' : Term}
      {rest : List (Term × Term)} (applied : σ.applyToTerm left = .ok left')
      (applied' : σ.applyToTerm right = .ok right') (solved : Solved left' right' new)
      (added : new.compose σ = .ok known) (later : InTurn Solved known rest last) :
      InTurn Solved σ ((left, right) :: rest) last

inductive Split : Term → Term → List (Term × Term) → Prop where
  | footprints (expected actual : Footprint) :
      Split (.effect (.concrete expected)) (.effect (.concrete actual))
        (Component.all.map fun component =>
          (.variables (expected.get component), .variables (actual.get component)))
  | arrows {params params' : List Effect} (result result' : Effect)
      (arity : params.length = params'.length) :
      Split (.effect (.arrow params result)) (.effect (.arrow params' result'))
        ((params.zip params').map (fun pair => (.effect pair.1, .effect pair.2)) ++
          [(.effect result, .effect result')])
  | unionLeft (sets : List VariableSet) (vars : NameSet) :
      Split (.variables (.union sets)) (.variables (.concrete vars))
        (sets.map fun set => (.variables set, .variables (.concrete vars)))
  | unionRight (vars : NameSet) (sets : List VariableSet) :
      Split (.variables (.concrete vars)) (.variables (.union sets))
        (sets.map fun set => (.variables (.concrete vars), .variables set))

/-- One layer of unification, given what is known of the solutions for pieces. -/
inductive Layer (Solved : Term → Term → Substitution → Prop) :
    Term → Term → Substitution → Prop where
  | same (term : Term) : Layer Solved term term ∅
  | bindLeft (name : String) (value : Term) (unused : ∀ kind, ¬ value.Uses kind name) :
      Layer Solved (value.kind.quantified name) value (.single name value)
  | bindRight (name : String) (value : Term) (unused : ∀ kind, ¬ value.Uses kind name) :
      Layer Solved value (value.kind.quantified name) (.single name value)
  | pieces {left right : Term} {pieces : List (Term × Term)} {σ : Substitution}
      (split : Split left right pieces) (run : InTurn Solved ∅ pieces σ) : Layer Solved left right σ

variable {Solved : Term → Term → Substitution → Prop}

theorem map_mapIdx {α β γ : Type} (f : Nat → α → β) (g : β → γ) (as : List α)
    (same : ∀ i a, g (f i a) = g (f 0 a)) : (as.mapIdx f).map g = as.map fun a => g (f 0 a) :=
  List.ext_getElem (by simp) (by simp [same])

theorem InTurn.append {σ known last : Substitution} {front back : List (Term × Term)}
    (first : InTurn Solved σ front known) (second : InTurn Solved known back last) :
    InTurn Solved σ (front ++ back) last := by
  induction first with
  | nil σ => exact second
  | cons applied applied' solved added _ ih => exact .cons applied applied' solved added (ih second)

theorem InTurn.imp {Solved' : Term → Term → Substitution → Prop}
    (more : ∀ {left right σ}, Solved left right σ → Solved' left right σ) {σ last : Substitution}
    {pieces : List (Term × Term)} (run : InTurn Solved σ pieces last) :
    InTurn Solved' σ pieces last := by
  induction run with
  | nil σ => exact .nil σ
  | cons applied applied' solved added _ ih => exact .cons applied applied' (more solved) added ih

section Sets

open VariableSet

variable {member : VariableSet.Solver}
  (members : ∀ {s t σ}, member s t = .ok σ → Solved (.variables s) (.variables t) σ)

include members in
theorem solveUnder_variables_inTurn {σ known : Substitution} {left right : VariableSet}
    (run : VariableSet.solveUnder member σ left right = .ok known) :
    InTurn Solved σ [(.variables left, .variables right)] known := by
  simp only [VariableSet.solveUnder, bind_eq_ok, mapError_eq_ok] at run
  obtain ⟨left', applied, right', applied', new, solved, added⟩ := run
  exact .cons (Substitution.applyToTerm_variables.mpr ⟨left', applied, rfl⟩)
    (Substitution.applyToTerm_variables.mpr ⟨right', applied', rfl⟩) (members solved) added
    (.nil known)

include members in
theorem solveInTurn_inTurn {expected actual : Term} {σ last : Substitution}
    {pieces : List (Position × VariableSet × VariableSet)}
    (run : solveInTurn member expected actual σ pieces = .ok last) :
    InTurn Solved σ (pieces.map fun piece => (.variables piece.2.1, .variables piece.2.2))
      last := by
  induction pieces generalizing σ with
  | nil =>
    cases run
    exact .nil _
  | cons piece rest ih =>
    obtain ⟨position, left, right⟩ := piece
    simp only [solveInTurn, bind_eq_ok, mapError_eq_ok] at run
    obtain ⟨known, solved, later⟩ := run
    exact (solveUnder_variables_inTurn members solved).append (ih later)

theorem bind_variables_eq_ok {name : String} {value : VariableSet} {σ : Substitution} :
    VariableSet.bind name value = .ok σ ↔
      (∀ kind, ¬ value.Uses kind name) ∧ σ = .single name (.variables value) := by
  unfold VariableSet.bind
  split
  · rename_i used
    simp [VariableSet.Uses, used]
  · rename_i unused
    simp [VariableSet.Uses, unused, eq_comm]

include members in
theorem solveWith_variables_layer {s t : VariableSet} {σ : Substitution}
    (run : VariableSet.solveWith member s t = .ok σ) :
    Layer Solved (.variables s) (.variables t) σ := by
  simp only [VariableSet.solveWith] at run
  split at run
  · rename_i equal
    cases run
    subst equal
    exact .same _
  · split at run
    · obtain ⟨unused, eq⟩ := bind_variables_eq_ok.mp run
      subst eq
      exact .bindLeft _ (.variables _) unused
    · obtain ⟨unused, eq⟩ := bind_variables_eq_ok.mp run
      subst eq
      exact .bindRight _ (.variables _) unused
    · have turns := solveInTurn_inTurn members run
      rw [map_mapIdx _ _ _ fun _ _ => rfl] at turns
      exact .pieces (.unionLeft _ _) turns
    · have turns := solveInTurn_inTurn members run
      rw [map_mapIdx _ _ _ fun _ _ => rfl] at turns
      exact .pieces (.unionRight _ _) turns
    · cases run

theorem unify_variables_solved
    (layers : ∀ {left right σ}, Layer Solved left right σ → Solved left right σ)
    {s t : VariableSet} {σ : Substitution} (run : s.unify t = .ok σ) :
    Solved (.variables s) (.variables t) σ := by
  unfold VariableSet.unify at run
  refine layers (solveWith_variables_layer (fun run => ?_) run)
  refine layers (solveWith_variables_layer (fun run => ?_) run)
  refine layers (solveWith_variables_layer (fun run => ?_) run)
  cases run

end Sets

section Effects

open Effect

variable {further : Effect.Solver}
  (furthers : ∀ {e f σ}, further e f = .ok σ → Solved (.effect e) (.effect f) σ)

theorem bind_effect_eq_ok {name : String} {value : Effect} {σ : Substitution} :
    Effect.bind name value = .ok σ ↔
      (∀ kind, ¬ value.Uses kind name) ∧ σ = .single name (.effect value) := by
  unfold Effect.bind
  split
  · rename_i used
    obtain ⟨kind, used⟩ := Effect.mem_names.mp used
    simp only [reduceCtorEq, false_iff, not_and]
    exact fun unused => absurd used (unused kind)
  · rename_i unused
    have each : ∀ kind, ¬ value.Uses kind name := fun kind used =>
      unused (Effect.mem_names.mpr ⟨kind, used⟩)
    simp [each, eq_comm]

theorem unify_footprints_inTurn
    (layers : ∀ {left right σ}, Layer Solved left right σ → Solved left right σ)
    {expected actual : Footprint} {σ : Substitution} (run : expected.unify actual = .ok σ) :
    InTurn Solved ∅ (Component.all.map fun component =>
      (.variables (expected.get component), .variables (actual.get component))) σ := by
  have turns := solveInTurn_inTurn (unify_variables_solved layers) run
  rwa [List.map_map] at turns

/-- A piece is solved for directly while nothing is known, which is no different from applying the
substitution without bindings first. -/
theorem direct_inTurn {σ known : Substitution} {left right : Effect} (none : σ.isEmpty = true)
    (solved : Solved (.effect left) (.effect right) known) :
    InTurn Solved σ [(.effect left, .effect right)] known := by
  rw [Substitution.isEmpty_iff] at none
  subst none
  exact .cons rfl rfl solved (Substitution.compose_empty_right known) (.nil known)

include furthers in
theorem solveUnder_inTurn {σ known : Substitution} {left right : Effect}
    (run : Effect.solveUnder further σ left right = .ok known) :
    InTurn Solved σ [(.effect left, .effect right)] known := by
  simp only [Effect.solveUnder, bind_eq_ok, mapError_eq_ok] at run
  obtain ⟨left', applied, right', applied', new, solved, added⟩ := run
  exact .cons (Substitution.applyToTerm_effect.mpr ⟨left', applied, rfl⟩)
    (Substitution.applyToTerm_effect.mpr ⟨right', applied', rfl⟩) (furthers solved) added
    (.nil known)

include furthers in
theorem solveParams_inTurn {locate : Position → UnificationError → UnificationError}
    {params params' : List Effect} {index : Nat} {σ last : Substitution}
    (direct : ∀ param ∈ params, ∀ {param' new}, solveWith further param param' = .ok new →
      Solved (.effect param) (.effect param') new)
    (run : solveParams further locate index σ params params' = .ok last) :
    InTurn Solved σ ((params.zip params').map fun pair => (.effect pair.1, .effect pair.2))
      last := by
  induction params generalizing params' index σ with
  | nil =>
    simp only [solveParams] at run
    cases run
    exact .nil _
  | cons param params ih =>
    cases params' with
    | nil =>
      simp only [solveParams] at run
      cases run
      exact .nil _
    | cons param' params' =>
      have rest := fun other member {param' new} =>
        @direct other (List.mem_cons_of_mem _ member) param' new
      simp only [solveParams] at run
      split at run
      · rename_i none
        simp only [bind_eq_ok, mapError_eq_ok] at run
        obtain ⟨known, piece, later⟩ := run
        have first := direct_inTurn none (direct param List.mem_cons_self piece)
        exact first.append (ih rest later)
      · simp only [bind_eq_ok, mapError_eq_ok] at run
        obtain ⟨known, piece, later⟩ := run
        exact (solveUnder_inTurn furthers piece).append (ih rest later)

include furthers in
theorem solveWith_effect_solved
    (layers : ∀ {left right σ}, Layer Solved left right σ → Solved left right σ)
    {e f : Effect} {σ : Substitution} (run : solveWith further e f = .ok σ) :
    Solved (.effect e) (.effect f) σ := by
  induction e generalizing f σ with
  | quantified name =>
    simp only [solveWith] at run
    split at run
    · rename_i equal
      cases run
      subst equal
      exact layers (.same _)
    · obtain ⟨unused, eq⟩ := bind_effect_eq_ok.mp run
      subst eq
      exact layers (.bindLeft name (.effect f) unused)
  | concrete footprint =>
    cases f with
    | quantified name =>
      simp only [solveWith] at run
      obtain ⟨unused, eq⟩ := bind_effect_eq_ok.mp run
      subst eq
      exact layers (.bindRight name (.effect _) unused)
    | concrete actual =>
      simp only [solveWith] at run
      exact layers (.pieces (.footprints footprint actual) (unify_footprints_inTurn layers run))
    | arrow params result =>
      simp only [solveWith] at run
      cases run
  | arrow params result inputs output =>
    cases f with
    | quantified name =>
      simp only [solveWith] at run
      obtain ⟨unused, eq⟩ := bind_effect_eq_ok.mp run
      subst eq
      exact layers (.bindRight name (.effect _) unused)
    | concrete actual =>
      simp only [solveWith] at run
      cases run
    | arrow params' result' =>
      simp only [solveWith] at run
      split at run
      · rename_i arity
        simp only [bind_eq_ok] at run
        obtain ⟨known, front, last⟩ := run
        have first := solveParams_inTurn furthers (fun param member => inputs param member) front
        have second : InTurn Solved known [(.effect result, .effect result')] σ := by
          split at last
          · rename_i none
            exact direct_inTurn none (output (mapError_eq_ok.mp last))
          · exact solveUnder_inTurn furthers (mapError_eq_ok.mp last)
        exact layers (.pieces (.arrows result result' arity) (first.append second))
      · cases run

theorem solve_solved (layers : ∀ {left right σ}, Layer Solved left right σ → Solved left right σ)
    {names : Nat} {e f : Effect} {σ : Substitution} (run : solve names e f = .ok σ) :
    Solved (.effect e) (.effect f) σ := by
  induction names generalizing e f σ with
  | zero => exact solveWith_effect_solved (fun failed => nomatch failed) layers run
  | succ names ih => exact solveWith_effect_solved ih layers run

end Effects

end SpecEffects.Unification
