import SpecEffects.Proofs.Unification.Termination

/-!
Two runs of unification side by side. They correspond when both succeed with related solutions, or
both fail for the same reason. What is related before a piece and after it is related after all
pieces.
-/
namespace SpecEffects

inductive Corresponds {ε ε' α β : Type} (E : ε → ε' → Prop) (R : α → β → Prop) :
    Except ε α → Except ε' β → Prop
  | ok {a : α} {b : β} (related : R a b) : Corresponds E R (.ok a) (.ok b)
  | error {e : ε} {e' : ε'} (alike : E e e') : Corresponds E R (.error e) (.error e')

namespace Corresponds

variable {ε ε' δ δ' α β α' β' : Type} {E : ε → ε' → Prop} {F : δ → δ' → Prop} {R : α → β → Prop}
  {S : α' → β' → Prop}

theorem bind {x : Except ε α} {y : Except ε' β} (first : Corresponds E R x y)
    {f : α → Except ε α'} {g : β → Except ε' β'}
    (next : ∀ a b, R a b → Corresponds E S (f a) (g b)) : Corresponds E S (x >>= f) (y >>= g) := by
  cases first with
  | ok related => exact next _ _ related
  | error alike => exact .error alike

theorem mapError {x : Except ε α} {y : Except ε' β} (both : Corresponds E R x y) {f : ε → δ}
    {g : ε' → δ'} (alike : ∀ e e', E e e' → F (f e) (g e')) :
    Corresponds F R (x.mapError f) (y.mapError g) := by
  cases both with
  | ok related => exact .ok related
  | error both => exact .error (alike _ _ both)

theorem imp {T : α → β → Prop} {x : Except ε α} {y : Except ε' β} (both : Corresponds E R x y)
    (more : ∀ a b, x = .ok a → y = .ok b → R a b → T a b) : Corresponds E T x y := by
  cases both with
  | ok related => exact .ok (more _ _ rfl rfl related)
  | error alike => exact .error alike

theorem exists_iff {x : Except ε α} {y : Except ε' β} (both : Corresponds E R x y) :
    (∃ a, x = .ok a) ↔ ∃ b, y = .ok b := by
  cases both with
  | ok _ => exact ⟨fun _ => ⟨_, rfl⟩, fun _ => ⟨_, rfl⟩⟩
  | error _ => simp

theorem related {x : Except ε α} {y : Except ε' β} (both : Corresponds E R x y) {a : α} {b : β}
    (first : x = .ok a) (second : y = .ok b) : R a b := by
  subst first second
  cases both with
  | ok related => exact related

theorem of_exists_iff {x : Except ε α} {y : Except ε' β} (both : (∃ a, x = .ok a) ↔ ∃ b, y = .ok b)
    (related : ∀ a b, x = .ok a → y = .ok b → R a b) : Corresponds (fun _ _ => True) R x y := by
  cases x with
  | ok a =>
    obtain ⟨b, second⟩ := both.mp ⟨a, rfl⟩
    subst second
    exact .ok (related a b rfl rfl)
  | error e =>
    cases y with
    | ok b => simp at both
    | error e' => exact .error trivial

end Corresponds

namespace UnificationError

/-- What the innermost failure is, apart from the terms that it is about. -/
inductive Reason where
  | shape
  | arity
  | cycle
  | variables
  | kinds
  deriving DecidableEq

def reason : UnificationError → Reason
  | .shapeMismatch _ _ => .shape
  | .arityMismatch _ _ => .arity
  | .occursCheck _ _ => .cycle
  | .variablesMismatch _ _ => .variables
  | .kindMismatch _ => .kinds
  | .nested _ _ _ cause => reason cause

theorem reason_rootCause (error : UnificationError) : error.rootCause.reason = error.reason := by
  induction error with
  | nested position expected actual cause ih => exact ih
  | _ => rfl

end UnificationError

namespace Unification

open Substitution

abbrev Alike {α β : Type} (R : α → β → Prop) :
    Except UnificationError α → Except UnificationError β → Prop :=
  Corresponds (fun error error' => error'.reason = error.reason) R

variable {α β : Type} {R : α → β → Prop}

theorem alike_of_eq {x y : Except UnificationError α} (same : x = y) : Alike Eq x y := by
  subst same
  cases x with
  | ok a => exact .ok rfl
  | error e => exact .error rfl

theorem rootCause_alike {x : Except UnificationError α} {y : Except UnificationError β}
    (both : Alike R x y) {error error' : UnificationError} (failed : x = .error error)
    (failed' : y = .error error') : error'.rootCause.reason = error.rootCause.reason := by
  subst failed failed'
  cases both with
  | error same => rw [UnificationError.reason_rootCause, UnificationError.reason_rootCause, same]

theorem alike_of_corresponds {x : Except KindClash α} {y : Except KindClash β}
    (both : Corresponds (fun _ _ => True) R x y) :
    Alike R (x.mapError .kindMismatch) (y.mapError .kindMismatch) :=
  both.mapError fun _ _ _ => rfl

theorem solvePieces_alike {Solved : Term → Term → Substitution → Prop} {γ : Type}
    {S : Substitution → Substitution → Prop}
    {under under' : Substitution → γ → γ → Except UnificationError Substitution}
    {expected actual expected' actual' : Term} (term : γ → Term) (change : γ → γ → γ × γ)
    (found : ∀ {σ left right last}, under σ left right = .ok last →
      InTurn Solved σ [(term left, term right)] last)
    {front : List (Term × Term)} {σ σ' : Substitution} (before : InTurn Solved ∅ front σ)
    (related : S σ σ') {pieces : List (Position × γ × γ)}
    (step : ∀ done left right back known known',
      front ++ pieces.map (fun piece => (term piece.2.1, term piece.2.2)) =
        done ++ (term left, term right) :: back →
      InTurn Solved ∅ done known → S known known' →
      Alike S (under known left right) (under' known' (change left right).1 (change left right).2)) :
    Alike S (solvePieces under expected actual σ pieces)
      (solvePieces under' expected' actual' σ'
        (pieces.map fun piece => (piece.1, change piece.2.1 piece.2.2))) := by
  induction pieces generalizing front σ σ' with
  | nil => exact .ok related
  | cons piece rest ih =>
    obtain ⟨position, left, right⟩ := piece
    have first := step front left right _ σ σ' rfl before related
    simp only [List.map_cons, solvePieces]
    cases run : under σ left right with
    | error cause =>
      rw [run] at first
      generalize under' σ' _ _ = other at first ⊢
      cases first with
      | error alike => exact .error alike
    | ok known =>
      rw [run] at first
      generalize under' σ' _ _ = other at first ⊢
      cases first with
      | @ok _ known' related =>
        refine ih (before.append (found run)) related ?_
        intro done left' right' back last last' same
        apply step done left' right' back last last'
        rw [← same, List.append_assoc]
        rfl

variable {S : Substitution → Substitution → Prop}

theorem footprints_alike (start : S ∅ ∅)
    (change : VariableSet → VariableSet → VariableSet × VariableSet)
    {expected actual expected' actual' : Footprint}
    (changed : ∀ component, (expected'.get component, actual'.get component) =
      change (expected.get component) (actual.get component))
    (step : ∀ component known known', S known known' →
      Alike S
        (VariableSet.solveUnder VariableSet.unify known (expected.get component)
          (actual.get component))
        (VariableSet.solveUnder VariableSet.unify known' (expected'.get component)
          (actual'.get component))) :
    Alike S (expected.unify actual) (expected'.unify actual') := by
  have copies : (Component.all.map fun component => (Position.component component,
      expected'.get component, actual'.get component)) =
      (Component.all.map fun component => (Position.component component, expected.get component,
        actual.get component)).map fun piece => (piece.1, change piece.2.1 piece.2.2) := by
    rw [List.map_map]
    exact List.map_congr_left fun component _ => congrArg (Prod.mk _) (changed component)
  rw [Footprint.unify, Footprint.unify, copies, solveInTurn_eq_solvePieces,
    solveInTurn_eq_solvePieces]
  have found : ∀ {s t : VariableSet} {σ}, s.unify t = .ok σ → Finds (.variables s) (.variables t) σ :=
    fun found => found
  apply solvePieces_alike Term.variables change (solveUnder_variables_inTurn found) (.nil ∅) start
  intro done left right back known known' whole _ related
  have member : (Term.variables left, Term.variables right) ∈ done ++ _ :: back :=
    List.mem_append_right _ List.mem_cons_self
  rw [← whole, List.nil_append, List.map_map] at member
  obtain ⟨component, _, same⟩ := List.mem_map.mp member
  cases same
  rw [← changed component]
  exact step component known known' related

theorem arrows_alike (start : S ∅ ∅) (change : Effect → Effect → Effect × Effect) {V : Vocabulary}
    {params params' : List Effect} {result result' : Effect} {expected actual expected' actual' : Term}
    (arity : params.length = params'.length) (canonical : (Effect.arrow params result).Canonical)
    (canonical' : (Effect.arrow params' result').Canonical)
    (within : (Effect.arrow params result).Over V) (within' : (Effect.arrow params' result').Over V)
    (step : ∀ left right known known', left.Canonical → right.Canonical → left.Over V →
      right.Over V → S known known' →
      (∀ called called', known.apply left = .ok called → known.apply right = .ok called' →
        Calls Finds (.effect called, .effect called')
          (.effect (.arrow params result), .effect (.arrow params' result'))) →
      Alike S (Effect.solveUnder Effect.unify known left right)
        (Effect.solveUnder Effect.unify known' (change left right).1 (change left right).2)) :
    Alike S
      (solvePieces (Effect.solveUnder Effect.unify) expected actual ∅
        (Effect.arrowPieces params params' result result'))
      (solvePieces (Effect.solveUnder Effect.unify) expected' actual' ∅
        ((Effect.arrowPieces params params' result result').map fun piece =>
          (piece.1, change piece.2.1 piece.2.2))) := by
  have found : ∀ {e f : Effect} {σ}, e.unify f = .ok σ → Finds (.effect e) (.effect f) σ :=
    fun found => found
  apply solvePieces_alike Term.effect change (solveUnder_inTurn found) (.nil ∅) start
  intro done left right back known known' whole before related
  have split := Split.arrows result result' arity
  rw [List.nil_append, map_arrowPieces] at whole
  rw [whole] at split
  have member : (Term.effect left, Term.effect right) ∈ done ++ _ :: back :=
    List.mem_append_right _ List.mem_cons_self
  obtain ⟨written, written'⟩ := split.everySet VariableSet.canonical_member canonical canonical' _
    member
  obtain ⟨spelled, spelled'⟩ := split.within within within' _ member
  apply step left right known known' written written' spelled spelled' related
  intro called called' run run'
  exact .piece split before (applyToTerm_effect.mpr ⟨called, run, rfl⟩)
    (applyToTerm_effect.mpr ⟨called', run', rfl⟩)

end Unification

end SpecEffects
