import SpecEffects.Proofs.Unification.Kinds
import SpecEffects.Proofs.Unification.Unions

/-!
Where unification fails. The path of an error leads through parameters and results to two effects,
from footprints on to one of their components, and from there to at most one member of a union. In a
canonical union this is the last member: the names before it are bound to the set on the other side,
so that only what is concrete can be in the way. The root cause tells what stands at the end of the
path.
-/
namespace SpecEffects

namespace Position

def InArrow : Position → Prop
  | .parameter _ => True
  | .result => True
  | _ => False

theorem InArrow.cases {position : Position} (inArrow : position.InArrow) :
    position = .result ∨ ∃ index, position = .parameter index := by
  cases position with
  | parameter index => exact .inr ⟨index, rfl⟩
  | result => exact .inl rfl
  | component component => exact inArrow.elim
  | unionMember index => exact inArrow.elim

end Position

namespace UnificationError

/-- The positions from the outside in, each with the two terms that have their pieces there. -/
def frames : UnificationError → List (Position × Term × Term)
  | .nested position expected actual cause => (position, expected, actual) :: frames cause
  | _ => []

theorem path_eq_map_frames (error : UnificationError) : error.path = error.frames.map Prod.fst := by
  induction error with
  | nested position expected actual cause ih => simp [path, frames, ih]
  | _ => rfl

theorem frames_rootCause (error : UnificationError) : error.rootCause.frames = [] := by
  induction error with
  | nested position expected actual cause ih => exact ih
  | _ => rfl

end UnificationError

theorem bind_eq_error {α β ε : Type} {x : Except ε α} {f : α → Except ε β} {e : ε} :
    (x >>= f) = .error e ↔ x = .error e ∨ ∃ a, x = .ok a ∧ f a = .error e := by
  cases x with
  | error e => simp [bind, Except.bind]
  | ok a => simp [bind, Except.bind]

theorem mapError_eq_error {α ε ε' : Type} {x : Except ε α} {f : ε → ε'} {e : ε'} :
    x.mapError f = .error e ↔ ∃ cause, x = .error cause ∧ f cause = e := by
  cases x <;> simp [Except.mapError]

namespace Unification

open Substitution VariableSet

inductive SetFailure : UnificationError → Prop where
  | occurs (name : String) (value : Term) : SetFailure (.occursCheck name value)
  | mismatch (s t : VariableSet) : SetFailure (.variablesMismatch s t)
  | lastMember (flipped : Bool) (names : NameSet) {own vars : NameSet}
      (some : own.isEmpty = false) (different : own ≠ vars) :
      SetFailure (.nested (.unionMember names.size)
        (.variables (sides flipped (.union (members names own)) vars).1)
        (.variables (sides flipped (.union (members names own)) vars).2)
        (.variablesMismatch (sides flipped (.concrete own) vars).1
          (sides flipped (.concrete own) vars).2))

inductive EffectFailure : UnificationError → Prop where
  | shape (e f : Effect) : EffectFailure (.shapeMismatch e f)
  | arity (count count' : Nat) : EffectFailure (.arityMismatch count count')
  | occurs (name : String) (value : Term) : EffectFailure (.occursCheck name value)
  | clash (clash : KindClash) : EffectFailure (.kindMismatch clash)
  | component (component : Component) (expected actual : Term) {cause : UnificationError}
      (failure : SetFailure cause) :
      EffectFailure (.nested (.component component) expected actual cause)
  | piece {position : Position} (inArrow : position.InArrow) (expected actual : Term)
      {cause : UnificationError} (failure : EffectFailure cause) :
      EffectFailure (.nested position expected actual cause)

section Pieces

variable {α : Type} {under : Substitution → α → α → Except UnificationError Substitution}
  {expected actual : Term} {σ : Substitution} {pieces : List (Position × α × α)}

theorem solvePieces_eq_error {error : UnificationError}
    (failed : solvePieces under expected actual σ pieces = .error error) :
    ∃ front position left right back known cause,
      pieces = front ++ (position, left, right) :: back ∧
      solvePieces under expected actual σ front = .ok known ∧
      under known left right = .error cause ∧ error = .nested position expected actual cause := by
  induction pieces generalizing σ with
  | nil => cases failed
  | cons piece rest ih =>
    obtain ⟨position, left, right⟩ := piece
    simp only [solvePieces, bind_eq_error, mapError_eq_error, mapError_eq_ok] at failed
    rcases failed with ⟨cause, here, same⟩ | ⟨known, solved, later⟩
    · exact ⟨[], position, left, right, rest, σ, cause, rfl, rfl, here, same.symm⟩
    · obtain ⟨front, position', left', right', back, last, cause, rfl, before, here, same⟩ := ih later
      refine ⟨(position, left, right) :: front, position', left', right', back, last, cause, rfl,
        ?_, here, same⟩
      simp only [solvePieces, bind_eq_ok, mapError_eq_ok]
      exact ⟨known, solved, before⟩

theorem solvePieces_inTurn {Solved : Term → Term → Substitution → Prop} (term : α → Term)
    (found : ∀ {σ left right last}, under σ left right = .ok last →
      InTurn Solved σ [(term left, term right)] last) {last : Substitution}
    (run : solvePieces under expected actual σ pieces = .ok last) :
    InTurn Solved σ (pieces.map fun piece => (term piece.2.1, term piece.2.2)) last := by
  induction pieces generalizing σ with
  | nil =>
    cases run
    exact .nil _
  | cons piece rest ih =>
    obtain ⟨position, left, right⟩ := piece
    simp only [solvePieces, bind_eq_ok, mapError_eq_ok] at run
    obtain ⟨known, solved, later⟩ := run
    exact (found solved).append (ih later)

/-- Unification fails at a piece of the two terms. What it calls for there is canonical, because what
has been learned before is. -/
theorem exists_failing_piece (term : α → Term)
    (found : ∀ {σ left right last}, under σ left right = .ok last →
      InTurn Finds σ [(term left, term right)] last) {left right : Term} {error : UnificationError}
    (split : Split left right (pieces.map fun piece => (term piece.2.1, term piece.2.2)))
    (canonical : left.Canonical) (canonical' : right.Canonical)
    (failed : solvePieces under expected actual ∅ pieces = .error error) :
    ∃ position piece piece' σ cause, (position, piece, piece') ∈ pieces ∧
      error = .nested position expected actual cause ∧ under σ piece piece' = .error cause ∧
      ∀ called called', σ.applyToTerm (term piece) = .ok called →
        σ.applyToTerm (term piece') = .ok called' →
        Calls Finds (called, called') (left, right) ∧ called.Canonical ∧ called'.Canonical := by
  obtain ⟨front, position, piece, piece', back, σ, cause, rfl, before, here, same⟩ :=
    solvePieces_eq_error failed
  have each := split.everySet VariableSet.canonical_member canonical canonical'
  rw [List.map_append, List.map_cons] at split each
  have turns := solvePieces_inTurn term found before
  have known := ((turns.imp (Finds.solved Layer.sound)).sound everySet_empty fun pair member =>
    each pair (List.mem_append_left _ member)).1
  obtain ⟨onLeft, onRight⟩ := each _ (List.mem_append_right _ List.mem_cons_self)
  refine ⟨position, piece, piece', σ, cause, List.mem_append_right _ List.mem_cons_self, same, here,
    fun called called' applied applied' => ⟨.piece split turns applied applied', ?_, ?_⟩⟩
  · exact canonical_applyToTerm known onLeft applied
  · exact canonical_applyToTerm known onRight applied'

end Pieces

section Sets

variable {s t : VariableSet} {cause : UnificationError}

theorem bind_variables_eq_error {name : String} (failed : VariableSet.bind name s = .error cause) :
    cause = .occursCheck name (.variables s) := by
  unfold VariableSet.bind at failed
  split at failed <;> cases failed
  rfl

theorem union_failure (flipped : Bool) {sets : List VariableSet} {vars : NameSet}
    (canonical : (VariableSet.union sets).Canonical)
    (failed : (sides flipped (.union sets) vars).1.unify (sides flipped (.union sets) vars).2 =
      .error cause) : SetFailure cause := by
  obtain ⟨_, names, own, _, rfl⟩ := canonical
  rw [unify_union] at failed
  split at failed <;> cases failed
  rename_i apart
  obtain ⟨some, different⟩ := not_or.mp apart
  exact .lastMember flipped names (Bool.eq_false_iff.mpr some) different

theorem unify_variables_failure (canonical : s.Canonical) (canonical' : t.Canonical)
    (failed : s.unify t = .error cause) : SetFailure cause := by
  have layer := failed
  rw [unify_variables_eq_solveWith] at layer
  simp only [VariableSet.solveWith] at layer
  split at layer
  · cases layer
  · split at layer
    · cases bind_variables_eq_error layer
      exact .occurs _ _
    · cases bind_variables_eq_error layer
      exact .occurs _ _
    · exact union_failure false canonical failed
    · exact union_failure true canonical' failed
    · cases layer
      exact .mismatch _ _

theorem solveUnder_variables_eq_error {member : VariableSet.Solver} {σ : Substitution}
    (failed : VariableSet.solveUnder member σ s t = .error cause) :
    (∃ clash, cause = .kindMismatch clash) ∨ ∃ s' t', σ.applyToVariables s = .ok s' ∧
      σ.applyToVariables t = .ok t' ∧ member s' t' = .error cause := by
  simp only [VariableSet.solveUnder, bind_eq_error, mapError_eq_error, mapError_eq_ok] at failed
  rcases failed with ⟨clash, _, same⟩ |
    ⟨s', run, ⟨clash, _, same⟩ | ⟨t', run', solver | ⟨new, _, clash, _, same⟩⟩⟩
  · exact .inl ⟨clash, same.symm⟩
  · exact .inl ⟨clash, same.symm⟩
  · exact .inr ⟨s', t', run, run', solver⟩
  · exact .inl ⟨clash, same.symm⟩

end Sets

section Effects

open Effect

variable {e f : Effect} {cause : UnificationError}

theorem solveUnder_eq_error {further : Effect.Solver} {σ : Substitution}
    (failed : Effect.solveUnder further σ e f = .error cause) :
    (∃ clash, cause = .kindMismatch clash) ∨ ∃ e' f', σ.apply e = .ok e' ∧ σ.apply f = .ok f' ∧
      further e' f' = .error cause := by
  simp only [Effect.solveUnder, bind_eq_error, mapError_eq_error, mapError_eq_ok] at failed
  rcases failed with ⟨clash, _, same⟩ |
    ⟨e', run, ⟨clash, _, same⟩ | ⟨f', run', solver | ⟨new, _, clash, _, same⟩⟩⟩
  · exact .inl ⟨clash, same.symm⟩
  · exact .inl ⟨clash, same.symm⟩
  · exact .inr ⟨e', f', run, run', solver⟩
  · exact .inl ⟨clash, same.symm⟩

theorem bind_effect_failure {name : String} (failed : Effect.bind name e = .error cause) :
    EffectFailure cause := by
  unfold Effect.bind at failed
  split at failed <;> cases failed
  exact .occurs _ _

theorem footprint_keepsKinds {expected actual : Footprint}
    (failed : expected.unify actual = .error cause) : cause.KeepsKinds := by
  have separate : Vocabulary.Separate fun kind _ => kind = .variables := by
    intro name same
    cases same
  have sets : ∀ footprint : Footprint,
      (Effect.concrete footprint).Over fun kind _ => kind = .variables := by
    intro footprint kind name used
    obtain ⟨component, at_variables, _⟩ := Effect.uses_concrete.mp used
    exact at_variables
  have settles := unify_footprints_settles separate (sets expected) (sets actual)
  rw [failed] at settles
  exact settles

theorem footprint_failure {expected actual : Footprint}
    (canonical : (Effect.concrete expected).Canonical)
    (canonical' : (Effect.concrete actual).Canonical)
    (failed : expected.unify actual = .error cause) : EffectFailure cause := by
  have kinds := footprint_keepsKinds failed
  rw [Footprint.unify, solveInTurn_eq_solvePieces] at failed
  have split : Split (.effect (.concrete expected)) (.effect (.concrete actual))
      ((Component.all.map fun component =>
        (Position.component component, expected.get component, actual.get component)).map fun piece =>
          (.variables piece.2.1, .variables piece.2.2)) := by
    rw [List.map_map]
    exact .footprints expected actual
  obtain ⟨position, s, t, σ, inner, member, rfl, here, called⟩ := exists_failing_piece Term.variables
    (solveUnder_variables_inTurn fun found => found) split canonical canonical' failed
  obtain ⟨component, _, same⟩ := List.mem_map.mp member
  cases same
  rcases solveUnder_variables_eq_error here with ⟨clash, rfl⟩ | ⟨s', t', applied, applied', solver⟩
  · exact absurd rfl (kinds clash)
  · obtain ⟨_, onLeft, onRight⟩ := called _ _ (applyToTerm_variables.mpr ⟨s', applied, rfl⟩)
      (applyToTerm_variables.mpr ⟨t', applied', rfl⟩)
    exact .component component _ _ (unify_variables_failure onLeft onRight solver)

theorem inArrow_of_mem {params params' : List Effect} {result result' piece piece' : Effect}
    {position : Position}
    (member : (position, piece, piece') ∈ arrowPieces params params' result result') :
    position.InArrow := by
  rcases List.mem_append.mp member with front | last
  · obtain ⟨index, _, same⟩ := List.mem_mapIdx.mp front
    cases same
    trivial
  · cases List.mem_singleton.mp last
    trivial

theorem unify_failure (canonical : e.Canonical) (canonical' : f.Canonical)
    (failed : e.unify f = .error cause) : EffectFailure cause := by
  induction e, f using effects_induction generalizing cause with
  | step e f ih =>
    rw [unify_eq_solveLayer] at failed
    cases e with
    | quantified name =>
      simp only [solveLayer] at failed
      split at failed
      · cases failed
      · exact bind_effect_failure failed
    | concrete expected =>
      cases f with
      | quantified name => exact bind_effect_failure failed
      | concrete actual => exact footprint_failure canonical canonical' failed
      | arrow params' result' =>
        cases failed
        exact .shape _ _
    | arrow params result =>
      cases f with
      | quantified name => exact bind_effect_failure failed
      | concrete actual =>
        cases failed
        exact .shape _ _
      | arrow params' result' =>
        simp only [solveLayer] at failed
        split at failed
        · rename_i arity
          have split := Split.arrows result result' arity
          rw [← map_arrowPieces] at split
          obtain ⟨position, p, p', σ, inner, member, rfl, here, called⟩ :=
            exists_failing_piece Term.effect (solveUnder_inTurn fun found => found) split canonical
              canonical' failed
          apply EffectFailure.piece (inArrow_of_mem member)
          rcases solveUnder_eq_error here with ⟨clash, rfl⟩ | ⟨e', f', applied, applied', solver⟩
          · exact .clash clash
          · obtain ⟨call, onLeft, onRight⟩ := called _ _ (applyToTerm_effect.mpr ⟨e', applied, rfl⟩)
              (applyToTerm_effect.mpr ⟨f', applied', rfl⟩)
            exact ih e' f' call onLeft onRight solver
        · cases failed
          exact .arity _ _

end Effects

section Located

variable {error : UnificationError}

theorem EffectFailure.exists_frames (failure : EffectFailure error) :
    ∃ outer : List (Position × Term × Term), (∀ frame ∈ outer, frame.1.InArrow) ∧
      ((error.frames = outer ∧ ∀ s t, error.rootCause ≠ .variablesMismatch s t) ∨
      ∃ component expected actual cause, SetFailure cause ∧
        error.frames = outer ++ (.component component, expected, actual) :: cause.frames ∧
        error.rootCause = cause.rootCause) := by
  induction failure with
  | component component expected actual failure =>
    exact ⟨[], List.forall_mem_nil _, .inr ⟨component, expected, actual, _, failure, rfl, rfl⟩⟩
  | piece inArrow expected actual failure ih =>
    obtain ⟨outer, each, inner⟩ := ih
    refine ⟨(_, expected, actual) :: outer, List.forall_mem_cons.mpr ⟨inArrow, each⟩, ?_⟩
    rcases inner with ⟨same, other⟩ | ⟨component, left, right, cause, set, same, root⟩
    · exact .inl ⟨congrArg _ same, other⟩
    · exact .inr ⟨component, left, right, cause, set, congrArg _ same, root⟩
  | _ => exact ⟨[], List.forall_mem_nil _, .inl ⟨rfl, fun s t => UnificationError.noConfusion⟩⟩

theorem SetFailure.place (failure : SetFailure error) :
    ((error.frames = [] ∨ ∃ k expected actual, error.frames = [(.unionMember k, expected, actual)]) ∧
      (∀ e f, error.rootCause ≠ .shapeMismatch e f) ∧
      ∀ count count', error.rootCause ≠ .arityMismatch count count') ∧
    ∀ k expected actual, error.frames = [(.unionMember k, expected, actual)] →
      ∃ flipped sets own vars, own ≠ vars ∧ sets.length = k + 1 ∧
        sets.getLast? = some (.concrete own) ∧
        expected = .variables (sides flipped (.union sets) vars).1 ∧
        actual = .variables (sides flipped (.union sets) vars).2 ∧
        error.rootCause = .variablesMismatch (sides flipped (.concrete own) vars).1
          (sides flipped (.concrete own) vars).2 := by
  cases failure with
  | lastMember flipped names some different =>
    refine ⟨⟨.inr ⟨_, _, _, rfl⟩, fun _ _ => UnificationError.noConfusion,
      fun _ _ => UnificationError.noConfusion⟩, fun k expected actual same => ?_⟩
    cases same
    refine ⟨flipped, members names _, _, _, different, ?_, ?_, rfl, rfl, rfl⟩
    · rw [length_members, some]
      rfl
    · simp [members, some]
  | _ =>
    exact ⟨⟨.inl rfl, fun _ _ => UnificationError.noConfusion,
      fun _ _ => UnificationError.noConfusion⟩, fun k expected actual same =>
      absurd same.symm (List.cons_ne_nil _ _)⟩

end Located

end Unification

open Unification VariableSet

/-- Between canonical effects the path of a failure is a way through arrows, then possibly a
component and, only there, a member of a union. Shapes and arities differ outside of components and
sets inside of them. Of a union only the last member is in the way: it is concrete, and different
from the concrete set on the other side. Kinds clash only for a name that is used at both. -/
theorem unification_failures_are_located {A B : Effect} {error : UnificationError}
    (canonical : A.Canonical) (canonical' : B.Canonical) (failed : A.unify B = .error error) :
    (∃ outer inner : List Position, error.path = outer ++ inner ∧
      (∀ position ∈ outer, position = .result ∨ ∃ index, position = .parameter index) ∧
      (inner = [] ∨ ∃ component, inner = [.component component] ∨
        ∃ k, inner = [.component component, .unionMember k])) ∧
    (∀ position expected actual cause, error.rootCause ≠ .nested position expected actual cause) ∧
    (∀ e f, error.rootCause = .shapeMismatch e f → ∀ component, .component component ∉ error.path) ∧
    (∀ count count', error.rootCause = .arityMismatch count count' →
      ∀ component, .component component ∉ error.path) ∧
    (∀ s t, error.rootCause = .variablesMismatch s t →
      ∃ component, .component component ∈ error.path) ∧
    (∀ k, error.path.getLast? = some (.unionMember k) →
      ∃ flipped sets own vars, own ≠ vars ∧ sets.length = k + 1 ∧
        sets.getLast? = some (.concrete own) ∧
        error.frames.getLast? = some (.unionMember k,
          .variables (sides flipped (.union sets) vars).1,
          .variables (sides flipped (.union sets) vars).2) ∧
        error.rootCause = .variablesMismatch (sides flipped (.concrete own) vars).1
          (sides flipped (.concrete own) vars).2) ∧
    ((Vocabulary.usedIn [A, B]).Separate → ∀ clash, error.rootCause ≠ .kindMismatch clash) := by
  obtain ⟨outer, arrows, inner⟩ := (unify_failure canonical canonical' failed).exists_frames
  have outside : ∀ {position}, position ∈ outer.map Prod.fst → position.InArrow := by
    intro position member
    obtain ⟨frame, present, rfl⟩ := List.mem_map.mp member
    exact arrows frame present
  have kinds : (Vocabulary.usedIn [A, B]).Separate → error.KeepsKinds := fun separate =>
    Effect.unify_keepsKinds separate (fun _ _ used => ⟨A, List.mem_cons_self, used⟩)
      (fun _ _ used => ⟨B, List.mem_cons_of_mem _ List.mem_cons_self, used⟩) failed
  have root : ∀ position expected actual cause,
      error.rootCause ≠ .nested position expected actual cause := by
    intro position expected actual cause same
    have none := error.frames_rootCause
    rw [same] at none
    cases none
  rw [error.path_eq_map_frames]
  rcases inner with ⟨same, other⟩ | ⟨component, expected, actual, cause, failure, same, cause_eq⟩
  · rw [same]
    have plain : ∀ component, .component component ∉ outer.map Prod.fst :=
      fun component member => outside member
    refine ⟨⟨outer.map Prod.fst, [], (List.append_nil _).symm, fun position member =>
      (outside member).cases, .inl rfl⟩, root, fun _ _ _ => plain, fun _ _ _ => plain,
      fun s t mismatch => absurd mismatch (other s t), fun k last => ?_, kinds⟩
    exact (outside (List.mem_of_getLast? last)).elim
  · obtain ⟨⟨place, shape, arity⟩, union⟩ := failure.place
    rw [same, List.map_append, List.map_cons]
    refine ⟨⟨outer.map Prod.fst, _, rfl, fun position member => (outside member).cases,
      .inr ⟨component, ?_⟩⟩, root, fun e f mismatch => ?_, fun count count' mismatch => ?_,
      fun s t _ => ⟨component, List.mem_append_right _ List.mem_cons_self⟩, fun k last => ?_, kinds⟩
    · rcases place with none | ⟨k, left, right, only⟩
      · exact .inl (by rw [none]; rfl)
      · exact .inr ⟨k, by rw [only]; rfl⟩
    · exact absurd (cause_eq.symm.trans mismatch) (shape e f)
    · exact absurd (cause_eq.symm.trans mismatch) (arity count count')
    · rcases place with none | ⟨index, left, right, only⟩
      · simp [none] at last
      · obtain rfl : index = k := by simpa [only] using last
        obtain ⟨flipped, sets, own, vars, different, long, final, rfl, rfl, mismatch⟩ :=
          union index left right only
        refine ⟨flipped, sets, own, vars, different, long, final, ?_, cause_eq.trans mismatch⟩
        simp [only]

/-- The first parameter makes `v` the set of `x`. So the union below becomes one of `w` and `y`,
which is compared with this set member by member. -/
theorem failure_at_last_member :
    let x : VariableSet := .concrete (.singleton "x")
    let y : VariableSet := .concrete (.singleton "y")
    let union : VariableSet := .union [.quantified "w", y]
    let reads := fun set : VariableSet => Effect.concrete ⟨set, .empty, .empty⟩
    let inner : Effect := .arrow [reads (.quantified "v")] (.quantified "e")
    let A : Effect := .arrow [reads (.quantified "v"), inner] (.quantified "e")
    let B : Effect := .arrow [reads x, .arrow [reads union] (.quantified "f")] (.quantified "f")
    let error : UnificationError :=
      .nested (.parameter 1) (.effect A) (.effect B)
        (.nested (.parameter 0) (.effect (.arrow [reads x] (.quantified "e")))
          (.effect (.arrow [reads union] (.quantified "f")))
          (.nested (.component .read) (.effect (reads x)) (.effect (reads union))
            (.nested (.unionMember 1) (.variables x) (.variables union) (.variablesMismatch x y))))
    A.Canonical ∧ B.Canonical ∧ A.unify B = .error error ∧
      error.path = [.parameter 1, .parameter 0, .component .read, .unionMember 1] ∧
      (∃ flipped sets own vars, own ≠ vars ∧ sets.length = 2 ∧
        sets.getLast? = some (.concrete own) ∧
        error.frames.getLast? = some (.unionMember 1,
          .variables (sides flipped (.union sets) vars).1,
          .variables (sides flipped (.union sets) vars).2) ∧
        error.rootCause = .variablesMismatch (sides flipped (.concrete own) vars).1
          (sides flipped (.concrete own) vars).2) ∧
      ∀ clash, error.rootCause ≠ .kindMismatch clash := by
  intro x y union reads inner A B error
  have canonical : A.Canonical := by decide
  have canonical' : B.Canonical := by decide
  have failed : A.unify B = .error error := by decide
  obtain ⟨_, _, _, _, _, member, kinds⟩ :=
    unification_failures_are_located canonical canonical' failed
  exact ⟨canonical, canonical', failed, rfl, member 1 rfl, kinds (by decide)⟩

end SpecEffects
