import SpecEffects.Proofs.Unification.Elimination

/-!
Why unification ends. It calls itself for a piece of the two sides, after what has been learned from
the pieces before. While nothing has been learned the piece is smaller than the whole; afterwards it
has fewer names. A set that is called for is canonical, and one that is called for from there is no
union. Calls are therefore well-founded. So one equation determines unification, and the number of
names that the solver counts down never runs out.
-/
namespace SpecEffects

namespace Unification

def Finds : Term → Term → Substitution → Prop
  | .effect e, .effect f, σ => e.unify f = .ok σ
  | .variables s, .variables t, σ => s.unify t = .ok σ
  | _, _, _ => False

/-- To solve for the second pair, the first one is solved for: it is a piece, with what has been
learned from the pieces before it applied. -/
inductive Calls (Solved : Term → Term → Substitution → Prop) :
    Term × Term → Term × Term → Prop where
  | piece {left right piece piece' called called' : Term} {front back : List (Term × Term)}
      {σ : Substitution} (split : Split left right (front ++ (piece, piece') :: back))
      (before : InTurn Solved ∅ front σ) (applied : σ.applyToTerm piece = .ok called)
      (applied' : σ.applyToTerm piece' = .ok called') : Calls Solved (called, called') (left, right)

def solvePieces {α : Type} (under : Substitution → α → α → Except UnificationError Substitution)
    (expected actual : Term) :
    Substitution → List (Position × α × α) → Except UnificationError Substitution
  | σ, [] => .ok σ
  | σ, (position, left, right) :: rest => do
    let σ ← (under σ left right).mapError (.nested position expected actual)
    solvePieces under expected actual σ rest

end Unification

namespace Effect

open Unification

def arrowPieces (params params' : List Effect) (result result' : Effect) :
    List (Position × Effect × Effect) :=
  (params.zip params').mapIdx (fun index pair => (.parameter index, pair.1, pair.2)) ++
    [(.result, result, result')]

def solveLayer (solve : Solver) : Solver
  | .quantified name, other => if other = .quantified name then .ok ∅ else bind name other
  | other, .quantified name => bind name other
  | .concrete expected, .concrete actual => expected.unify actual
  | .arrow params result, .arrow params' result' =>
    if params.length = params'.length then
      solvePieces (solveUnder solve) (.effect (.arrow params result))
        (.effect (.arrow params' result')) ∅ (arrowPieces params params' result result')
    else .error (.arityMismatch params.length params'.length)
  | expected, actual => .error (.shapeMismatch expected actual)

end Effect

namespace Unification

open Substitution

variable {Solved : Term → Term → Substitution → Prop}

section Pieces

variable {α : Type} {under under' : Substitution → α → α → Except UnificationError Substitution}
  {expected actual : Term}

theorem solvePieces_append (σ : Substitution) (front back : List (Position × α × α)) :
    solvePieces under expected actual σ (front ++ back) =
      solvePieces under expected actual σ front >>= fun known =>
        solvePieces under expected actual known back := by
  induction front generalizing σ with
  | nil => rfl
  | cons piece rest ih =>
    obtain ⟨position, left, right⟩ := piece
    simp only [List.cons_append, solvePieces]
    cases under σ left right with
    | error cause => rfl
    | ok known => exact ih known

theorem solvePieces_single (σ : Substitution) (position : Position) (left right : α) :
    solvePieces under expected actual σ [(position, left, right)] =
      (under σ left right).mapError (.nested position expected actual) := by
  simp only [solvePieces]
  cases under σ left right <;> rfl

theorem solvePieces_congr (term : α → Term)
    (found : ∀ {σ left right last}, under' σ left right = .ok last →
      InTurn Solved σ [(term left, term right)] last)
    {front : List (Term × Term)} {σ : Substitution} (before : InTurn Solved ∅ front σ)
    {pieces : List (Position × α × α)}
    (agree : ∀ done left right back known,
      front ++ pieces.map (fun piece => (term piece.2.1, term piece.2.2)) =
        done ++ (term left, term right) :: back →
      InTurn Solved ∅ done known → under known left right = under' known left right) :
    solvePieces under expected actual σ pieces = solvePieces under' expected actual σ pieces := by
  induction pieces generalizing front σ with
  | nil => rfl
  | cons piece rest ih =>
    obtain ⟨position, left, right⟩ := piece
    simp only [solvePieces, agree front left right _ σ rfl before]
    cases run : under' σ left right with
    | error cause => rfl
    | ok known =>
      apply ih (before.append (found run))
      intro done left' right' back known' same
      apply agree done left' right' back known'
      rw [← same, List.append_assoc]
      rfl

end Pieces

section Sets

open VariableSet

variable {member member' : VariableSet.Solver}

theorem solveInTurn_eq_solvePieces (expected actual : Term) (σ : Substitution)
    (pieces : List (Position × VariableSet × VariableSet)) :
    solveInTurn member expected actual σ pieces =
      solvePieces (VariableSet.solveUnder member) expected actual σ pieces := by
  induction pieces generalizing σ with
  | nil => rfl
  | cons piece rest ih =>
    obtain ⟨position, left, right⟩ := piece
    simp only [solveInTurn, solvePieces, ih]

theorem solveUnder_variables_congr {σ : Substitution} {s t : VariableSet}
    (agree : ∀ s' t', σ.applyToVariables s = .ok s' → σ.applyToVariables t = .ok t' →
      member s' t' = member' s' t') :
    VariableSet.solveUnder member σ s t = VariableSet.solveUnder member' σ s t := by
  unfold VariableSet.solveUnder
  cases applied : σ.applyToVariables s with
  | error clash => rfl
  | ok s' =>
    cases applied' : σ.applyToVariables t with
    | error clash => rfl
    | ok t' =>
      have same := agree s' t' applied applied'
      simp only [Except.mapError, Bind.bind, Except.bind, same]

variable (found : ∀ {s t σ}, member' s t = .ok σ → Solved (.variables s) (.variables t) σ)

include found in
theorem solveInTurn_congr {s t : VariableSet} {pieces : List (Position × VariableSet × VariableSet)}
    (split : Split (.variables s) (.variables t)
      (pieces.map fun piece => (.variables piece.2.1, .variables piece.2.2)))
    (agree : ∀ s' t', Calls Solved (.variables s', .variables t') (.variables s, .variables t) →
      member s' t' = member' s' t') :
    solveInTurn member (.variables s) (.variables t) ∅ pieces =
      solveInTurn member' (.variables s) (.variables t) ∅ pieces := by
  rw [solveInTurn_eq_solvePieces, solveInTurn_eq_solvePieces]
  apply solvePieces_congr Term.variables _ (.nil ∅)
  · intro done left right back known same before
    apply solveUnder_variables_congr
    intro s' t' applied applied'
    rw [List.nil_append] at same
    rw [same] at split
    exact agree s' t' (.piece split before (applyToTerm_variables.mpr ⟨s', applied, rfl⟩)
      (applyToTerm_variables.mpr ⟨t', applied', rfl⟩))
  · exact solveUnder_variables_inTurn found

include found in
theorem solveWith_variables_congr {s t : VariableSet}
    (agree : ∀ s' t', Calls Solved (.variables s', .variables t') (.variables s, .variables t) →
      member s' t' = member' s' t') :
    VariableSet.solveWith member s t = VariableSet.solveWith member' s t := by
  simp only [VariableSet.solveWith]
  split
  · rfl
  · split
    · rfl
    · rfl
    · apply solveInTurn_congr found _ agree
      rw [map_mapIdx _ _ _ fun _ _ => rfl]
      exact .unionLeft _ _
    · apply solveInTurn_congr found _ agree
      rw [map_mapIdx _ _ _ fun _ _ => rfl]
      exact .unionRight _ _
    · rfl

def Pins (left right : Term) (σ : Substitution) : Prop :=
  ∀ vars : NameSet, left = .variables (.concrete vars) ∨ right = .variables (.concrete vars) →
    ∀ binding ∈ σ.bindings, binding.value = .variables (.concrete vars)

theorem InTurn.pins (vars : NameSet) {pieces : List (Term × Term)} {σ last : Substitution}
    (run : InTurn Pins σ pieces last)
    (each : ∀ piece ∈ pieces, piece.1 = .variables (.concrete vars) ∨
      piece.2 = .variables (.concrete vars))
    (known : ∀ binding ∈ σ.bindings, binding.value = .variables (.concrete vars)) :
    ∀ binding ∈ last.bindings, binding.value = .variables (.concrete vars) := by
  induction run with
  | nil σ => exact known
  | cons applied applied' solved added _ ih =>
    refine ih (fun piece member => each piece (List.mem_cons_of_mem _ member)) ?_
    have learned := solved vars <| by
      rcases each _ List.mem_cons_self with same | same <;> cases same
      · exact Or.inl (Except.ok.inj applied).symm
      · exact Or.inr (Except.ok.inj applied').symm
    intro binding member
    rcases mem_compose added member with ⟨old, before, _, value⟩ | ⟨present, _⟩
    · rw [known old before] at value
      exact (Except.ok.inj value).symm
    · exact learned binding present

theorem Layer.pins {left right : Term} {σ : Substitution} (layer : Layer Pins left right σ) :
    Pins left right σ := by
  intro vars side
  cases layer with
  | same term => exact fun _ member => absurd member List.not_mem_nil
  | bindLeft name _ unused =>
    intro binding member
    cases List.mem_singleton.mp member
    rcases side with same | same
    · cases right <;> cases same
    · exact same
  | bindRight name _ unused =>
    intro binding member
    cases List.mem_singleton.mp member
    rcases side with same | same
    · exact same
    · cases left <;> cases same
  | pieces split run =>
    refine run.pins vars ?_ fun _ member => absurd member List.not_mem_nil
    cases split with
    | footprints expected actual => rcases side with same | same <;> cases same
    | arrows result result' arity => rcases side with same | same <;> cases same
    | unionLeft sets vars' =>
      intro piece member
      obtain ⟨set, _, rfl⟩ := List.mem_map.mp member
      rcases side with same | same
      · cases same
      · exact Or.inr same
    | unionRight vars' sets =>
      intro piece member
      obtain ⟨set, _, rfl⟩ := List.mem_map.mp member
      rcases side with same | same
      · exact Or.inl same
      · cases same

theorem called_member {vars : NameSet} {σ : Substitution} {set : VariableSet} {called : Term}
    (known : ∀ binding ∈ σ.bindings, binding.value = .variables (.concrete vars))
    (applied : σ.applyToTerm (.variables set) = .ok called) :
    ∃ s, called = .variables s ∧ s.Canonical ∧ (set.UnionFree → s.UnionFree) := by
  obtain ⟨s, run, rfl⟩ := applyToTerm_variables.mp applied
  have values : σ.EverySet VariableSet.UnionFree := by
    intro binding member
    rw [known binding member]
    trivial
  refine ⟨s, rfl, ?_, fun free => unionFree_applyToVariables values free run⟩
  exact canonical_applyToVariables (fun binding member =>
    by rw [known binding member]; trivial) run

variable (pins : ∀ {left right σ}, Solved left right σ → Pins left right σ)

include pins in
/-- Only a union makes calls. They are for canonical sets, and from a canonical union for sets that
are no unions. -/
theorem Calls.of_variables {s t : VariableSet} {called called' : Term}
    (call : Calls Solved (called, called') (.variables s, .variables t)) :
    ∃ s' t', called = .variables s' ∧ called' = .variables t' ∧
      (s'.Canonical ∧ t'.Canonical) ∧
      (s.Canonical → t.Canonical → s'.UnionFree ∧ t'.UnionFree) ∧
      ¬ (s.UnionFree ∧ t.UnionFree) := by
  cases call with
  | @piece _ _ piece piece' _ _ front back σ split before applied applied' =>
    generalize whole : front ++ (piece, piece') :: back = pieces at split
    have here : (piece, piece') ∈ pieces := by simp [← whole]
    have earlier : ∀ pair ∈ front, pair ∈ pieces := fun pair member => by simp [← whole, member]
    cases split with
    | unionLeft sets vars =>
      have known := (before.imp pins).pins vars ?_ fun _ member => absurd member List.not_mem_nil
      · obtain ⟨set, present, same⟩ := List.mem_map.mp here
        cases same
        obtain ⟨s', rfl, canonical, free⟩ := called_member known applied
        cases applied'
        exact ⟨s', _, rfl, rfl, ⟨canonical, trivial⟩, fun written _ =>
          ⟨free (VariableSet.unionFree_member written present), trivial⟩, fun both => both.1⟩
      · intro pair member
        obtain ⟨set, _, rfl⟩ := List.mem_map.mp (earlier pair member)
        exact Or.inr rfl
    | unionRight vars sets =>
      have known := (before.imp pins).pins vars ?_ fun _ member => absurd member List.not_mem_nil
      · obtain ⟨set, present, same⟩ := List.mem_map.mp here
        cases same
        obtain ⟨t', rfl, canonical, free⟩ := called_member known applied'
        cases applied
        exact ⟨_, t', rfl, rfl, ⟨trivial, canonical⟩, fun _ written =>
          ⟨trivial, free (VariableSet.unionFree_member written present)⟩, fun both => both.2⟩
      · intro pair member
        obtain ⟨set, _, rfl⟩ := List.mem_map.mp (earlier pair member)
        exact Or.inl rfl

include pins in
theorem acc_variables (s t : VariableSet) : Acc (Calls Solved) (.variables s, .variables t) := by
  have free : ∀ {s t : VariableSet}, s.UnionFree → t.UnionFree →
      Acc (Calls Solved) (.variables s, .variables t) := by
    intro s t onLeft onRight
    refine .intro _ fun pair call => ?_
    obtain ⟨_, _, _, _, _, _, union⟩ := Calls.of_variables pins call
    exact absurd ⟨onLeft, onRight⟩ union
  have canonical : ∀ {s t : VariableSet}, s.Canonical → t.Canonical →
      Acc (Calls Solved) (.variables s, .variables t) := by
    intro s t onLeft onRight
    refine .intro _ fun pair call => ?_
    obtain ⟨called, called'⟩ := pair
    obtain ⟨s', t', rfl, rfl, _, member, _⟩ := Calls.of_variables pins call
    exact free (member onLeft onRight).1 (member onLeft onRight).2
  refine .intro _ fun pair call => ?_
  obtain ⟨called, called'⟩ := pair
  obtain ⟨s', t', rfl, rfl, written, _, _⟩ := Calls.of_variables pins call
  exact canonical written.1 written.2

/-- Three layers are enough: what a fourth one calls for is never looked at. -/
theorem unify_variables_eq_solveWith (s t : VariableSet) :
    s.unify t = VariableSet.solveWith VariableSet.unify s t := by
  have layer : ∀ {solver : VariableSet.Solver},
      (∀ {s t σ}, solver s t = .ok σ → Pins (.variables s) (.variables t) σ) →
      ∀ {s t σ}, VariableSet.solveWith solver s t = .ok σ → Pins (.variables s) (.variables t) σ :=
    fun members _ _ _ run => (solveWith_variables_layer members run).pins
  have none : ∀ {s t σ}, (fun expected actual =>
      Except.error (UnificationError.variablesMismatch expected actual)) s t = .ok σ →
      Pins (.variables s) (.variables t) σ := fun failed => absurd failed (by simp)
  unfold VariableSet.unify
  apply solveWith_variables_congr (layer (layer (layer none)))
  intro s t call
  obtain ⟨_, _, same, same', written, _, _⟩ := Calls.of_variables id call
  cases same
  cases same'
  apply solveWith_variables_congr (layer (layer none))
  intro s t call
  obtain ⟨_, _, same, same', _, member, _⟩ := Calls.of_variables id call
  cases same
  cases same'
  have free := member written.1 written.2
  apply solveWith_variables_congr (layer none)
  intro s t call
  obtain ⟨_, _, _, _, _, _, union⟩ := Calls.of_variables id call
  exact absurd free union

end Sets

theorem Finds.solved (layers : ∀ {left right σ}, Layer Solved left right σ → Solved left right σ)
    {left right : Term} {σ : Substitution} (found : Finds left right σ) : Solved left right σ := by
  cases left <;> cases right
  · exact solve_solved layers found
  · exact found.elim
  · exact found.elim
  · exact unify_variables_solved layers found

section Effects

open Effect

variable {e f e' f' : Effect}

theorem Split.smaller {pieces : List (Term × Term)} (split : Split (.effect e) (.effect f) pieces)
    (member : (.effect e', .effect f') ∈ pieces) : sizeOf e' + sizeOf f' < sizeOf e + sizeOf f := by
  cases split with
  | footprints expected actual =>
    obtain ⟨component, _, same⟩ := List.mem_map.mp member
    cases same
  | arrows result result' arity =>
    rw [Effect.arrow.sizeOf_spec, Effect.arrow.sizeOf_spec]
    rcases List.mem_append.mp member with front | last
    · obtain ⟨pair, paired, same⟩ := List.mem_map.mp front
      cases same
      have onLeft := List.sizeOf_lt_of_mem (List.of_mem_zip paired).1
      have onRight := List.sizeOf_lt_of_mem (List.of_mem_zip paired).2
      omega
    · cases List.mem_singleton.mp last
      omega

theorem Split.within_names {pieces : List (Term × Term)}
    (split : Split (.effect e) (.effect f) pieces) :
    ∀ piece ∈ pieces, piece.1.Over (fun _ name => name ∈ e.names.union f.names) ∧
      piece.2.Over fun _ name => name ∈ e.names.union f.names :=
  split.within (fun kind _ used => SortedSet.mem_union.mpr (.inl (mem_names.mpr ⟨kind, used⟩)))
    fun kind _ used => SortedSet.mem_union.mpr (.inr (mem_names.mpr ⟨kind, used⟩))

theorem Split.names_le {pieces : List (Term × Term)} (split : Split (.effect e) (.effect f) pieces)
    (member : (.effect e', .effect f') ∈ pieces) :
    (e'.names.union f'.names).size ≤ (e.names.union f.names).size := by
  obtain ⟨onLeft, onRight⟩ := split.within_names _ member
  apply SortedSet.size_le_of_inside
  intro name still
  rcases SortedSet.mem_union.mp still with here | here <;> obtain ⟨kind, used⟩ := mem_names.mp here
  · exact onLeft kind name used
  · exact onRight kind name used

theorem fewer_names_of_learned {piece piece' : Effect} {front back : List (Term × Term)}
    {σ : Substitution}
    (split : Split (.effect e) (.effect f) (front ++ (.effect piece, .effect piece') :: back))
    (before : InTurn Finds ∅ front σ) (some : σ.isEmpty = false)
    (run : σ.apply piece = .ok e') (run' : σ.apply piece' = .ok f') :
    (e'.names.union f'.names).size < (e.names.union f.names).size := by
  have eliminates : σ.Eliminates := (before.imp (Finds.solved Layer.outcome)).outcome.1
    fun _ member => absurd member List.not_mem_nil
  have bounded := (before.imp (Finds.solved Layer.isLocal)).within over_empty
    fun pair member => split.within_names pair (List.mem_append_left _ member)
  obtain ⟨onLeft, onRight⟩ :=
    split.within_names _ (List.mem_append_right _ List.mem_cons_self)
  exact eliminates.fewer_names some bounded onLeft onRight run run'

theorem of_applyToTerm_effect {σ : Substitution} {piece : Term} {effect : Effect}
    (applied : σ.applyToTerm piece = .ok (.effect effect)) :
    ∃ before, piece = .effect before ∧ σ.apply before = .ok effect := by
  cases piece
  · obtain ⟨_, run, same⟩ := applyToTerm_effect.mp applied
    cases same
    exact ⟨_, rfl, run⟩
  · obtain ⟨_, _, same⟩ := applyToTerm_variables.mp applied
    cases same

/-- A call is for a piece as it stands, which is smaller, or it leaves fewer names. -/
theorem Calls.of_effects (call : Calls Finds (.effect e', .effect f') (.effect e, .effect f)) :
    (∃ pieces, Split (.effect e) (.effect f) pieces ∧ (.effect e', .effect f') ∈ pieces ∧
      sizeOf e' + sizeOf f' < sizeOf e + sizeOf f) ∨
    (e'.names.union f'.names).size < (e.names.union f.names).size := by
  cases call with
  | @piece _ _ piece piece' _ _ front back σ split before applied applied' =>
    obtain ⟨p, rfl, run⟩ := of_applyToTerm_effect applied
    obtain ⟨p', rfl, run'⟩ := of_applyToTerm_effect applied'
    by_cases none : σ.isEmpty = true
    · cases isEmpty_iff.mp none
      cases run
      cases run'
      have member : (Term.effect e', Term.effect f') ∈ front ++ (.effect e', .effect f') :: back :=
        List.mem_append_right front List.mem_cons_self
      exact Or.inl ⟨_, split, member, split.smaller member⟩
    · exact Or.inr (fewer_names_of_learned split before (by simpa using none) run run')

theorem Split.kind_eq {left right : Term} {pieces : List (Term × Term)}
    (split : Split left right pieces) : left.kind = right.kind := by
  cases split <;> rfl

theorem acc_of_kinds {left right : Term} (different : left.kind ≠ right.kind) :
    Acc (Calls Solved) (left, right) := by
  refine .intro _ fun pair call => ?_
  cases call with
  | piece split => exact absurd split.kind_eq different

theorem acc_effects (e f : Effect) : Acc (Calls Finds) (.effect e, .effect f) := by
  refine .intro _ fun pair call => ?_
  obtain ⟨left, right⟩ := pair
  cases left <;> cases right
  · rename_i e' f'
    have less : Prod.Lex (· < ·) (· < ·) ((e'.names.union f'.names).size, sizeOf e' + sizeOf f')
        ((e.names.union f.names).size, sizeOf e + sizeOf f) := by
      rw [Prod.lex_def]
      rcases call.of_effects with ⟨pieces, split, member, smaller⟩ | fewer
      · have names := split.names_le member
        omega
      · exact Or.inl fewer
    exact acc_effects e' f'
  · exact acc_of_kinds Kind.noConfusion
  · exact acc_of_kinds Kind.noConfusion
  · exact acc_variables (Finds.solved Layer.pins) _ _
termination_by ((e.names.union f.names).size, sizeOf e + sizeOf f)
decreasing_by exact less

theorem calls_wellFounded : WellFounded (Calls Finds) := by
  refine ⟨fun pair => ?_⟩
  obtain ⟨left, right⟩ := pair
  cases left <;> cases right
  · exact acc_effects _ _
  · exact acc_of_kinds Kind.noConfusion
  · exact acc_of_kinds Kind.noConfusion
  · exact acc_variables (Finds.solved Layer.pins) _ _

theorem effects_induction {P : Effect → Effect → Prop}
    (step : ∀ e f, (∀ e' f', Calls Finds (.effect e', .effect f') (.effect e, .effect f) →
      P e' f') → P e f) (e f : Effect) : P e f := by
  have accessible := acc_effects e f
  generalize same : (Term.effect e, Term.effect f) = pair at accessible
  induction accessible generalizing e f with
  | intro pair _ ih =>
    subst same
    exact step e f fun e' f' call => ih _ call e' f' rfl

theorem variables_induction {P : VariableSet → VariableSet → Prop}
    (step : ∀ s t, (∀ s' t',
      Calls Finds (.variables s', .variables t') (.variables s, .variables t) → P s' t') → P s t)
    (s t : VariableSet) : P s t := by
  have accessible := acc_variables (Finds.solved Layer.pins) s t
  generalize same : (Term.variables s, Term.variables t) = pair at accessible
  induction accessible generalizing s t with
  | intro pair _ ih =>
    subst same
    exact step s t fun s' t' call => ih _ call s' t' rfl

variable {solve solve' further : Effect.Solver}

theorem solveUnder_effect_congr {σ : Substitution}
    (agree : ∀ e' f', σ.apply e = .ok e' → σ.apply f = .ok f' → solve e' f' = solve' e' f') :
    Effect.solveUnder solve σ e f = Effect.solveUnder solve' σ e f := by
  unfold Effect.solveUnder
  cases applied : σ.apply e with
  | error clash => rfl
  | ok e' =>
    cases applied' : σ.apply f with
    | error clash => rfl
    | ok f' =>
      have same := agree e' f' applied applied'
      simp only [Except.mapError, Bind.bind, Except.bind, same]

theorem solveUnder_empty (e f : Effect) : Effect.solveUnder solve ∅ e f = solve e f := by
  change (solve e f >>= fun new => (new.compose ∅).mapError .kindMismatch) = solve e f
  cases solve e f with
  | error cause => rfl
  | ok new =>
    change (new.compose ∅).mapError .kindMismatch = .ok new
    rw [compose_empty_right]
    rfl

theorem map_arrowPieces (params params' : List Effect) (result result' : Effect) :
    (arrowPieces params params' result result').map
        (fun piece => (Term.effect piece.2.1, Term.effect piece.2.2)) =
      (params.zip params').map (fun pair => (.effect pair.1, .effect pair.2)) ++
        [(.effect result, .effect result')] := by
  rw [arrowPieces, List.map_append, map_mapIdx _ _ _ fun _ _ => rfl]
  rfl

theorem solve_arrowPieces_congr
    {under : Substitution → Effect → Effect → Except UnificationError Substitution}
    {params params' : List Effect} {result result' : Effect}
    (arity : params.length = params'.length)
    (agree : ∀ {front back p p' σ}, Split (.effect (.arrow params result))
        (.effect (.arrow params' result')) (front ++ (.effect p, .effect p') :: back) →
      InTurn Finds ∅ front σ → under σ p p' = Effect.solveUnder Effect.unify σ p p')
    (expected actual : Term) :
    solvePieces under expected actual ∅ (arrowPieces params params' result result') =
      solvePieces (Effect.solveUnder Effect.unify) expected actual ∅
        (arrowPieces params params' result result') := by
  have found : ∀ {σ p p' last}, Effect.solveUnder Effect.unify σ p p' = .ok last →
      InTurn Finds σ [(.effect p, .effect p')] last := solveUnder_inTurn fun found => found
  apply solvePieces_congr Term.effect found (.nil ∅)
  intro front p p' back σ whole before
  rw [List.nil_append, map_arrowPieces] at whole
  have split := Split.arrows result result' arity
  rw [whole] at split
  exact agree split before

theorem solveLayer_congr
    (agree : ∀ e' f', Calls Finds (.effect e', .effect f') (.effect e, .effect f) →
      solve e' f' = e'.unify f') : solveLayer solve e f = solveLayer Effect.unify e f := by
  cases e <;> cases f <;> try rfl
  simp only [solveLayer]
  split
  · rename_i arity
    apply solve_arrowPieces_congr arity
    intro front back p p' σ split before
    apply solveUnder_effect_congr
    intro e' f' applied applied'
    exact agree e' f' (.piece split before (applyToTerm_effect.mpr ⟨e', applied, rfl⟩)
      (applyToTerm_effect.mpr ⟨f', applied', rfl⟩))
  · rfl

def solvePiece (further : Effect.Solver) (σ : Substitution) (expected actual : Effect) :
    Except UnificationError Substitution :=
  if σ.isEmpty then solveWith further expected actual
  else Effect.solveUnder further σ expected actual

theorem solveParams_eq_solvePieces (expected actual : Term) (index : Nat) (σ : Substitution)
    (params params' : List Effect) :
    solveParams further (fun position => .nested position expected actual) index σ params params' =
      solvePieces (solvePiece further) expected actual σ
        ((params.zip params').mapIdx fun i pair => (.parameter (index + i), pair.1, pair.2)) := by
  induction params generalizing params' index σ with
  | nil => simp only [solveParams, List.zip_nil_left, List.mapIdx_nil, solvePieces]
  | cons param params ih =>
    cases params' with
    | nil => simp only [solveParams, List.zip_nil_right, List.mapIdx_nil, solvePieces]
    | cons param' params' =>
      simp only [solveParams, List.zip_cons_cons, List.mapIdx_cons, solvePieces, solvePiece, ih,
        Nat.add_assoc, Nat.add_comm 1]
      split <;> rfl

theorem solveWith_arrow (params params' : List Effect) (result result' : Effect) :
    solveWith further (.arrow params result) (.arrow params' result') =
      if params.length = params'.length then
        solvePieces (solvePiece further) (.effect (.arrow params result))
          (.effect (.arrow params' result')) ∅ (arrowPieces params params' result result')
      else .error (.arityMismatch params.length params'.length) := by
  simp only [solveWith, arrowPieces, solvePieces_append, solvePieces_single, solvePiece]
  split
  · rw [solveParams_eq_solvePieces]
    simp only [Nat.zero_add]
    congr 1
    funext σ
    split <;> rfl
  · rfl

/-- What is solved for directly, because nothing has been learned, has to be what unification
finds. -/
theorem solveWith_eq_solveLayer
    (direct : ∀ {pieces}, Split (.effect e) (.effect f) pieces → ∀ {p p'},
      (.effect p, .effect p') ∈ pieces → solveWith further p p' = p.unify p')
    (fewer : ∀ {e' f'}, (e'.names.union f'.names).size < (e.names.union f.names).size →
      further e' f' = e'.unify f') :
    solveWith further e f = solveLayer Effect.unify e f := by
  cases e <;> cases f <;> try solve | simp only [solveWith, solveLayer]
  rw [solveWith_arrow]
  simp only [solveLayer]
  split
  · rename_i arity
    apply solve_arrowPieces_congr arity
    intro front back p p' σ split before
    rw [solvePiece]
    by_cases none : σ.isEmpty = true
    · rw [if_pos none, isEmpty_iff.mp none, solveUnder_empty]
      exact direct split (List.mem_append_right _ List.mem_cons_self)
    · rw [if_neg none]
      apply solveUnder_effect_congr
      intro e' f' run run'
      exact fewer (fewer_names_of_learned split before (by simpa using none) run run')
  · rfl

theorem solve_eq_solveLayer (count : Nat) (e f : Effect)
    (enough : (e.names.union f.names).size ≤ count) :
    Effect.solve count e f = solveLayer Effect.unify e f := by
  have direct : ∀ {pieces}, Split (.effect e) (.effect f) pieces → ∀ {p p'},
      (.effect p, .effect p') ∈ pieces → Effect.solve count p p' = p.unify p' := by
    intro pieces split p p' member
    have smaller := split.smaller member
    have names := split.names_le member
    exact (solve_eq_solveLayer count p p' (by omega)).trans
      (solve_eq_solveLayer (p.names.union p'.names).size p p' (Nat.le_refl _)).symm
  cases count with
  | zero =>
    apply solveWith_eq_solveLayer direct
    intro e' f' fewer
    omega
  | succ count =>
    apply solveWith_eq_solveLayer direct
    intro e' f' fewer
    exact (solve_eq_solveLayer count e' f' (by omega)).trans
      (solve_eq_solveLayer (e'.names.union f'.names).size e' f' (Nat.le_refl _)).symm
termination_by (count, sizeOf e + sizeOf f)
decreasing_by
  all_goals
    rw [Prod.lex_def]
    omega

theorem unify_eq_solveLayer (e f : Effect) : e.unify f = solveLayer Effect.unify e f :=
  solve_eq_solveLayer _ e f (Nat.le_refl _)

end Effects

/-- Each call for effects is for a piece as it stands, which is smaller, or leaves fewer names. No
chain of calls is infinite, also between nested or empty unions. A layer needs the answers to its
calls only, so unification of effects, and that of sets, is the one solver that is a layer over
itself. -/
theorem unification_always_ends :
    (∀ e f e' f', Calls Finds (.effect e', .effect f') (.effect e, .effect f) →
      (∃ pieces, Split (.effect e) (.effect f) pieces ∧ (.effect e', .effect f') ∈ pieces ∧
        sizeOf e' + sizeOf f' < sizeOf e + sizeOf f) ∨
      (e'.names.union f'.names).size < (e.names.union f.names).size) ∧
    WellFounded (Calls Finds) ∧
    (∀ solver : Effect.Solver,
      (∀ e f, (∀ e' f', Calls Finds (.effect e', .effect f') (.effect e, .effect f) →
        solver e' f' = e'.unify f') → Effect.solveLayer solver e f = e.unify f) ∧
      ((∀ e f, solver e f = Effect.solveLayer solver e f) ↔ solver = Effect.unify)) ∧
    ∀ solver : VariableSet.Solver,
      (∀ s t, (∀ s' t', Calls Finds (.variables s', .variables t') (.variables s, .variables t) →
        solver s' t' = s'.unify t') → VariableSet.solveWith solver s t = s.unify t) ∧
      ((∀ s t, solver s t = VariableSet.solveWith solver s t) ↔ solver = VariableSet.unify) := by
  refine ⟨fun e f e' f' => Calls.of_effects, calls_wellFounded, fun solver => ?_, fun solver => ?_⟩
  · have answers : ∀ e f, (∀ e' f', Calls Finds (.effect e', .effect f') (.effect e, .effect f) →
        solver e' f' = e'.unify f') → Effect.solveLayer solver e f = e.unify f := by
      intro e f agree
      rw [solveLayer_congr agree, ← unify_eq_solveLayer]
    refine ⟨answers, fun equation => ?_, fun same => ?_⟩
    · funext e f
      induction e, f using effects_induction with
      | step e f ih => rw [equation, answers e f ih]
    · subst same
      exact unify_eq_solveLayer
  · have answers : ∀ s t, (∀ s' t',
        Calls Finds (.variables s', .variables t') (.variables s, .variables t) →
        solver s' t' = s'.unify t') → VariableSet.solveWith solver s t = s.unify t := by
      intro s t agree
      have found : ∀ {s t σ}, VariableSet.unify s t = .ok σ →
        Finds (.variables s) (.variables t) σ := fun found => found
      rw [solveWith_variables_congr found agree, ← unify_variables_eq_solveWith]
    refine ⟨answers, fun equation => ?_, fun same => ?_⟩
    · funext s t
      induction s, t using variables_induction with
      | step s t ih => rw [equation, answers s t ih]
    · subst same
      exact unify_variables_eq_solveWith

/-- What has been learned from the first parameter makes the second one larger than both sides
together, but with one name less. -/
theorem call_for_larger_piece :
    let wide : Effect := .arrow (.replicate 3 (.quantified "f")) (.quantified "f")
    let twice : Effect := .arrow [.quantified "e", .quantified "e"] (.quantified "e")
    let left : Effect := .arrow [.quantified "e", twice] (.quantified "e")
    let right : Effect := .arrow [wide, .quantified "g"] (.quantified "h")
    let piece : Effect := .arrow [wide, wide] wide
    let other : Effect := .quantified "g"
    Calls Finds (.effect piece, .effect other) (.effect left, .effect right) ∧
      sizeOf left + sizeOf right < sizeOf piece + sizeOf other ∧
      (piece.names.union other.names).size < (left.names.union right.names).size := by
  intro wide twice left right piece other
  have split : Split (.effect left) (.effect right)
      ([(.effect (.quantified "e"), .effect wide)] ++
        (.effect twice, .effect other) ::
          [(.effect (.quantified "e"), .effect (.quantified "h"))]) := .arrows _ _ rfl
  have first : InTurn Finds ∅ [(.effect (.quantified "e"), .effect wide)]
      (.single "e" (.effect wide)) := by
    have found : (Effect.quantified "e").unify wide = .ok (.single "e" (.effect wide)) := by decide
    exact .cons rfl rfl found (compose_empty_right _) (.nil _)
  have call : Calls Finds (.effect piece, .effect other) (.effect left, .effect right) :=
    .piece split first (by decide) (by decide)
  have larger : sizeOf left + sizeOf right < sizeOf piece + sizeOf other := by decide
  refine ⟨call, larger, ?_⟩
  rcases unification_always_ends.1 _ _ _ _ call with ⟨_, _, _, smaller⟩ | fewer
  · omega
  · exact fewer

/-- Nested unions are flattened before their members are looked at. -/
example : (VariableSet.union [.union [.union [.quantified "v"]],
      .union [.concrete (.singleton "x"), .quantified "w"]]).unify (.concrete (.singleton "x")) =
    .ok ⟨[⟨"v", .variables (.concrete (.singleton "x"))⟩,
      ⟨"w", .variables (.concrete (.singleton "x"))⟩]⟩ := by decide

end Unification

end SpecEffects
