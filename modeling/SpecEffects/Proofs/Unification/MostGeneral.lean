import SpecEffects.Proofs.Unification.Elimination

/-!
Without unions, unification finds a solution whenever there is one, and every other solution factors
through it. A solution respects a substitution when it does not tell a bound name from its value. It
respects what is learned from each piece, and so still solves the pieces that follow.
-/
namespace SpecEffects

theorem forall₂_combine {α β γ : Type} {R : α → β → Prop} {S : α → γ → Prop} {Q : β → γ → Prop}
    {as : List α} {bs : List β} {cs : List γ}
    (combine : ∀ a ∈ as, ∀ {b c}, R a b → S a c → Q b c) (first : List.Forall₂ R as bs)
    (second : List.Forall₂ S as cs) : List.Forall₂ Q bs cs := by
  induction first generalizing cs with
  | nil =>
    cases second
    exact .nil
  | cons head _ ih =>
    cases second with
    | cons head' tail' =>
      refine .cons (combine _ List.mem_cons_self head head') (ih ?_ tail')
      intro a member b c
      exact combine a (List.mem_cons_of_mem _ member)

namespace Substitution

variable {T σ new existing composed : Substitution}

/-- A bound name and its value become the same. -/
def Respects (T σ : Substitution) : Prop :=
  ∀ name value, σ.get? name = some value →
    ∃ result, T.applyToTerm value = .ok result ∧
      T.applyToTerm (value.kind.quantified name) = .ok result

def Unifies (T : Substitution) (left right : Term) : Prop :=
  ∃ result, T.applyToTerm left = .ok result ∧ T.applyToTerm right = .ok result

theorem Respects.quantified (respects : T.Respects σ) (kind : Kind) (name : String)
    {after result : Term} (run : σ.applyToTerm (kind.quantified name) = .ok after)
    (whole : T.applyToTerm (kind.quantified name) = .ok result) :
    T.applyToTerm after = .ok result := by
  obtain ⟨allowed, eq⟩ := applyToTerm_quantified.mp run
  subst eq
  cases found : σ.get? name with
  | none =>
    rw [valueAt_of_unbound found]
    exact whole
  | some value =>
    obtain ⟨same, first, second⟩ := respects name value found
    rw [(allows_of_get? found).mp allowed, whole] at second
    rw [valueAt_of_get? found, first, ← second]

theorem Respects.applyToVariables (respects : T.Respects σ) {set after result : VariableSet}
    (free : set.UnionFree) (run : σ.applyToVariables set = .ok after)
    (whole : T.applyToVariables set = .ok result) : T.applyToVariables after = .ok result := by
  cases set with
  | concrete vars =>
    cases run
    exact whole
  | quantified name =>
    have value := respects.quantified .variables name (applyToTerm_variables.mpr ⟨_, run, rfl⟩)
      (applyToTerm_variables.mpr ⟨_, whole, rfl⟩)
    obtain ⟨_, inside, eq⟩ := applyToTerm_variables.mp value
    cases eq
    exact inside
  | union sets => exact free.elim

theorem Respects.apply (respects : T.Respects σ) (values : σ.EverySet VariableSet.UnionFree)
    {effect after result : Effect} (free : effect.UnionFree) (run : σ.apply effect = .ok after)
    (whole : T.apply effect = .ok result) : T.apply after = .ok result := by
  induction effect generalizing after result with
  | concrete footprint =>
    have slots := Effect.everySet_concrete.mp free
    have canonical := fun component => (slots component).canonical
    obtain ⟨before, each, rfl⟩ := (apply_concrete canonical).mp run
    obtain ⟨final, each', rfl⟩ := (apply_concrete canonical).mp whole
    have slots' := fun component =>
      unionFree_applyToVariables values (slots component) (each component)
    refine (apply_concrete fun component => (slots' component).canonical).mpr
      ⟨final, fun component => ?_, rfl⟩
    exact respects.applyToVariables (slots component) (each component) (each' component)
  | quantified name =>
    have value := respects.quantified .effect name (applyToTerm_effect.mpr ⟨after, run, rfl⟩)
      (applyToTerm_effect.mpr ⟨result, whole, rfl⟩)
    obtain ⟨_, inside, eq⟩ := applyToTerm_effect.mp value
    cases eq
    exact inside
  | arrow params output inputs last =>
    obtain ⟨free_inputs, free_output⟩ := Effect.everySet_arrow.mp free
    obtain ⟨params', output', each, out, rfl⟩ := apply_arrow.mp run
    obtain ⟨final, output'', each', out', rfl⟩ := apply_arrow.mp whole
    refine apply_arrow.mpr ⟨final, output'', ?_, last free_output out out', rfl⟩
    exact forall₂_combine
      (fun param member _ _ first second =>
        inputs param member (free_inputs param member) first second)
      each each'

theorem Respects.applyToTerm (respects : T.Respects σ) (values : σ.EverySet VariableSet.UnionFree)
    {term after result : Term} (free : term.UnionFree) (run : σ.applyToTerm term = .ok after)
    (whole : T.applyToTerm term = .ok result) : T.applyToTerm after = .ok result := by
  cases term
  · obtain ⟨after, inside, rfl⟩ := applyToTerm_effect.mp run
    obtain ⟨result, inside', rfl⟩ := applyToTerm_effect.mp whole
    exact applyToTerm_effect.mpr ⟨_, respects.apply values free inside inside', rfl⟩
  · obtain ⟨after, inside, rfl⟩ := applyToTerm_variables.mp run
    obtain ⟨result, inside', rfl⟩ := applyToTerm_variables.mp whole
    exact applyToTerm_variables.mpr ⟨_, respects.applyToVariables free inside inside', rfl⟩

theorem Respects.compose (respects : T.Respects new) (olds : T.Respects existing)
    (news : new.EverySet VariableSet.UnionFree) (free : existing.EverySet VariableSet.UnionFree)
    (run : new.compose existing = .ok composed) : T.Respects composed := by
  intro name value bound
  cases found : existing.get? name with
  | none =>
    rw [get?_compose_unbound run found] at bound
    exact respects name value bound
  | some old =>
    obtain ⟨after, later, bound'⟩ := get?_compose_bound run found
    obtain ⟨result, first, second⟩ := olds name old found
    cases bound.symm.trans bound'
    rw [kind_applyToTerm later]
    exact ⟨result, respects.applyToTerm news (free _ (mem_of_get? found)) later first, second⟩

theorem respects_single {name : String} {value : Term}
    (unifies : T.Unifies (value.kind.quantified name) value) : T.Respects (single name value) := by
  intro other bound found
  rw [get?_single] at found
  split at found
  · rename_i same
    cases found
    subst same
    obtain ⟨result, first, second⟩ := unifies
    exact ⟨result, second, first⟩
  · cases found

theorem Unifies.symm {left right : Term} (unifies : T.Unifies left right) :
    T.Unifies right left := by
  obtain ⟨result, first, second⟩ := unifies
  exact ⟨result, second, first⟩

end Substitution

namespace Unification

open Substitution

variable {T σ : Substitution} {V : Vocabulary}

structure Solvable (T : Substitution) (V : Vocabulary) (left right : Term) : Prop where
  unionFree : left.UnionFree ∧ right.UnionFree
  bounded : left.Over V ∧ right.Over V
  unifies : T.Unifies left right

structure Progress (T : Substitution) (V : Vocabulary) (σ : Substitution) : Prop where
  unionFree : σ.EverySet VariableSet.UnionFree
  bounded : σ.Over V
  eliminates : σ.Eliminates
  respected : T.Respects σ

theorem progress_empty : Progress T V ∅ :=
  ⟨everySet_empty, over_empty, fun _ member => (nomatch member), fun _ _ found => (nomatch found)⟩

theorem Outcome.progress {left right : Term} (outcome : Outcome left right σ)
    (solvable : Solvable T V left right) (respects : T.Respects σ) : Progress T V σ :=
  ⟨outcome.unionFree solvable.unionFree.1 solvable.unionFree.2,
    outcome.isLocal V solvable.bounded.1 solvable.bounded.2, outcome.eliminates, respects⟩

theorem Progress.applyToTerm (known : Progress T V σ) (separate : V.Separate) {left right : Term}
    (solvable : Solvable T V left right) :
    ∃ left' right', σ.applyToTerm left = .ok left' ∧ σ.applyToTerm right = .ok right' ∧
      Solvable T V left' right' := by
  obtain ⟨left', applied⟩ := exists_applyToTerm_of_over known.bounded separate solvable.bounded.1
  obtain ⟨right', applied'⟩ := exists_applyToTerm_of_over known.bounded separate solvable.bounded.2
  obtain ⟨result, first, second⟩ := solvable.unifies
  have kept := fun {set result} => @unionFree_applyToVariables _ known.unionFree set result
  refine ⟨left', right', applied, applied', ⟨?_, ?_⟩, ⟨?_, ?_⟩, result, ?_, ?_⟩
  · exact everySet_applyToTerm known.unionFree kept solvable.unionFree.1 applied
  · exact everySet_applyToTerm known.unionFree kept solvable.unionFree.2 applied'
  · exact over_applyToTerm known.bounded.values solvable.bounded.1 applied
  · exact over_applyToTerm known.bounded.values solvable.bounded.2 applied'
  · exact known.respected.applyToTerm known.unionFree solvable.unionFree.1 applied first
  · exact known.respected.applyToTerm known.unionFree solvable.unionFree.2 applied' second

theorem Progress.learn (known : Progress T V σ) (separate : V.Separate) {new : Substitution}
    {left right left' right' : Term} (applied : σ.applyToTerm left = .ok left')
    (applied' : σ.applyToTerm right = .ok right') (solvable : Solvable T V left' right')
    (outcome : Outcome left' right' new) (respects : T.Respects new) :
    ∃ next, new.compose σ = .ok next ∧ Progress T V next := by
  have learned := outcome.progress solvable respects
  obtain ⟨next, added⟩ := exists_compose fun binding member =>
    exists_applyToTerm_of_over learned.bounded separate (known.bounded binding member).2
  have bounded := outcome.isLocal _ (fun _ _ used => known.eliminates.applyToTerm applied used)
    fun _ _ used => known.eliminates.applyToTerm applied' used
  refine ⟨next, added, ?_, ?_, ?_, ?_⟩
  · exact everySet_compose learned.unionFree (unionFree_applyToVariables learned.unionFree)
      known.unionFree added
  · exact over_compose learned.bounded known.bounded added
  · exact learned.eliminates.compose known.eliminates bounded added
  · exact learned.respected.compose known.respected learned.unionFree known.unionFree added

theorem Unifies.params {params params' inputs : List Effect}
    (first : List.Forall₂ (fun param after => T.apply param = .ok after) params inputs)
    (second : List.Forall₂ (fun param after => T.apply param = .ok after) params' inputs) :
    params.length = params'.length ∧
      ∀ pair ∈ params.zip params', T.Unifies (.effect pair.1) (.effect pair.2) := by
  refine ⟨first.length_eq.trans second.length_eq.symm, ?_⟩
  induction first generalizing params' with
  | nil => exact fun _ member => nomatch member
  | cons head _ ih =>
    cases second with
    | cons head' tail' =>
      intro pair member
      rcases List.mem_cons.mp member with rfl | member
      · exact ⟨_, applyToTerm_effect.mpr ⟨_, head, rfl⟩, applyToTerm_effect.mpr ⟨_, head', rfl⟩⟩
      · exact ih tail' pair member

theorem Unifies.arrow {params params' : List Effect} {result result' : Effect}
    (unifies : T.Unifies (.effect (.arrow params result)) (.effect (.arrow params' result'))) :
    (params.length = params'.length ∧
      ∀ pair ∈ params.zip params', T.Unifies (.effect pair.1) (.effect pair.2)) ∧
      T.Unifies (.effect result) (.effect result') := by
  obtain ⟨_, first, second⟩ := unifies
  obtain ⟨_, inside, rfl⟩ := applyToTerm_effect.mp first
  obtain ⟨_, inside', eq⟩ := applyToTerm_effect.mp second
  obtain ⟨inputs, output, each, last, rfl⟩ := apply_arrow.mp inside
  obtain ⟨inputs', output', each', last', rfl⟩ := apply_arrow.mp inside'
  cases eq
  exact ⟨Unifies.params each each', _, applyToTerm_effect.mpr ⟨_, last, rfl⟩,
    applyToTerm_effect.mpr ⟨_, last', rfl⟩⟩

theorem Solvable.symm {left right : Term} (solvable : Solvable T V left right) :
    Solvable T V right left :=
  ⟨solvable.unionFree.symm, solvable.bounded.symm, solvable.unifies.symm⟩

theorem Solvable.not_concrete_arrow {footprint : Footprint} {params : List Effect} {result : Effect}
    (solvable : Solvable T V (.effect (.concrete footprint)) (.effect (.arrow params result))) :
    False := by
  obtain ⟨_, first, second⟩ := solvable.unifies
  obtain ⟨_, inside, rfl⟩ := applyToTerm_effect.mp first
  obtain ⟨_, inside', eq⟩ := applyToTerm_effect.mp second
  have free := Effect.everySet_concrete.mp solvable.unionFree.1
  obtain ⟨_, _, rfl⟩ := (apply_concrete fun component => (free component).canonical).mp inside
  obtain ⟨_, _, _, _, rfl⟩ := apply_arrow.mp inside'
  cases eq

theorem Solvable.pieces {left right : Term} {pieces : List (Term × Term)}
    (solvable : Solvable T V left right) (split : Split left right pieces) :
    ∀ piece ∈ pieces, Solvable T V piece.1 piece.2 := by
  intro piece member
  refine ⟨split.everySet False.elim solvable.unionFree.1 solvable.unionFree.2 piece member,
    split.within solvable.bounded.1 solvable.bounded.2 piece member, ?_⟩
  cases split with
  | footprints expected actual =>
    obtain ⟨component, _, rfl⟩ := List.mem_map.mp member
    obtain ⟨_, first, second⟩ := solvable.unifies
    obtain ⟨_, inside, rfl⟩ := applyToTerm_effect.mp first
    obtain ⟨_, inside', eq⟩ := applyToTerm_effect.mp second
    have free := Effect.everySet_concrete.mp solvable.unionFree.1
    have free' := Effect.everySet_concrete.mp solvable.unionFree.2
    obtain ⟨_, slots, rfl⟩ := (apply_concrete fun component => (free component).canonical).mp inside
    obtain ⟨_, slots', rfl⟩ :=
      (apply_concrete fun component => (free' component).canonical).mp inside'
    cases eq
    exact ⟨_, applyToTerm_variables.mpr ⟨_, slots component, rfl⟩,
      applyToTerm_variables.mpr ⟨_, slots' component, rfl⟩⟩
  | arrows result result' arity =>
    obtain ⟨⟨_, inputs⟩, output⟩ := Unifies.arrow solvable.unifies
    rcases List.mem_append.mp member with front | last
    · obtain ⟨pair, paired, rfl⟩ := List.mem_map.mp front
      exact inputs pair paired
    · cases List.mem_singleton.mp last
      exact output
  | unionLeft sets vars => exact solvable.unionFree.1.elim
  | unionRight vars sets => exact solvable.unionFree.2.elim

theorem bind_variables_complete {name : String} {set : VariableSet} (free : set.UnionFree)
    (different : set ≠ .quantified name)
    (unifies : T.Unifies (.variables (.quantified name)) (.variables set)) :
    ∃ σ, VariableSet.bind name set = .ok σ ∧ T.Respects σ := by
  refine ⟨_, bind_variables_eq_ok.mpr ⟨fun kind used => ?_, rfl⟩,
    @respects_single T name (.variables set) unifies⟩
  cases set with
  | concrete vars => exact VariableSet.uses_concrete used
  | quantified other =>
    rw [(VariableSet.uses_quantified.mp used).2] at different
    exact different rfl
  | union sets => exact free

theorem unify_variables_complete {s t : VariableSet}
    (solvable : Solvable T V (.variables s) (.variables t)) :
    ∃ σ, s.unify t = .ok σ ∧ T.Respects σ := by
  obtain ⟨free, free'⟩ := solvable.unionFree
  unfold VariableSet.unify VariableSet.solveWith
  by_cases equal : s = t
  · exact ⟨∅, by simp [equal], fun _ _ found => nomatch found⟩
  · simp only [equal, if_false]
    cases s with
    | quantified name =>
      exact bind_variables_complete free' (Ne.symm equal) solvable.unifies
    | union sets => exact free.elim
    | concrete vars =>
      cases t with
      | quantified name =>
        exact bind_variables_complete free equal solvable.unifies.symm
      | union sets => exact free'.elim
      | concrete vars' =>
        obtain ⟨_, first, second⟩ := solvable.unifies
        cases first
        cases second
        exact absurd rfl equal

theorem solveInTurn_complete (separate : V.Separate) {expected actual : Term}
    {pieces : List (Position × VariableSet × VariableSet)}
    (each : ∀ piece ∈ pieces, Solvable T V (.variables piece.2.1) (.variables piece.2.2))
    (known : Progress T V σ) :
    ∃ last, VariableSet.solveInTurn VariableSet.unify expected actual σ pieces = .ok last ∧
      Progress T V last := by
  induction pieces generalizing σ with
  | nil => exact ⟨σ, rfl, known⟩
  | cons piece rest ih =>
    obtain ⟨position, left, right⟩ := piece
    obtain ⟨left', right', applied, applied', solvable⟩ :=
      known.applyToTerm separate (each _ List.mem_cons_self)
    obtain ⟨set, run, rfl⟩ := applyToTerm_variables.mp applied
    obtain ⟨set', run', rfl⟩ := applyToTerm_variables.mp applied'
    obtain ⟨new, solved, respects⟩ := unify_variables_complete solvable
    have outcome := unify_variables_solved Layer.outcome solved
    obtain ⟨next, added, further⟩ := known.learn separate applied applied' solvable outcome respects
    obtain ⟨last, later, done⟩ :=
      ih (fun piece member => each piece (List.mem_cons_of_mem _ member)) further
    refine ⟨last, ?_, done⟩
    simp only [VariableSet.solveInTurn, VariableSet.solveUnder, bind_eq_ok, mapError_eq_ok]
    exact ⟨next, ⟨set, run, set', run', new, solved, added⟩, later⟩

theorem unify_footprints_complete (separate : V.Separate) {expected actual : Footprint}
    (solvable : Solvable T V (.effect (.concrete expected)) (.effect (.concrete actual))) :
    ∃ σ, expected.unify actual = .ok σ ∧ Progress T V σ := by
  apply solveInTurn_complete separate _ progress_empty
  intro piece member
  obtain ⟨component, present, rfl⟩ := List.mem_map.mp member
  exact solvable.pieces (.footprints expected actual) _ (List.mem_map_of_mem present)

theorem sizeOf_inside {name : String} {effect value result : Effect}
    (used : effect.Uses .effect name) (different : effect ≠ .quantified name)
    (inner : T.apply (.quantified name) = .ok value) (outer : T.apply effect = .ok result) :
    sizeOf value < sizeOf result := by
  induction effect generalizing result with
  | concrete footprint =>
    obtain ⟨component, used⟩ := Effect.uses_concrete.mp used
    cases used.1
  | quantified other =>
    rw [(Effect.uses_quantified.mp used).2] at different
    exact absurd rfl different
  | arrow params output inputs last =>
    obtain ⟨params', output', each, out, rfl⟩ := apply_arrow.mp outer
    -- The name is a part itself, or it stands inside of a part.
    have part : ∀ effect after, T.apply effect = .ok after →
        (effect ≠ .quantified name → sizeOf value < sizeOf after) →
          sizeOf value ≤ sizeOf after := by
      intro effect after run smaller
      by_cases same : effect = .quantified name
      · subst same
        cases inner.symm.trans run
        exact Nat.le_refl _
      · exact Nat.le_of_lt (smaller same)
    rw [Effect.arrow.sizeOf_spec]
    rcases Effect.uses_arrow.mp used with ⟨param, member, used⟩ | used
    · obtain ⟨after, present, run⟩ := forall₂_mem_left each member
      have inside := part param after run fun different => inputs param member used different run
      have below := List.sizeOf_lt_of_mem present
      omega
    · have inside := part output output' out fun different => last used different out
      omega

theorem bind_effect_complete (separate : V.Separate) {name : String} {effect : Effect}
    (different : effect ≠ .quantified name)
    (solvable : Solvable T V (.effect (.quantified name)) (.effect effect)) :
    ∃ σ, Effect.bind name effect = .ok σ ∧ T.Respects σ := by
  refine ⟨_, bind_effect_eq_ok.mpr ⟨fun kind used => ?_, rfl⟩,
    @respects_single T name (.effect effect) solvable.unifies⟩
  have at_effect := solvable.bounded.1 .effect name (Effect.uses_quantified.mpr ⟨rfl, rfl⟩)
  cases separate.kind_eq at_effect (solvable.bounded.2 kind name used)
  obtain ⟨_, first, second⟩ := solvable.unifies
  obtain ⟨value, inner, rfl⟩ := applyToTerm_effect.mp first
  obtain ⟨result, outer, eq⟩ := applyToTerm_effect.mp second
  cases eq
  exact Nat.lt_irrefl _ (sizeOf_inside used different inner outer)

/-- The solver finds what `T` solves, as long as there are fewer names than the bound. -/
def Complete (T : Substitution) (solver : Effect.Solver) (bound : Nat) : Prop :=
  ∀ (V : Vocabulary) (names : NameSet), V.Separate → (∀ kind name, V kind name → name ∈ names) →
    names.size < bound → ∀ e f, Solvable T V (.effect e) (.effect f) →
      ∃ σ, solver e f = .ok σ ∧ T.Respects σ

section Solver

variable {further : Effect.Solver} {names : NameSet}
  (furthers : ∀ {e f σ}, further e f = .ok σ → Outcome (.effect e) (.effect f) σ)
  (complete : Complete T further names.size) (separate : V.Separate)
  (covered : ∀ kind name, V kind name → name ∈ names)

include furthers complete separate covered

/-- Something is known, so one name at least is gone from the piece. -/
theorem solveUnder_complete (known : Progress T V σ) (some : σ.isEmpty = false) {e f : Effect}
    (solvable : Solvable T V (.effect e) (.effect f)) :
    ∃ next, Effect.solveUnder further σ e f = .ok next ∧ Progress T V next := by
  obtain ⟨left', right', applied, applied', solvable'⟩ := known.applyToTerm separate solvable
  obtain ⟨e', run, rfl⟩ := applyToTerm_effect.mp applied
  obtain ⟨f', run', rfl⟩ := applyToTerm_effect.mp applied'
  obtain ⟨onLeft, onRight⟩ := solvable'.bounded
  have within : ∀ kind name, Vocabulary.usedIn [e', f'] kind name → V kind name := by
    rintro kind name ⟨effect, member, used⟩
    rcases List.mem_pair.mp member with rfl | rfl
    · exact onLeft kind name used
    · exact onRight kind name used
  have covers : ∀ {effect : Effect}, effect.Over V → effect.Over fun _ name => name ∈ names :=
    fun inside kind name used => covered kind name (inside kind name used)
  have fewer : (e'.names.union f'.names).size < names.size :=
    known.eliminates.fewer_names some
      (fun binding bound => ⟨covered _ _ (known.bounded binding bound).1,
        fun kind name used => covered kind name ((known.bounded binding bound).2 kind name used)⟩)
      (covers solvable.bounded.1) (covers solvable.bounded.2) run run'
  obtain ⟨new, solved, respects⟩ := complete (Vocabulary.usedIn [e', f']) _
    (fun name first second => separate name (within _ _ first) (within _ _ second))
    (fun kind name used => Vocabulary.mem_names_union.mpr ⟨kind, used⟩) fewer
    e' f' ⟨solvable'.unionFree, ⟨fun kind name used => ⟨e', by simp, used⟩,
      fun kind name used => ⟨f', by simp, used⟩⟩, solvable'.unifies⟩
  obtain ⟨next, added, progress⟩ :=
    known.learn separate applied applied' solvable' (furthers solved) respects
  refine ⟨next, ?_, progress⟩
  simp only [Effect.solveUnder, bind_eq_ok, mapError_eq_ok]
  exact ⟨e', run, f', run', new, solved, added⟩

theorem solveParams_complete {locate : Position → UnificationError → UnificationError}
    {index : Nat} {params params' : List Effect} (arity : params.length = params'.length)
    (each : ∀ pair ∈ params.zip params', Solvable T V (.effect pair.1) (.effect pair.2))
    (direct : ∀ param ∈ params, ∀ param', Solvable T V (.effect param) (.effect param') →
      ∃ σ, Effect.solveWith further param param' = .ok σ ∧ T.Respects σ)
    (known : Progress T V σ) :
    ∃ last, Effect.solveParams further locate index σ params params' = .ok last ∧
      Progress T V last := by
  induction params generalizing params' index σ with
  | nil => exact ⟨σ, by simp only [Effect.solveParams], known⟩
  | cons param params ih =>
    cases params' with
    | nil => cases arity
    | cons param' params' =>
      have solvable := each _ List.mem_cons_self
      have rest : ∀ {next}, Progress T V next →
          ∃ last, Effect.solveParams further locate (index + 1) next params params' = .ok last ∧
            Progress T V last :=
        ih (Nat.succ.inj arity) (fun pair member => each pair (List.mem_cons_of_mem _ member))
          fun other member => direct other (List.mem_cons_of_mem _ member)
      simp only [Effect.solveParams]
      split
      · obtain ⟨new, solved, respects⟩ := direct param List.mem_cons_self param' solvable
        have outcome := solveWith_effect_solved furthers Layer.outcome solved
        obtain ⟨last, later, done⟩ := rest (outcome.progress solvable respects)
        refine ⟨last, ?_, done⟩
        rw [bind_eq_ok]
        exact ⟨new, mapError_eq_ok.mpr solved, later⟩
      · rename_i some
        obtain ⟨next, solved, progress⟩ := solveUnder_complete furthers complete separate covered
          known (by simpa using some) solvable
        obtain ⟨last, later, done⟩ := rest progress
        refine ⟨last, ?_, done⟩
        rw [bind_eq_ok]
        exact ⟨next, mapError_eq_ok.mpr solved, later⟩

theorem solveWith_complete {e f : Effect} (solvable : Solvable T V (.effect e) (.effect f)) :
    ∃ σ, Effect.solveWith further e f = .ok σ ∧ T.Respects σ := by
  induction e generalizing f with
  | quantified name =>
    simp only [Effect.solveWith]
    split
    · exact ⟨∅, rfl, fun _ _ found => (Option.some_ne_none _ found.symm).elim⟩
    · rename_i different
      exact bind_effect_complete separate different solvable
  | concrete footprint =>
    cases f with
    | quantified name =>
      simp only [Effect.solveWith]
      exact bind_effect_complete separate Effect.noConfusion solvable.symm
    | concrete actual =>
      simp only [Effect.solveWith]
      obtain ⟨σ, run, progress⟩ := unify_footprints_complete separate solvable
      exact ⟨σ, run, progress.respected⟩
    | arrow params result => exact solvable.not_concrete_arrow.elim
  | arrow params result inputs output =>
    cases f with
    | quantified name =>
      simp only [Effect.solveWith]
      exact bind_effect_complete separate Effect.noConfusion solvable.symm
    | concrete actual => exact solvable.symm.not_concrete_arrow.elim
    | arrow params' result' =>
      obtain ⟨⟨arity, _⟩, _⟩ := Unifies.arrow solvable.unifies
      have pieces := solvable.pieces (.arrows result result' arity)
      obtain ⟨known, front, progress⟩ := solveParams_complete furthers complete separate covered
        arity (fun pair member => pieces _ (List.mem_append_left _ (List.mem_map_of_mem member)))
        (fun param member _ => inputs param member) progress_empty
      have last := pieces _ (List.mem_append_right _ List.mem_cons_self)
      simp only [Effect.solveWith, arity, if_true, bind_eq_ok]
      by_cases none : known.isEmpty
      · obtain ⟨σ, solved, respects⟩ := output last
        refine ⟨σ, ⟨known, front, ?_⟩, respects⟩
        rw [if_pos none, mapError_eq_ok]
        exact solved
      · obtain ⟨σ, solved, done⟩ := solveUnder_complete furthers complete separate covered progress
          (by simpa using none) last
        refine ⟨σ, ⟨known, front, ?_⟩, done.respected⟩
        rw [if_neg none, mapError_eq_ok]
        exact solved

end Solver

theorem solve_complete (T : Substitution) (bound : Nat) :
    Complete T (Effect.solve bound) (bound + 1) := by
  induction bound with
  | zero =>
    intro V names separate covered few e f solvable
    apply solveWith_complete _ _ separate covered solvable
    · intro e f σ failed
      cases failed
    · intro V' names' _ _ fewer
      omega
  | succ bound ih =>
    intro V names separate covered few e f solvable
    apply solveWith_complete (solve_solved Layer.outcome) _ separate covered solvable
    intro V' names' separate' covered' fewer
    exact ih V' names' separate' covered' (by omega)

end Unification

namespace Effect

open Substitution Unification

/-- Whenever anything makes the effects equal, unification finds a solution. It makes them equal, and
every solution `T` factors through it. -/
theorem unifier_is_most_general {A B C : Effect} (free : A.UnionFree) (free' : B.UnionFree)
    (separate : (Vocabulary.usedIn [A, B]).Separate) (T : Substitution)
    (onLeft : T.apply A = .ok C) (onRight : T.apply B = .ok C) :
    ∃ σ, A.unify B = .ok σ ∧ (∃ D, σ.apply A = .ok D ∧ σ.apply B = .ok D) ∧
      (∀ name value, σ.get? name = some value →
        ∃ result, T.applyToTerm value = .ok result ∧
          T.applyToTerm (value.kind.quantified name) = .ok result) ∧
      ∀ effect after result, effect.UnionFree → σ.apply effect = .ok after →
        T.apply effect = .ok result → T.apply after = .ok result := by
  have solvable : Solvable T (Vocabulary.usedIn [A, B]) (.effect A) (.effect B) :=
    ⟨⟨free, free'⟩, ⟨fun kind name used => ⟨A, by simp, used⟩,
      fun kind name used => ⟨B, by simp, used⟩⟩,
      .effect C, applyToTerm_effect.mpr ⟨C, onLeft, rfl⟩, applyToTerm_effect.mpr ⟨C, onRight, rfl⟩⟩
  obtain ⟨σ, run, respects⟩ := solve_complete T (A.names.union B.names).size _ _ separate
    (fun kind name used => Vocabulary.mem_names_union.mpr ⟨kind, used⟩) (Nat.lt_succ_self _)
    A B solvable
  have values := (solve_solved Layer.outcome run).unionFree free free'
  have equal := exists_unified (free.mono VariableSet.UnionFree.canonical)
    (free'.mono VariableSet.UnionFree.canonical) separate run
  exact ⟨σ, run, equal, respects, fun effect after result => respects.apply values⟩

/-- The name `e` is bound before it is met again, and its value holds names that are bound later. -/
theorem unifier_of_repeated_name :
    let A : Effect := .arrow [.quantified "e", .concrete ⟨.quantified "v", .empty, .empty⟩]
      (.quantified "e")
    let B : Effect := .arrow
      [.arrow [.quantified "f"] (.concrete ⟨.quantified "v", .empty, .empty⟩), .reads "x"]
      (.quantified "g")
    let T : Substitution := ⟨[⟨"f", .effect .empty⟩, ⟨"v", .variables (.concrete (.singleton "x"))⟩,
      ⟨"g", .effect (.arrow [.empty] (.reads "x"))⟩, ⟨"e", .effect (.arrow [.empty] (.reads "x"))⟩]⟩
    let C : Effect := .arrow [.arrow [.empty] (.reads "x"), .reads "x"]
      (.arrow [.empty] (.reads "x"))
    A.UnionFree ∧ B.UnionFree ∧ (Vocabulary.usedIn [A, B]).Separate ∧ T.apply A = .ok C ∧
      T.apply B = .ok C ∧
      ∃ σ, A.unify B = .ok σ ∧ (∃ D, σ.apply A = .ok D ∧ σ.apply B = .ok D) ∧
        (∀ name value, σ.get? name = some value →
          ∃ result, T.applyToTerm value = .ok result ∧
            T.applyToTerm (value.kind.quantified name) = .ok result) ∧
        ∀ effect after result, effect.UnionFree → σ.apply effect = .ok after →
          T.apply effect = .ok result → T.apply after = .ok result := by
  intro A B T C
  have free : A.UnionFree := by decide
  have free' : B.UnionFree := by decide
  have separate : (Vocabulary.usedIn [A, B]).Separate := by decide
  have onLeft : T.apply A = .ok C := by decide
  have onRight : T.apply B = .ok C := by decide
  exact ⟨free, free', separate, onLeft, onRight,
    unifier_is_most_general free free' separate T onLeft onRight⟩

end Effect

end SpecEffects
