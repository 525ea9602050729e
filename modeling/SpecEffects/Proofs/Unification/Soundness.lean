import SpecEffects.Proofs.Unification.Steps

/-!
What unification finds makes both sides equal. A substitution that is composed on top of another
keeps every equation that the other one solves, so pieces stay solved while later pieces are worked
on. Canonical form makes a union equal to a concrete set as soon as its members are.
-/
namespace SpecEffects

namespace Substitution

variable {σ new existing composed : Substitution}

/-- Wherever the substitution can be applied to both terms, the results are the same. -/
def Equates (σ : Substitution) (left right : Term) : Prop :=
  ∀ left' right', σ.applyToTerm left = .ok left' → σ.applyToTerm right = .ok right' → left' = right'

theorem equates_self (σ : Substitution) (term : Term) : σ.Equates term term := by
  intro left right first second
  exact Except.ok.inj (first.symm.trans second)

theorem equates_symm {left right : Term} (equal : σ.Equates left right) : σ.Equates right left := by
  intro right' left' second first
  exact (equal left' right' first second).symm

theorem equates_compose (news : new.Canonical) (olds : existing.Canonical)
    (run : new.compose existing = .ok composed) {left right : Term}
    (after : ∀ left' right', existing.applyToTerm left = .ok left' →
      existing.applyToTerm right = .ok right' → new.Equates left' right') :
    composed.Equates left right := by
  intro last last' onLeft onRight
  obtain ⟨left', first, second⟩ := (applyToTerm_compose news olds run).mp onLeft
  obtain ⟨right', first', second'⟩ := (applyToTerm_compose news olds run).mp onRight
  exact after left' right' first first' last last' second second'

theorem equates_kept (news : new.Canonical) (olds : existing.Canonical)
    (run : new.compose existing = .ok composed) {left right : Term}
    (equal : existing.Equates left right) : composed.Equates left right := by
  apply equates_compose news olds run
  intro left' right' first first'
  rw [equal left' right' first first']
  exact equates_self new right'

theorem get?_single (name other : String) (value : Term) :
    (single name value).get? other = if name = other then some value else none := by
  by_cases same : name = other <;> simp [single, get?, find?, same]

theorem everySet_empty {P : VariableSet → Prop} : (∅ : Substitution).EverySet P :=
  fun _ member => nomatch member

theorem everySet_single {P : VariableSet → Prop} {name : String} {value : Term}
    (every : value.EverySet P) : (single name value).EverySet P := by
  intro binding member
  cases List.mem_singleton.mp member
  exact every

theorem over_empty {V : Vocabulary} : (∅ : Substitution).Over V := fun _ member => nomatch member

theorem over_single {V : Vocabulary} {name : String} {value : Term} (key : V value.kind name)
    (within : value.Over V) : (single name value).Over V := by
  intro binding member
  cases List.mem_singleton.mp member
  exact ⟨key, within⟩

theorem equates_single {name : String} {value : Term} (canonical : value.Canonical)
    (unused : ∀ kind, ¬ value.Uses kind name) :
    (single name value).Equates (value.kind.quantified name) value := by
  have stays : (single name value).applyToTerm value = .ok value := by
    apply applyToTerm_self canonical
    intro kind other used
    rw [get?_single, if_neg]
    intro same
    subst same
    exact unused kind used
  have bound : (single name value).get? name = some value := by
    rw [get?_single, if_pos rfl]
  intro left right first second
  rw [(applyToTerm_quantified.mp first).2, valueAt_of_get? bound]
  exact Except.ok.inj (stays.symm.trans second)

end Substitution

namespace Unification

open Substitution

variable {σ : Substitution}

theorem Split.everySet {P : VariableSet → Prop}
    (members : ∀ {sets set}, P (.union sets) → set ∈ sets → P set) {left right : Term}
    {pieces : List (Term × Term)} (split : Split left right pieces) (every : left.EverySet P)
    (every' : right.EverySet P) :
    ∀ piece ∈ pieces, piece.1.EverySet P ∧ piece.2.EverySet P := by
  intro piece member
  cases split with
  | footprints expected actual =>
    obtain ⟨component, _, rfl⟩ := List.mem_map.mp member
    exact ⟨Effect.everySet_concrete.mp every component,
      Effect.everySet_concrete.mp every' component⟩
  | arrows result result' arity =>
    obtain ⟨inputs, output⟩ := Effect.everySet_arrow.mp every
    obtain ⟨inputs', output'⟩ := Effect.everySet_arrow.mp every'
    rcases List.mem_append.mp member with front | last
    · obtain ⟨pair, paired, rfl⟩ := List.mem_map.mp front
      exact ⟨inputs pair.1 (List.of_mem_zip paired).1, inputs' pair.2 (List.of_mem_zip paired).2⟩
    · cases List.mem_singleton.mp last
      exact ⟨output, output'⟩
  | unionLeft sets vars =>
    obtain ⟨set, present, rfl⟩ := List.mem_map.mp member
    exact ⟨members every present, every'⟩
  | unionRight vars sets =>
    obtain ⟨set, present, rfl⟩ := List.mem_map.mp member
    exact ⟨every, members every' present⟩

theorem Split.within {V : Vocabulary} {left right : Term} {pieces : List (Term × Term)}
    (split : Split left right pieces) (within : left.Over V) (within' : right.Over V) :
    ∀ piece ∈ pieces, piece.1.Over V ∧ piece.2.Over V := by
  intro piece member
  cases split with
  | footprints expected actual =>
    obtain ⟨component, _, rfl⟩ := List.mem_map.mp member
    exact ⟨fun kind name used => within kind name (Effect.uses_concrete.mpr ⟨component, used⟩),
      fun kind name used => within' kind name (Effect.uses_concrete.mpr ⟨component, used⟩)⟩
  | arrows result result' arity =>
    rcases List.mem_append.mp member with front | last
    · obtain ⟨pair, paired, rfl⟩ := List.mem_map.mp front
      obtain ⟨onLeft, onRight⟩ := List.of_mem_zip paired
      exact ⟨fun kind name used =>
          within kind name (Effect.uses_arrow.mpr (.inl ⟨_, onLeft, used⟩)),
        fun kind name used => within' kind name (Effect.uses_arrow.mpr (.inl ⟨_, onRight, used⟩))⟩
    · cases List.mem_singleton.mp last
      exact ⟨fun kind name used => within kind name (Effect.uses_arrow.mpr (.inr used)),
        fun kind name used => within' kind name (Effect.uses_arrow.mpr (.inr used))⟩
  | unionLeft sets vars =>
    obtain ⟨set, present, rfl⟩ := List.mem_map.mp member
    exact ⟨fun kind name used => within kind name (VariableSet.uses_union.mpr ⟨set, present, used⟩),
      within'⟩
  | unionRight vars sets =>
    obtain ⟨set, present, rfl⟩ := List.mem_map.mp member
    exact ⟨within, fun kind name used =>
      within' kind name (VariableSet.uses_union.mpr ⟨set, present, used⟩)⟩

theorem equates_union {sets : List VariableSet} {vars : NameSet}
    (canonical : (VariableSet.union sets).Canonical)
    (each : ∀ set ∈ sets, σ.Equates (.variables set) (.variables (.concrete vars))) :
    σ.Equates (.variables (.union sets)) (.variables (.concrete vars)) := by
  intro left right first second
  obtain ⟨after, inside, rfl⟩ := applyToTerm_variables.mp first
  obtain ⟨results, parts, rfl⟩ := applyToVariables_union.mp inside
  cases second
  have equal : ∀ result ∈ results, result = .concrete vars := by
    intro result member
    obtain ⟨set, present, part⟩ := forall₂_mem_right parts member
    have same := each set present _ _ (applyToTerm_variables.mpr ⟨result, part, rfl⟩) rfl
    exact Term.variables.inj same
  obtain ⟨first, present⟩ : ∃ set, set ∈ results := by
    have size := canonical.1
    rw [parts.length_eq] at size
    exact List.exists_mem_of_length_pos (by omega)
  have joined : VariableSet.join results = .concrete vars := by
    have plain : (VariableSet.concrete vars).Canonical := trivial
    apply VariableSet.canonical_ext (VariableSet.canonical_join results) plain
    · intro name
      rw [VariableSet.mem_quantifiedNames_join]
      constructor
      · rintro ⟨result, member, used⟩
        rwa [equal result member] at used
      · intro used
        exact absurd used (SortedSet.not_mem_empty name)
    · intro var
      rw [VariableSet.mem_concreteNames_join]
      constructor
      · rintro ⟨result, member, used⟩
        rwa [equal result member] at used
      · intro used
        exact ⟨first, present, by rwa [equal first present]⟩
  rw [joined]

theorem equates_params {params params' inputs inputs' : List Effect}
    (arity : params.length = params'.length)
    (each : ∀ pair ∈ params.zip params', σ.Equates (.effect pair.1) (.effect pair.2))
    (first : List.Forall₂ (fun param after => σ.apply param = .ok after) params inputs)
    (second : List.Forall₂ (fun param after => σ.apply param = .ok after) params' inputs') :
    inputs = inputs' := by
  induction first generalizing params' inputs' with
  | nil =>
    cases List.length_eq_zero_iff.mp arity.symm
    cases second
    rfl
  | cons head _ ih =>
    cases second with
    | nil => cases arity
    | cons head' tail' =>
      have here := each _ List.mem_cons_self _ _ (applyToTerm_effect.mpr ⟨_, head, rfl⟩)
        (applyToTerm_effect.mpr ⟨_, head', rfl⟩)
      have later := ih (Nat.succ.inj arity)
        (fun pair member => each pair (List.mem_cons_of_mem _ member)) tail'
      rw [Term.effect.inj here, later]

theorem Split.equates {left right : Term} {pieces : List (Term × Term)}
    (split : Split left right pieces) (canonical : left.Canonical) (canonical' : right.Canonical)
    (each : ∀ piece ∈ pieces, σ.Equates piece.1 piece.2) :
    σ.Equates left right := by
  cases split with
  | footprints expected actual =>
    intro left right first second
    obtain ⟨_, inside, rfl⟩ := applyToTerm_effect.mp first
    obtain ⟨_, inside', rfl⟩ := applyToTerm_effect.mp second
    obtain ⟨after, slots, rfl⟩ := (apply_concrete (Effect.everySet_concrete.mp canonical)).mp inside
    obtain ⟨after', slots', rfl⟩ :=
      (apply_concrete (Effect.everySet_concrete.mp canonical')).mp inside'
    have same : after = after' := by
      apply Footprint.ext_get
      intro component
      have present : component ∈ Component.all := by cases component <;> decide
      have equal := each _ (List.mem_map_of_mem present)
      exact Term.variables.inj (equal _ _ (applyToTerm_variables.mpr ⟨_, slots component, rfl⟩)
        (applyToTerm_variables.mpr ⟨_, slots' component, rfl⟩))
    rw [same]
  | @arrows params params' result result' arity =>
    intro left right first second
    obtain ⟨_, inside, rfl⟩ := applyToTerm_effect.mp first
    obtain ⟨_, inside', rfl⟩ := applyToTerm_effect.mp second
    obtain ⟨inputs, output, each_input, last, rfl⟩ := apply_arrow.mp inside
    obtain ⟨inputs', output', each_input', last', rfl⟩ := apply_arrow.mp inside'
    have front : inputs = inputs' := by
      apply equates_params arity _ each_input each_input'
      intro pair paired
      exact each _ (List.mem_append_left _ (List.mem_map_of_mem paired))
    have back := each (.effect result, .effect result')
      (List.mem_append_right _ List.mem_cons_self) _ _
      (applyToTerm_effect.mpr ⟨_, last, rfl⟩) (applyToTerm_effect.mpr ⟨_, last', rfl⟩)
    rw [front, Term.effect.inj back]
  | unionLeft sets vars =>
    apply equates_union canonical
    intro set member
    exact each _ (List.mem_map_of_mem member)
  | unionRight vars sets =>
    apply equates_symm
    apply equates_union canonical'
    intro set member
    exact equates_symm (each _ (List.mem_map_of_mem member))

def Sound (left right : Term) (σ : Substitution) : Prop :=
  left.Canonical → right.Canonical → σ.Canonical ∧ σ.Equates left right

theorem InTurn.sound {pieces : List (Term × Term)} {σ last : Substitution}
    (run : InTurn Sound σ pieces last) (known : σ.Canonical)
    (canonical : ∀ piece ∈ pieces, piece.1.Canonical ∧ piece.2.Canonical) :
    last.Canonical ∧ (∀ piece ∈ pieces, last.Equates piece.1 piece.2) ∧
      ∀ left right, σ.Equates left right → last.Equates left right := by
  induction run with
  | nil σ => exact ⟨known, fun _ member => (nomatch member), fun _ _ equal => equal⟩
  | cons applied applied' solved added _ ih =>
    obtain ⟨onLeft, onRight⟩ := canonical _ List.mem_cons_self
    obtain ⟨learned, equal⟩ := solved (canonical_applyToTerm known onLeft applied)
      (canonical_applyToTerm known onRight applied')
    obtain ⟨done, later, kept⟩ := ih (canonical_compose learned known added)
      fun piece member => canonical piece (List.mem_cons_of_mem _ member)
    refine ⟨done, ?_, fun left right old => kept left right (equates_kept learned known added old)⟩
    intro piece member
    rcases List.mem_cons.mp member with rfl | member
    · apply kept
      apply equates_compose learned known added
      intro left' right' first second
      rw [← Except.ok.inj (applied.symm.trans first), ← Except.ok.inj (applied'.symm.trans second)]
      exact equal
    · exact later piece member

theorem Layer.sound {left right : Term} {σ : Substitution} (layer : Layer Sound left right σ) :
    Sound left right σ := by
  intro canonical canonical'
  cases layer with
  | same term => exact ⟨everySet_empty, equates_self ∅ _⟩
  | bindLeft name value unused =>
    exact ⟨everySet_single canonical', equates_single canonical' unused⟩
  | bindRight name value unused =>
    exact ⟨everySet_single canonical, equates_symm (equates_single canonical unused)⟩
  | pieces split run =>
    obtain ⟨done, each, _⟩ := run.sound everySet_empty 
      (split.everySet VariableSet.canonical_member canonical canonical')
    exact ⟨done, split.equates canonical canonical' each⟩

def Local (left right : Term) (σ : Substitution) : Prop :=
  ∀ V : Vocabulary, left.Over V → right.Over V → σ.Over V

theorem InTurn.within {V : Vocabulary} {pieces : List (Term × Term)} {σ last : Substitution}
    (run : InTurn Local σ pieces last) (known : σ.Over V)
    (within : ∀ piece ∈ pieces, piece.1.Over V ∧ piece.2.Over V) : last.Over V := by
  induction run with
  | nil σ => exact known
  | cons applied applied' solved added _ ih =>
    obtain ⟨onLeft, onRight⟩ := within _ List.mem_cons_self
    have learned := solved V (over_applyToTerm known.values onLeft applied)
      (over_applyToTerm known.values onRight applied')
    exact ih (over_compose learned known added) fun piece member =>
      within piece (List.mem_cons_of_mem _ member)

theorem Layer.isLocal {left right : Term} {σ : Substitution} (layer : Layer Local left right σ) :
    Local left right σ := by
  intro V within within'
  cases layer with
  | same term => exact over_empty
  | bindLeft name value unused =>
    exact over_single (within _ _ (Term.uses_quantified.mpr ⟨rfl, rfl⟩)) within'
  | bindRight name value unused =>
    exact over_single (within' _ _ (Term.uses_quantified.mpr ⟨rfl, rfl⟩)) within
  | pieces split run => exact run.within over_empty (split.within within within')

def KeepsSets (P : VariableSet → Prop) (left right : Term) (σ : Substitution) : Prop :=
  left.EverySet P → right.EverySet P → σ.EverySet P

section KeepsSets

variable {P : VariableSet → Prop}
  (applied : ∀ {σ : Substitution} {set result}, σ.EverySet P → P set →
    σ.applyToVariables set = .ok result → P result)
  (members : ∀ {sets set}, P (.union sets) → set ∈ sets → P set)

include applied

theorem InTurn.keepsSets {pieces : List (Term × Term)} {σ last : Substitution}
    (run : InTurn (KeepsSets P) σ pieces last) (known : σ.EverySet P)
    (every : ∀ piece ∈ pieces, piece.1.EverySet P ∧ piece.2.EverySet P) : last.EverySet P := by
  induction run with
  | nil σ => exact known
  | cons onLeft onRight solved added _ ih =>
    obtain ⟨every_left, every_right⟩ := every _ List.mem_cons_self
    have learned := solved (everySet_applyToTerm known (applied known) every_left onLeft)
      (everySet_applyToTerm known (applied known) every_right onRight)
    exact ih (everySet_compose learned (applied learned) known added)
      fun piece member => every piece (List.mem_cons_of_mem _ member)

include members

theorem Layer.keepsSets {left right : Term} {σ : Substitution}
    (layer : Layer (KeepsSets P) left right σ) : KeepsSets P left right σ := by
  intro every every'
  cases layer with
  | same term => exact everySet_empty
  | bindLeft name value unused => exact everySet_single every'
  | bindRight name value unused => exact everySet_single every
  | pieces split run =>
    exact run.keepsSets applied everySet_empty (split.everySet members every every')

end KeepsSets

end Unification

namespace Effect

open Substitution

variable {A B : Effect} {σ : Substitution}

theorem unify_canonical (canonical : A.Canonical) (canonical' : B.Canonical)
    (run : A.unify B = .ok σ) : σ.Canonical ∧ σ.Equates (.effect A) (.effect B) :=
  Unification.solve_solved Unification.Layer.sound run canonical canonical'

theorem unify_over {V : Vocabulary} (within : A.Over V) (within' : B.Over V)
    (run : A.unify B = .ok σ) : σ.Over V :=
  Unification.solve_solved Unification.Layer.isLocal run V within within'

theorem unify_everySet {P : VariableSet → Prop}
    (applied : ∀ {σ : Substitution} {set result}, σ.EverySet P → P set →
      σ.applyToVariables set = .ok result → P result)
    (members : ∀ {sets set}, P (.union sets) → set ∈ sets → P set)
    (every : A.EverySet P) (every' : B.EverySet P) (run : A.unify B = .ok σ) : σ.EverySet P :=
  Unification.solve_solved (Unification.Layer.keepsSets applied members) run every every'

theorem unify_equal (canonical : A.Canonical) (canonical' : B.Canonical) (run : A.unify B = .ok σ)
    {A' B' : Effect} (first : σ.apply A = .ok A') (second : σ.apply B = .ok B') : A' = B' := by
  obtain ⟨_, equal⟩ := unify_canonical canonical canonical' run
  exact Term.effect.inj (equal _ _ (applyToTerm_effect.mpr ⟨A', first, rfl⟩)
    (applyToTerm_effect.mpr ⟨B', second, rfl⟩))

theorem exists_unified (canonical : A.Canonical) (canonical' : B.Canonical)
    (separate : (Vocabulary.usedIn [A, B]).Separate) (run : A.unify B = .ok σ) :
    ∃ C, σ.apply A = .ok C ∧ σ.apply B = .ok C := by
  have within : A.Over (Vocabulary.usedIn [A, B]) := fun kind name used => ⟨A, by simp, used⟩
  have within' : B.Over (Vocabulary.usedIn [A, B]) := fun kind name used => ⟨B, by simp, used⟩
  have bounded := unify_over within within' run
  obtain ⟨A', first⟩ := exists_apply.mpr fun kind name used =>
    allows_of_over bounded separate (within kind name used)
  obtain ⟨B', second⟩ := exists_apply.mpr fun kind name used =>
    allows_of_over bounded separate (within' kind name used)
  refine ⟨A', first, ?_⟩
  rw [second, unify_equal canonical canonical' run first second]

/-- Where the solution can be applied to both effects it makes them equal, and it can be applied
when no name stands for an effect here and for a set of variables there. -/
theorem unifier_makes_equal (canonical : A.Canonical) (canonical' : B.Canonical)
    (run : A.unify B = .ok σ) :
    (∀ A' B', σ.apply A = .ok A' → σ.apply B = .ok B' → A' = B') ∧
    ((Vocabulary.usedIn [A, B]).Separate → ∃ C, σ.apply A = .ok C ∧ σ.apply B = .ok C) := by
  constructor
  · intro A' B' first second
    exact unify_equal canonical canonical' run first second
  · intro separate
    exact exists_unified canonical canonical' separate run

/-- A union shrinks to the set that one of its names is bound to, and this binding reaches the value
of a name that is bound later. -/
theorem unifier_of_shrinking_union :
    let A : Effect := .arrow
      [.concrete ⟨.union [.quantified "v", .concrete (.singleton "x")], .empty, .quantified "w"⟩]
      (.quantified "e")
    let B : Effect := .arrow [.reads "x"]
      (.arrow [.reads "y"] (.concrete ⟨.quantified "v", .empty, .empty⟩))
    let σ : Substitution := ⟨[⟨"v", .variables (.concrete (.singleton "x"))⟩,
      ⟨"w", .variables .empty⟩, ⟨"e", .effect (.arrow [.reads "y"] (.reads "x"))⟩]⟩
    A.Canonical ∧ B.Canonical ∧ A.unify B = .ok σ ∧ (Vocabulary.usedIn [A, B]).Separate ∧
      ∃ C, σ.apply A = .ok C ∧ σ.apply B = .ok C := by
  intro A B σ
  have canonical : A.Canonical := by decide
  have canonical' : B.Canonical := by decide
  have run : A.unify B = .ok σ := by decide
  have separate : (Vocabulary.usedIn [A, B]).Separate := by decide
  exact ⟨canonical, canonical', run, separate,
    (unifier_makes_equal canonical canonical' run).2 separate⟩

end Effect

end SpecEffects
