import SpecEffects.Proofs.Renaming
import SpecEffects.Proofs.Unification.MostGeneral

/-!
Applying an operator. The results of operators may have unions, so what is said about unification in
general does not hold of them. But what an application asks for has a new name as its result. Where
the parameters can be made equal to the arguments, a solution is therefore found.

An operator is determined by its arguments when its parameters have no unions and its result uses no
other names than they do. Then its instances with the same arguments have the same result.
-/
namespace SpecEffects

theorem forall₂_both {α β : Type} {R S : α → β → Prop} {as : List α} {bs : List β}
    (first : List.Forall₂ R as bs) (second : List.Forall₂ S as bs) :
    List.Forall₂ (fun a b => R a b ∧ S a b) as bs := by
  induction first with
  | nil => exact .nil
  | cons head _ ih =>
    cases second with
    | cons head' tail' => exact .cons ⟨head, head'⟩ (ih tail')

namespace Substitution

variable {σ τ : Substitution}

theorem applyToVariables_congr {set result result' : VariableSet}
    (same : ∀ kind name, set.Uses kind name → σ.valueAt kind name = τ.valueAt kind name)
    (run : σ.applyToVariables set = .ok result) (run' : τ.applyToVariables set = .ok result') :
    result = result' := by
  induction set generalizing result result' with
  | concrete vars =>
    cases run
    cases run'
    rfl
  | quantified name =>
    have value := same .variables name (VariableSet.uses_quantified.mpr ⟨rfl, rfl⟩)
    rw [applyToVariables_quantified.mp run, applyToVariables_quantified.mp run'] at value
    exact Term.variables.inj value
  | union sets ih =>
    obtain ⟨results, each, rfl⟩ := applyToVariables_union.mp run
    obtain ⟨results', each', rfl⟩ := applyToVariables_union.mp run'
    have equal := forall₂_combine (Q := Eq) (fun set member _ _ => ih set member fun kind name used =>
      same kind name (VariableSet.uses_union.mpr ⟨set, member, used⟩)) each each'
    rw [List.forall₂_eq_eq_eq] at equal
    rw [equal]

theorem apply_congr {effect result result' : Effect} (canonical : effect.Canonical)
    (same : ∀ kind name, effect.Uses kind name → σ.valueAt kind name = τ.valueAt kind name)
    (run : σ.apply effect = .ok result) (run' : τ.apply effect = .ok result') : result = result' := by
  induction effect generalizing result result' with
  | concrete footprint =>
    have slots := Effect.everySet_concrete.mp canonical
    obtain ⟨after, each, rfl⟩ := (apply_concrete slots).mp run
    obtain ⟨after', each', rfl⟩ := (apply_concrete slots).mp run'
    refine congrArg Effect.concrete (Footprint.ext_get fun component => ?_)
    exact applyToVariables_congr (fun kind name used =>
      same kind name (Effect.uses_concrete.mpr ⟨component, used⟩)) (each component) (each' component)
  | quantified name =>
    have value := same .effect name (Effect.uses_quantified.mpr ⟨rfl, rfl⟩)
    rw [apply_quantified.mp run, apply_quantified.mp run'] at value
    exact Term.effect.inj value
  | arrow params output inputs last =>
    obtain ⟨canonical_params, canonical_output⟩ := Effect.everySet_arrow.mp canonical
    obtain ⟨results, result, each, out, rfl⟩ := apply_arrow.mp run
    obtain ⟨results', result', each', out', rfl⟩ := apply_arrow.mp run'
    have equal := forall₂_combine (Q := Eq) (fun param member _ _ =>
      inputs param member (canonical_params param member) fun kind name used =>
        same kind name (Effect.uses_arrow.mpr (Or.inl ⟨param, member, used⟩))) each each'
    rw [List.forall₂_eq_eq_eq] at equal
    rw [equal, last canonical_output (fun kind name used =>
      same kind name (Effect.uses_arrow.mpr (Or.inr used))) out out']

theorem valueAt_eq_of_apply {effect result : Effect} (free : effect.UnionFree)
    (run : σ.apply effect = .ok result) (run' : τ.apply effect = .ok result) {kind : Kind}
    {name : String} (used : effect.Uses kind name) : σ.valueAt kind name = τ.valueAt kind name := by
  induction effect generalizing result with
  | concrete footprint =>
    have slots := Effect.everySet_concrete.mp free
    have canonical := fun component => (slots component).canonical
    obtain ⟨after, each, rfl⟩ := (apply_concrete canonical).mp run
    obtain ⟨after', each', same⟩ := (apply_concrete canonical).mp run'
    cases same
    obtain ⟨component, used⟩ := Effect.uses_concrete.mp used
    have slot := slots component
    have first := each component
    have second := each' component
    generalize footprint.get component = set at used slot first second
    cases set with
    | concrete vars => exact (VariableSet.uses_concrete used).elim
    | quantified other =>
      obtain ⟨rfl, rfl⟩ := VariableSet.uses_quantified.mp used
      rw [applyToVariables_quantified.mp first, applyToVariables_quantified.mp second]
    | union sets => exact slot.elim
  | quantified other =>
    obtain ⟨rfl, rfl⟩ := Effect.uses_quantified.mp used
    rw [apply_quantified.mp run, apply_quantified.mp run']
  | arrow params output inputs last =>
    obtain ⟨free_params, free_output⟩ := Effect.everySet_arrow.mp free
    obtain ⟨results, result, each, out, rfl⟩ := apply_arrow.mp run
    obtain ⟨results', result', each', out', same⟩ := apply_arrow.mp run'
    cases same
    rcases Effect.uses_arrow.mp used with ⟨param, member, used⟩ | used
    · have both : List.Forall₂ (fun param result => σ.apply param = .ok result ∧
          τ.apply param = .ok result) params results := forall₂_both each each'
      obtain ⟨after, _, first, second⟩ := forall₂_mem_left both member
      exact inputs param member (free_params param member) first second used
    · exact last free_output out out' used

def behind (θ : Substitution) (ρ : String → String) (names : List (Kind × String)) : Substitution :=
  ⟨names.map fun entry => ⟨ρ entry.2, θ.valueAt entry.1 entry.2⟩⟩

theorem valueAt_behind {θ : Substitution} {ρ : String → String} {names : List (Kind × String)}
    (apart : ∀ first ∈ names, ∀ second ∈ names, ρ first.2 = ρ second.2 → first = second)
    {kind : Kind} {name : String} (member : (kind, name) ∈ names) :
    (θ.behind ρ names).valueAt kind (ρ name) = θ.valueAt kind name := by
  refine valueAt_of_get? ?_
  induction names with
  | nil => cases member
  | cons first rest ih =>
    by_cases same : ρ first.2 = ρ name
    · cases apart first List.mem_cons_self (kind, name) member same
      simp [behind, get?, find?]
    · have later : (kind, name) ∈ rest := by
        rcases List.mem_cons.mp member with rfl | later
        · exact absurd rfl same
        · exact later
      have found := ih (fun first member second member' => apart first
        (List.mem_cons_of_mem _ member) second (List.mem_cons_of_mem _ member')) later
      simpa [behind, get?, find?, same] using found

theorem apply_behind {ρ : String → String} {effect result : Effect} (free : effect.UnionFree)
    (same : ∀ kind name, effect.Uses kind name → τ.valueAt kind (ρ name) = σ.valueAt kind name)
    (run : σ.apply effect = .ok result) : τ.apply (effect.rename ρ) = .ok result := by
  induction effect generalizing result with
  | concrete footprint =>
    have slots := Effect.everySet_concrete.mp free
    obtain ⟨after, each, rfl⟩ := (apply_concrete fun component => (slots component).canonical).mp run
    refine (apply_concrete fun component => ?_).mpr ⟨after, fun component => ?_, rfl⟩
    · rw [Effect.get_rename]
      exact VariableSet.canonical_rename ρ _
    · rw [Effect.get_rename]
      have slot := slots component
      have before := each component
      have values := fun kind name used =>
        same kind name (Effect.uses_concrete.mpr ⟨component, used⟩)
      generalize footprint.get component = set at slot before values
      cases set with
      | concrete vars => exact before
      | quantified name =>
        refine applyToVariables_quantified.mpr ?_
        rw [values .variables name (VariableSet.uses_quantified.mpr ⟨rfl, rfl⟩)]
        exact applyToVariables_quantified.mp before
      | union sets => exact slot.elim
  | quantified name =>
    refine apply_quantified.mpr ?_
    rw [same .effect name (Effect.uses_quantified.mpr ⟨rfl, rfl⟩)]
    exact apply_quantified.mp run
  | arrow params output inputs last =>
    obtain ⟨free_params, free_output⟩ := Effect.everySet_arrow.mp free
    obtain ⟨results, result, each, out, rfl⟩ := apply_arrow.mp run
    rw [Effect.rename_arrow]
    refine apply_arrow.mpr ⟨results, result, ?_, last free_output (fun kind name used =>
      same kind name (Effect.uses_arrow.mpr (Or.inr used))) out, rfl⟩
    rw [List.forall₂_map_left_iff]
    have parts := List.forall₂_iff_zip.mp each
    refine List.forall₂_iff_zip.mpr ⟨parts.1, fun {param after} member => ?_⟩
    have present := (List.of_mem_zip member).1
    exact inputs param present (free_params param present) (fun kind name used =>
      same kind name (Effect.uses_arrow.mpr (Or.inl ⟨param, present, used⟩))) (parts.2 member)

end Substitution

namespace Effect

open Substitution Unification

def usedNames (effect : Effect) : List (Kind × String) :=
  effect.effectNames.toList.map (Kind.effect, ·) ++ effect.variableNames.toList.map (Kind.variables, ·)

theorem mem_usedNames {effect : Effect} {kind : Kind} {name : String} :
    (kind, name) ∈ effect.usedNames ↔ effect.Uses kind name := by
  cases kind <;> simp only [usedNames, List.mem_append, List.mem_map, Prod.mk.injEq, reduceCtorEq,
    true_and, false_and, exists_eq_right, exists_false, and_false, or_false, false_or] <;> rfl

theorem valueAt_behind_usedNames {effect : Effect} {ρ : String → String}
    (injective : (Vocabulary.usedIn [effect]).Injective ρ)
    (separate : (Vocabulary.usedIn [effect]).Separate) (θ : Substitution) {kind : Kind}
    {name : String} (used : effect.Uses kind name) :
    (θ.behind ρ effect.usedNames).valueAt kind (ρ name) = θ.valueAt kind name := by
  refine valueAt_behind ?_ (mem_usedNames.mpr used)
  rintro ⟨kind, name⟩ member ⟨kind', name'⟩ member' same
  have first : Vocabulary.usedIn [effect] kind name :=
    ⟨effect, List.mem_singleton_self effect, mem_usedNames.mp member⟩
  have second : Vocabulary.usedIn [effect] kind' name' :=
    ⟨effect, List.mem_singleton_self effect, mem_usedNames.mp member'⟩
  cases injective first second same
  rw [separate.kind_eq first second]

theorem unionFree_rename {effect : Effect} (free : effect.UnionFree) (ρ : String → String) :
    (effect.rename ρ).UnionFree := by
  induction effect with
  | concrete footprint =>
    refine .concrete fun component => ?_
    rw [get_rename]
    have slot := everySet_concrete.mp free component
    generalize footprint.get component = set at slot
    cases set with
    | concrete vars => trivial
    | quantified name => trivial
    | union sets => exact slot.elim
  | quantified name => exact .quantified _
  | arrow params result inputs last =>
    obtain ⟨free_params, free_result⟩ := everySet_arrow.mp free
    rw [rename_arrow]
    refine .arrow (fun param member => ?_) (last free_result)
    obtain ⟨old, present, rfl⟩ := List.mem_map.mp member
    exact inputs old present (free_params old present)

def Closed (effect : Effect) : Prop := effect.Over fun _ _ => False

variable {effect : Effect}

theorem Closed.separate (closed : effect.Closed) : (Vocabulary.usedIn [effect]).Separate := by
  rintro name ⟨_, member, used⟩ _
  cases List.mem_singleton.mp member
  exact closed .effect name used

theorem unionFree_of_closed (canonical : effect.Canonical) (closed : effect.Closed) :
    effect.UnionFree := by
  induction effect with
  | concrete footprint =>
    refine .concrete fun component => ?_
    have slot := Effect.everySet_concrete.mp canonical component
    have unused : ∀ name, ¬ (footprint.get component).Uses .variables name := fun name used =>
      closed .variables name (uses_concrete.mpr ⟨component, used⟩)
    generalize footprint.get component = set at slot unused
    cases set with
    | concrete vars => trivial
    | quantified name => trivial
    | union sets =>
      obtain ⟨_, names, vars, some, rfl⟩ := slot
      have none : names.isEmpty = true := SortedSet.isEmpty_iff.mpr fun name present =>
        unused name ⟨rfl, VariableSet.mem_quantifiedNames_union.mpr
          (VariableSet.mem_quantifiedNames_members.mpr present)⟩
      cases some.symm.trans none
  | quantified name => exact .quantified name
  | arrow params result inputs last =>
    obtain ⟨canonical_params, canonical_result⟩ := everySet_arrow.mp canonical
    refine .arrow (fun param member => ?_) (last canonical_result fun kind name used =>
      closed kind name (uses_arrow.mpr (Or.inr used)))
    exact inputs param member (canonical_params param member) fun kind name used =>
      closed kind name (uses_arrow.mpr (Or.inl ⟨param, member, used⟩))

theorem Closed.apply_self (closed : effect.Closed) (canonical : effect.Canonical)
    (σ : Substitution) : σ.apply effect = .ok effect :=
  Substitution.apply_self canonical fun kind name used => (closed kind name used).elim

theorem eq_of_apply_closed {σ : Substitution} {effects effects' : List Effect}
    (each : ∀ effect ∈ effects, effect.Closed ∧ effect.Canonical)
    (run : List.Forall₂ (fun effect after => σ.apply effect = .ok after) effects effects') :
    effects' = effects := by
  induction run with
  | nil => rfl
  | cons head _ ih =>
    obtain ⟨closed, canonical⟩ := each _ List.mem_cons_self
    cases (closed.apply_self canonical σ).symm.trans head
    rw [ih fun effect member => each effect (List.mem_cons_of_mem _ member)]

theorem Closed.rename_self (closed : effect.Closed) (canonical : effect.Canonical)
    (ρ : String → String) : effect.rename ρ = effect := by
  rw [rename_congr fun kind name used => (closed kind name used).elim, rename_id canonical]

theorem solve_new {name : String} (new : ∀ kind, ¬ effect.Uses kind name) (names : Nat) :
    ∃ σ, solve names effect (.quantified name) = .ok σ := by
  have bound : ∀ further, ∃ σ, solveWith further effect (.quantified name) = .ok σ := by
    intro further
    cases effect with
    | quantified other =>
      have different : name ≠ other := fun same => new .effect (uses_quantified.mpr ⟨rfl, same⟩)
      rw [solveWith, if_neg fun same => different (quantified.inj same)]
      refine ⟨_, bind_effect_eq_ok.mpr ⟨fun kind used => ?_, rfl⟩⟩
      exact different (uses_quantified.mp used).2.symm
    | concrete footprint =>
      simp only [solveWith]
      exact ⟨_, bind_effect_eq_ok.mpr ⟨new, rfl⟩⟩
    | arrow params result =>
      simp only [solveWith]
      exact ⟨_, bind_effect_eq_ok.mpr ⟨new, rfl⟩⟩
  cases names with
  | zero => exact bound _
  | succ names => exact bound _

section Application

variable {params args inputs : List Effect} {result : Effect} {name : String}

/-- Only the parameters have to be made equal to the arguments. -/
theorem unify_application (T : Substitution) (free : ∀ param ∈ params, param.UnionFree)
    (free' : ∀ arg ∈ args, arg.UnionFree)
    (separate : (Vocabulary.usedIn [.arrow params result, .arrow args (.quantified name)]).Separate)
    (new : ∀ kind, ¬ (Effect.arrow params result).Uses kind name)
    (new' : ∀ arg ∈ args, ∀ kind, ¬ arg.Uses kind name)
    (first : List.Forall₂ (fun param input => T.apply param = .ok input) params inputs)
    (second : List.Forall₂ (fun arg input => T.apply arg = .ok input) args inputs) :
    ∃ σ, (Effect.arrow params result).unify (.arrow args (.quantified name)) = .ok σ := by
  let V := Vocabulary.usedIn (params ++ args)
  let W := Vocabulary.usedIn [.arrow params result, .arrow args (.quantified name)]
  have part : ∀ kind other, V kind other → W kind other := by
    rintro kind other ⟨effect, member, used⟩
    rcases List.mem_append.mp member with member | member
    · exact ⟨_, List.mem_cons_self, uses_arrow.mpr (Or.inl ⟨effect, member, used⟩)⟩
    · exact ⟨_, List.mem_cons_of_mem _ List.mem_cons_self,
        uses_arrow.mpr (Or.inl ⟨effect, member, used⟩)⟩
  have unnamed : ∀ kind, ¬ V kind name := by
    rintro kind ⟨effect, member, used⟩
    rcases List.mem_append.mp member with member | member
    · exact new kind (uses_arrow.mpr (Or.inl ⟨effect, member, used⟩))
    · exact new' effect member kind used
  have separate_part : V.Separate := fun other at_effect at_variables =>
    separate other (part _ _ at_effect) (part _ _ at_variables)
  have covered : ∀ kind other, V kind other → other ∈
      (Effect.arrow params result).names.union (Effect.arrow args (.quantified name)).names :=
    fun kind other used => Vocabulary.mem_names_union.mpr ⟨kind, part kind other used⟩
  obtain ⟨arity, unifies⟩ := Unifies.params first second
  have each : ∀ pair ∈ params.zip args, Solvable T V (.effect pair.1) (.effect pair.2) := by
    intro pair member
    obtain ⟨left, right⟩ := List.of_mem_zip (a := pair.1) (b := pair.2) member
    exact ⟨⟨free _ left, free' _ right⟩,
      ⟨fun kind other used => ⟨_, List.mem_append_left _ left, used⟩,
        fun kind other used => ⟨_, List.mem_append_right _ right, used⟩⟩, unifies pair member⟩
  -- The new name is one of the names that are counted.
  obtain ⟨names, count⟩ : ∃ names, ((Effect.arrow params result).names.union
      (Effect.arrow args (.quantified name)).names).size = names + 1 := by
    refine Nat.exists_eq_succ_of_ne_zero fun none => ?_
    rw [SortedSet.size, List.length_eq_zero_iff] at none
    have present : name ∈ (Effect.arrow params result).names.union
        (Effect.arrow args (.quantified name)).names :=
      Vocabulary.mem_names_union.mpr ⟨.effect, _, List.mem_cons_of_mem _ List.mem_cons_self,
        uses_arrow.mpr (Or.inr (uses_quantified.mpr ⟨rfl, rfl⟩))⟩
    exact SortedSet.isEmpty_iff.mp (List.isEmpty_iff.mpr none) name present
  have complete : Complete T (solve names) ((Effect.arrow params result).names.union
      (Effect.arrow args (.quantified name)).names).size := by
    rw [count]
    exact solve_complete T names
  have furthers : ∀ {e f σ}, solve names e f = .ok σ → Outcome (.effect e) (.effect f) σ :=
    solve_solved Layer.outcome
  have locate : ∀ place : Position → UnificationError → UnificationError, ∃ known,
      solveParams (solve names) place 0 ∅ params args = .ok known ∧ Progress T V known := fun place =>
    solveParams_complete furthers complete separate_part covered arity each
      (fun param _ _ solvable => solveWith_complete furthers complete separate_part covered solvable)
      progress_empty
  obtain ⟨known, front, progress⟩ := locate fun position => .nested position
    (.effect (.arrow params result)) (.effect (.arrow args (.quantified name)))
  rw [unify, count, solve]
  simp only [solveWith, arity, if_true, bind_eq_ok]
  have new_result : ∀ kind, ¬ result.Uses kind name := fun kind used =>
    new kind (uses_arrow.mpr (Or.inr used))
  by_cases nothing : known.isEmpty
  · obtain ⟨σ, solved⟩ := solve_new new_result (names + 1)
    exact ⟨σ, known, front, by rw [if_pos nothing, mapError_eq_ok]; exact solved⟩
  · have bounded : known.Over W := fun binding member =>
      ⟨part _ _ (progress.bounded binding member).1, fun kind other used =>
        part _ _ ((progress.bounded binding member).2 kind other used)⟩
    have within : result.Over W := fun kind other used =>
      ⟨_, List.mem_cons_self, uses_arrow.mpr (Or.inr used)⟩
    have within' : (Effect.quantified name).Over W := fun kind other used =>
      ⟨_, List.mem_cons_of_mem _ List.mem_cons_self, uses_arrow.mpr (Or.inr used)⟩
    obtain ⟨result', run⟩ := exists_apply.mpr fun kind other used =>
      allows_of_over bounded separate (within kind other used)
    have unbound : known.get? name = none := by
      cases found : known.get? name with
      | none => rfl
      | some value => exact (unnamed _ (progress.bounded _ (mem_of_get? found)).1).elim
    have run' : known.apply (.quantified name) = .ok (.quantified name) :=
      apply_quantified.mpr (valueAt_of_unbound unbound)
    have new_result' : ∀ kind, ¬ result'.Uses kind name := by
      intro kind used
      obtain ⟨other, name', before, value⟩ := (uses_apply run kind name).mp used
      cases found : known.get? name' with
      | none =>
        rw [valueAt_of_unbound found] at value
        obtain ⟨rfl, rfl⟩ := Term.uses_quantified.mp value
        exact new_result _ before
      | some bound =>
        rw [valueAt_of_get? found] at value
        exact unnamed kind ((progress.bounded _ (mem_of_get? found)).2 kind name value)
    obtain ⟨learned, solved⟩ := solve_new new_result' names
    have local_names := (furthers solved).isLocal W (over_apply bounded.values within run) within'
    obtain ⟨σ, added⟩ := exists_compose fun binding member =>
      exists_applyToTerm_of_over local_names separate (bounded binding member).2
    refine ⟨σ, known, front, ?_⟩
    rw [if_neg nothing, mapError_eq_ok]
    simp only [solveUnder, bind_eq_ok, mapError_eq_ok]
    exact ⟨result', run, _, run', learned, solved, added⟩

end Application

/-- The result uses no other names than the parameters, these have no unions, and each name has one
kind. -/
structure Determined (params : List Effect) (result : Effect) : Prop where
  unionFree : ∀ param ∈ params, param.UnionFree
  canonical : result.Canonical
  separate : (Vocabulary.usedIn [.arrow params result]).Separate
  named : ∀ kind name, result.Uses kind name → ∃ param ∈ params, param.Uses kind name

namespace Determined

variable {params inputs : List Effect} {result output output' : Effect}
  (determined : Determined params result) {σ τ : Substitution}

include determined

theorem uses_result (run : σ.apply (.arrow params result) = .ok (.arrow inputs output)) {kind : Kind}
    {name : String} (used : output.Uses kind name) : ∃ input ∈ inputs, input.Uses kind name := by
  obtain ⟨_, _, each, out, same⟩ := apply_arrow.mp run
  cases same
  obtain ⟨other, name', before, value⟩ := (uses_apply out kind name).mp used
  obtain ⟨param, member, standing⟩ := determined.named other name' before
  obtain ⟨input, present, applied⟩ := forall₂_mem_left each member
  exact ⟨input, present, (uses_apply applied kind name).mpr ⟨other, name', standing, value⟩⟩

theorem result_eq (run : σ.apply (.arrow params result) = .ok (.arrow inputs output))
    (run' : τ.apply (.arrow params result) = .ok (.arrow inputs output')) : output = output' := by
  obtain ⟨_, _, each, out, same⟩ := apply_arrow.mp run
  cases same
  obtain ⟨_, _, each', out', same'⟩ := apply_arrow.mp run'
  cases same'
  have both : List.Forall₂ (fun param input => σ.apply param = .ok input ∧
      τ.apply param = .ok input) params inputs := forall₂_both each each'
  refine apply_congr determined.canonical (fun kind name used => ?_) out out'
  obtain ⟨param, member, standing⟩ := determined.named kind name used
  obtain ⟨input, _, first, second⟩ := forall₂_mem_left both member
  exact valueAt_eq_of_apply (determined.unionFree param member) first second standing

end Determined

end Effect

end SpecEffects
