import SpecEffects.Proofs.Inference.MadeNames
import SpecEffects.Proofs.Unification.Renaming

/-!
What a copy of an effect is, exactly. It is the effect under a renaming that gives every name a
number of its own, and of the new names those of placeholders are learned.
-/
namespace SpecEffects

namespace Substitution

variable {σ : Substitution} {ρ : String → String}

theorem applyToVariables_eq_rename (values : σ.Canonical) {set : VariableSet}
    (named : ∀ kind name, set.Uses kind name → σ.get? name = some (kind.quantified (ρ name))) :
    σ.applyToVariables set = .ok (set.rename ρ) := by
  have value : ∀ {kind name}, set.Uses kind name →
      σ.valueAt kind name = kind.quantified (ρ name) :=
    fun used => valueAt_of_get? (named _ _ used)
  obtain ⟨result, run⟩ := exists_applyToVariables.mpr fun kind name used => by
    rw [Allows, value used, Term.kind_quantified]
  rw [run]
  refine congrArg Except.ok (VariableSet.canonical_ext (canonical_applyToVariables values run)
    (VariableSet.canonical_rename _ _) (fun name => ?_) fun var => ?_)
  · have both : result.Uses .variables name ↔ (set.rename ρ).Uses .variables name := by
      rw [uses_applyToVariables run, VariableSet.uses_rename]
      constructor
      · rintro ⟨kind, old, used, inside⟩
        rw [value used] at inside
        obtain ⟨rfl, rfl⟩ := Term.uses_quantified.mp inside
        exact ⟨old, used, rfl⟩
      · rintro ⟨old, used, rfl⟩
        refine ⟨.variables, old, used, ?_⟩
        rw [value used]
        exact Term.uses_quantified.mpr ⟨rfl, rfl⟩
    simpa [VariableSet.Uses] using both
  · rw [mem_concreteNames_applyToVariables run, VariableSet.mem_concreteNames_rename]
    refine or_iff_left ?_
    rintro ⟨name, used, inside⟩
    rw [value used] at inside
    exact SortedSet.not_mem_empty _ inside

theorem replaceIn_eq_rename (values : σ.Canonical) {effect : Effect}
    (named : ∀ kind name, effect.Uses kind name → σ.get? name = some (kind.quantified (ρ name))) :
    σ.replaceIn effect = .ok (effect.rename ρ) := by
  induction effect with
  | concrete footprint =>
    refine replaceIn_concrete.mpr ⟨_, fun component => ?_, rfl⟩
    rw [Effect.get_rename]
    exact applyToVariables_eq_rename values fun kind name used =>
      named kind name (Effect.uses_concrete.mpr ⟨component, used⟩)
  | quantified name =>
    have found := named .effect name (Effect.uses_quantified.mpr ⟨rfl, rfl⟩)
    exact replaceIn_quantified.mpr (valueAt_of_get? found)
  | arrow params result inputs output =>
    rw [Effect.rename_arrow]
    refine replaceIn_arrow.mpr ⟨_, _, ?_, output fun kind name used =>
      named kind name (Effect.uses_arrow.mpr (Or.inr used)), rfl⟩
    rw [List.forall₂_map_right_iff]
    exact List.forall₂_same.mpr fun param member => inputs param member fun kind name used =>
      named kind name (Effect.uses_arrow.mpr (Or.inl ⟨param, member, used⟩))

theorem apply_eq_rename (values : σ.Canonical) {effect : Effect} (canonical : effect.Canonical)
    (named : ∀ kind name, effect.Uses kind name → σ.get? name = some (kind.quantified (ρ name))) :
    σ.apply effect = .ok (effect.rename ρ) :=
  (apply_eq_replaceIn canonical).trans (replaceIn_eq_rename values named)

end Substitution

namespace Inference

open Substitution

namespace State

theorem freshBindings_get? (kind : Kind) (fresh : FreshNames) (names : List String) (name : String) :
    get? ⟨(freshBindings fresh (stem kind) kind.quantified names).1⟩ name =
      if name ∈ names then
        some (kind.quantified (numbered kind (fresh.count (stem kind) + names.idxOf name)))
      else none := by
  induction names generalizing fresh with
  | nil => rfl
  | cons first rest ih =>
    have tail := ih (fresh.next (stem kind)).2
    rw [FreshNames.count_next, if_pos rfl] at tail
    simp only [freshBindings, get?, find?] at tail ⊢
    by_cases same : first = name
    · subst same
      simp [FreshNames.next, numbered]
    · have different : name ≠ first := fun equal => same equal.symm
      rw [List.find?_cons_of_neg (by simpa using same), tail]
      simp only [List.mem_cons, different, false_or]
      split
      · rw [List.idxOf_cons_ne _ same]
        congr 3
        omega
      · rfl

theorem freshBindings_count (kind : Kind) (fresh : FreshNames) (names : List String)
    (other : String) :
    (freshBindings fresh (stem kind) kind.quantified names).2.count other =
      fresh.count other + if stem kind = other then names.length else 0 := by
  induction names generalizing fresh with
  | nil => simp [freshBindings]
  | cons first rest ih =>
    simp only [freshBindings, ih, FreshNames.count_next]
    split
    · rename_i same
      subst same
      rw [List.length_cons]
      omega
    · omega

end State

section Numbering

variable (effect : Effect) (start : FreshNames)

def effectBindings : List Binding × FreshNames :=
  State.freshBindings start effectStem (fun name => .effect (.quantified name))
    effect.effectNames.toList

def variableBindings : List Binding × FreshNames :=
  State.freshBindings (effectBindings effect start).2 variablesStem
    (fun name => .variables (.quantified name)) effect.variableNames.toList

def freshName (name : String) : String :=
  if name ∈ effect.effectNames.toList then
    numbered .effect (start.count effectStem + effect.effectNames.toList.idxOf name)
  else numbered .variables (start.count variablesStem + effect.variableNames.toList.idxOf name)

theorem count_effectBindings (other : String) : (effectBindings effect start).2.count other =
    start.count other + if effectStem = other then effect.effectNames.toList.length else 0 :=
  State.freshBindings_count .effect start effect.effectNames.toList other

theorem count_variableBindings (other : String) : (variableBindings effect start).2.count other =
    (effectBindings effect start).2.count other +
      if variablesStem = other then effect.variableNames.toList.length else 0 :=
  State.freshBindings_count .variables _ effect.variableNames.toList other

theorem le_variableBindings : start ≤ (variableBindings effect start).2 := by
  intro other
  rw [count_variableBindings, count_effectBindings]
  omega

theorem effectBindings_get? (name : String) :
    get? ⟨(effectBindings effect start).1⟩ name =
      if name ∈ effect.effectNames.toList then
        some (.effect (.quantified (freshName effect start name))) else none := by
  rw [effectBindings, freshName]
  refine (State.freshBindings_get? .effect start effect.effectNames.toList name).trans ?_
  split <;> rfl

variable {effect} (separate : (Vocabulary.usedIn [effect]).Separate) {name : String}

include separate in
theorem not_effect_of_variables (used : effect.Uses .variables name) :
    name ∉ effect.effectNames.toList := fun at_effect =>
  separate name ⟨effect, List.mem_singleton_self _, at_effect⟩
    ⟨effect, List.mem_singleton_self _, used⟩

theorem freshName_effect (used : effect.Uses .effect name) : freshName effect start name =
    numbered .effect (start.count effectStem + effect.effectNames.toList.idxOf name) :=
  if_pos used

include separate in
theorem freshName_variables (used : effect.Uses .variables name) : freshName effect start name =
    numbered .variables (start.count variablesStem + effect.variableNames.toList.idxOf name) :=
  if_neg (not_effect_of_variables separate used)

include separate in
theorem variableBindings_get? (used : effect.Uses .variables name) :
    get? ⟨(variableBindings effect start).1⟩ name =
      some (.variables (.quantified (freshName effect start name))) := by
  have found := State.freshBindings_get? .variables (effectBindings effect start).2
    effect.variableNames.toList name
  have unchanged := count_effectBindings effect start variablesStem
  have listed : name ∈ effect.variableNames.toList := used
  rw [if_neg (by decide), Nat.add_zero] at unchanged
  rw [if_pos listed] at found
  refine found.trans ?_
  rw [freshName_variables start separate used]
  exact congrArg (fun n => some (Term.variables (.quantified (numbered .variables (n + _))))) unchanged

include separate in
theorem freshName_named {kind : Kind} (used : effect.Uses kind name) :
    ∃ n, start.count (stem kind) ≤ n ∧ n < (variableBindings effect start).2.count (stem kind) ∧
      freshName effect start name = numbered kind n := by
  have counts := count_variableBindings effect start
  have counts' := count_effectBindings effect start
  cases kind
  · have inside : effect.effectNames.toList.idxOf name < effect.effectNames.toList.length :=
      List.idxOf_lt_length_of_mem used
    have first := counts effectStem
    have second := counts' effectStem
    rw [if_neg (by decide)] at first
    rw [if_pos rfl] at second
    refine ⟨_, Nat.le_add_right _ _, ?_, freshName_effect start used⟩
    show start.count effectStem + _ < (variableBindings effect start).2.count effectStem
    omega
  · have inside : effect.variableNames.toList.idxOf name < effect.variableNames.toList.length :=
      List.idxOf_lt_length_of_mem used
    have first := counts variablesStem
    have second := counts' variablesStem
    rw [if_pos rfl] at first
    rw [if_neg (by decide)] at second
    refine ⟨_, Nat.le_add_right _ _, ?_, freshName_variables start separate used⟩
    show start.count variablesStem + _ < (variableBindings effect start).2.count variablesStem
    omega

include separate in
theorem freshName_injective : (Vocabulary.usedIn [effect]).Injective (freshName effect start) := by
  rintro kind kind' name name' ⟨_, member, used⟩ ⟨_, member', used'⟩ same
  cases List.mem_singleton.mp member
  cases List.mem_singleton.mp member'
  obtain ⟨n, _, _, eq⟩ := freshName_named start separate used
  obtain ⟨n', _, _, eq'⟩ := freshName_named start separate used'
  rw [eq, eq'] at same
  obtain ⟨rfl, -⟩ := numbered_injective same
  rw [← eq, ← eq'] at same
  cases kind
  · rw [freshName_effect start used, freshName_effect start used'] at same
    exact (List.idxOf_inj used).mp (Nat.add_left_cancel (numbered_injective same).2)
  · rw [freshName_variables start separate used, freshName_variables start separate used'] at same
    exact (List.idxOf_inj used).mp (Nat.add_left_cancel (numbered_injective same).2)

include separate in
theorem bindings_get? {kind : Kind} (used : effect.Uses kind name) :
    get? ⟨(effectBindings effect start).1 ++ (variableBindings effect start).1⟩ name =
      some (kind.quantified (freshName effect start name)) := by
  have both : get? ⟨(effectBindings effect start).1 ++ (variableBindings effect start).1⟩ name =
      (get? ⟨(effectBindings effect start).1⟩ name).or
        (get? ⟨(variableBindings effect start).1⟩ name) := by
    simp only [get?, find?, List.find?_append, Option.map_or]
  rw [both, effectBindings_get?]
  cases kind
  · rw [if_pos (show name ∈ effect.effectNames.toList from used)]
    rfl
  · rw [if_neg (not_effect_of_variables separate used), variableBindings_get? start separate used]
    rfl

end Numbering

def learnedNames (effect : Effect) (start : FreshNames) : Substitution :=
  ⟨(effectBindings effect start).1.filter fun binding => isPlaceholder binding.name⟩

theorem learnedNames_get? (effect : Effect) (start : FreshNames) (name : String) :
    (learnedNames effect start).get? name =
      if isPlaceholder name = true ∧ name ∈ effect.effectNames.toList then
        some (.effect (.quantified (freshName effect start name))) else none := by
  have all := effectBindings_get? effect start name
  rw [get?, find?] at all
  rw [learnedNames, get?, find?, List.find?_filter]
  by_cases marked : isPlaceholder name = true
  · simp only [marked, true_and]
    rw [← all]
    congr 2
    funext binding
    by_cases here : binding.name = name
    · simp [here, marked]
    · simp [here]
  · rw [if_neg fun both => marked both.1, Option.map_eq_none_iff, List.find?_eq_none]
    intro binding _ both
    simp only [decide_eq_true_eq] at both
    exact marked (both.2 ▸ both.1)

theorem mem_learnedNames {effect : Effect} {start : FreshNames} {binding : Binding}
    (member : binding ∈ (learnedNames effect start).bindings) :
    effect.Uses .effect binding.name ∧ isPlaceholder binding.name = true ∧
      ∃ n, start.count effectStem ≤ n ∧ n < (variableBindings effect start).2.count effectStem ∧
        binding.value = .effect (.quantified (numbered .effect n)) := by
  obtain ⟨present, marked⟩ := List.mem_filter.mp member
  obtain ⟨_, names, values⟩ := State.freshBindings_spec .effect start effect.effectNames.toList _ _ rfl
  have listed : binding.name ∈ effect.effectNames.toList :=
    names ▸ List.mem_map_of_mem (f := Binding.name) present
  obtain ⟨n, above, below, value⟩ := values binding present
  have order : n < (effectBindings effect start).2.count effectStem := below
  refine ⟨listed, marked, n, above, ?_, value⟩
  rw [count_variableBindings]
  omega

/-- What instantiation leads to: the copy is made, and what placeholders are called is learned. -/
structure Copied (state : State) (effect : Effect) (after : State) : Prop where
  run : state.instantiate effect = (.ok (effect.rename (freshName effect state.fresh)), after)
  effects : after.effects = state.effects
  errors : after.errors = state.errors
  fresh : after.fresh = (variableBindings effect state.fresh).2
  running : (learnedNames effect state.fresh).compose state.running = .ok after.running

theorem canonical_bindings (effect : Effect) (start : FreshNames) : Canonical
    ⟨(effectBindings effect start).1 ++ (variableBindings effect start).1⟩ := by
  intro binding member
  rcases List.mem_append.mp member with member | member
  · obtain ⟨_, _, values⟩ := State.freshBindings_spec .effect _ _ _ _ rfl
    obtain ⟨n, _, _, value⟩ := values binding member
    rw [value]
    exact Term.canonical_quantified .effect _
  · obtain ⟨_, _, values⟩ := State.freshBindings_spec .variables _ _ _ _ rfl
    obtain ⟨n, _, _, value⟩ := values binding member
    rw [value]
    exact Term.canonical_quantified .variables _

theorem over_learnedNames (effect : Effect) (start : FreshNames) :
    (learnedNames effect start).Over possible := by
  intro binding member
  obtain ⟨_, marked, n, _, _, value⟩ := mem_learnedNames member
  rw [value]
  refine ⟨Or.inr ⟨rfl, marked⟩, fun kind name used => ?_⟩
  obtain ⟨rfl, rfl⟩ := Effect.uses_quantified.mp used
  exact Or.inl ⟨n, rfl⟩

theorem instantiate_eq (state : State) (effect : Effect) :
    state.instantiate effect =
      match apply ⟨(effectBindings effect state.fresh).1 ++
        (variableBindings effect state.fresh).1⟩ effect with
      | .error clash =>
        (.error clash, { state with fresh := (variableBindings effect state.fresh).2 })
      | .ok copy =>
        match (learnedNames effect state.fresh).bindings with
        | [] => (.ok copy, { state with fresh := (variableBindings effect state.fresh).2 })
        | learned =>
          match compose ⟨learned⟩ state.running with
          | .error clash =>
            (.error clash, { state with fresh := (variableBindings effect state.fresh).2 })
          | .ok running =>
            (.ok copy, { state with fresh := (variableBindings effect state.fresh).2, running }) :=
  rfl

def spent (state : State) (effect : Effect) : State :=
  { state with fresh := (variableBindings effect state.fresh).2 }

/-- Where a name stands for an effect here and for a set there, no copy can be made. -/
theorem instantiate_mixed {effect : Effect} (mixed : ¬ (Vocabulary.usedIn [effect]).Separate)
    (state : State) : ∃ clash, state.instantiate effect = (.error clash, spent state effect) := by
  simp only [Vocabulary.Separate, not_forall, not_not] at mixed
  obtain ⟨name, ⟨_, member, used⟩, ⟨_, member', used'⟩⟩ := mixed
  cases List.mem_singleton.mp member
  cases List.mem_singleton.mp member'
  rw [instantiate_eq]
  cases run : apply ⟨(effectBindings effect state.fresh).1 ++
      (variableBindings effect state.fresh).1⟩ effect with
  | error clash => exact ⟨clash, rfl⟩
  | ok copy =>
    have allowed := exists_apply.mp ⟨copy, run⟩ .variables name used'
    have found : get? ⟨(effectBindings effect state.fresh).1 ++
        (variableBindings effect state.fresh).1⟩ name =
          some (.effect (.quantified (freshName effect state.fresh name))) := by
      have first := effectBindings_get? effect state.fresh name
      rw [if_pos (show name ∈ effect.effectNames.toList from used)] at first
      simp only [get?, find?, List.find?_append, Option.map_or] at first ⊢
      rw [first]
      rfl
    rw [allows_of_get? found] at allowed
    cases allowed

theorem instantiate_copied {state : State} {effect : Effect} (canonical : effect.Canonical)
    (separate : (Vocabulary.usedIn [effect]).Separate) (values : state.running.Canonical)
    (known : state.running.Over possible) : ∃ after, Copied state effect after := by
  have renamed := apply_eq_rename (canonical_bindings effect state.fresh) canonical
    fun kind name used => bindings_get? state.fresh separate used
  obtain ⟨running, learned⟩ := exists_compose fun binding member =>
    exists_applyToTerm_of_over (over_learnedNames effect state.fresh) possible_separate
      (known.values binding member)
  refine ⟨{ state with fresh := (variableBindings effect state.fresh).2, running }, ?_, rfl, rfl, rfl,
    learned⟩
  rw [instantiate_eq, renamed]
  dsimp only
  split
  · rename_i none
    have nothing : learnedNames effect state.fresh = ∅ := congrArg Substitution.mk none
    rw [nothing, compose_empty_left values] at learned
    cases learned
    rfl
  · rw [learned]

end Inference

end SpecEffects
