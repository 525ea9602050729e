import Mathlib.Data.List.Forall2
import SpecEffects.Proofs.Names

/-!
What a substitution does to a term. It succeeds exactly when it binds no used name at the other
kind. The names of the result are those of the values that the used names have. A substitution with
canonical values makes every set canonical, and so its result is determined by names.
-/
namespace SpecEffects

variable {α β ε ε' : Type}

theorem bind_eq_ok {x : Except ε α} {f : α → Except ε β} {b : β} :
    (x >>= f) = .ok b ↔ ∃ a, x = .ok a ∧ f a = .ok b := by
  cases x with
  | error e => simp [bind, Except.bind]
  | ok a => simp [bind, Except.bind]

theorem pure_eq_ok {a b : α} : (pure a : Except ε α) = .ok b ↔ b = a := by
  simp [pure, Except.pure, eq_comm]

theorem mapError_eq_ok {x : Except ε α} {f : ε → ε'} {a : α} :
    x.mapError f = .ok a ↔ x = .ok a := by
  cases x <;> simp [Except.mapError]

theorem exists_ok {result : Except ε α} (view : α → β) {seen : β}
    (computed : result.toOption.map view = some seen) :
    ∃ value, result = .ok value ∧ view value = seen := by
  cases result with
  | error failure => cases computed
  | ok value => exact ⟨value, rfl, Option.some.inj computed⟩

theorem forall₂_mem_right {R : α → β → Prop} {as : List α} {bs : List β}
    (related : List.Forall₂ R as bs) {b : β} (member : b ∈ bs) : ∃ a ∈ as, R a b := by
  induction related with
  | nil => cases member
  | cons head tail ih =>
    rcases List.mem_cons.mp member with rfl | later
    · exact ⟨_, List.mem_cons_self, head⟩
    · obtain ⟨a, present, relation⟩ := ih later
      exact ⟨a, List.mem_cons_of_mem _ present, relation⟩

theorem forall₂_mem_left {R : α → β → Prop} {as : List α} {bs : List β}
    (related : List.Forall₂ R as bs) {a : α} (member : a ∈ as) : ∃ b ∈ bs, R a b := by
  induction related with
  | nil => cases member
  | cons head tail ih =>
    rcases List.mem_cons.mp member with rfl | later
    · exact ⟨_, List.mem_cons_self, head⟩
    · obtain ⟨b, present, relation⟩ := ih later
      exact ⟨b, List.mem_cons_of_mem _ present, relation⟩

theorem exists_forall₂ {R : α → β → Prop} {as : List α} (each : ∀ a ∈ as, ∃ b, R a b) :
    ∃ bs, List.Forall₂ R as bs := by
  induction as with
  | nil => exact ⟨[], .nil⟩
  | cons a rest ih =>
    obtain ⟨b, head⟩ := each a List.mem_cons_self
    obtain ⟨bs, tail⟩ := ih fun a member => each a (List.mem_cons_of_mem _ member)
    exact ⟨b :: bs, .cons head tail⟩

theorem mapM_eq_some {f : α → Option β} {as : List α} {bs : List β} :
    as.mapM f = some bs ↔ List.Forall₂ (fun a b => f a = some b) as bs := by
  induction as generalizing bs with
  | nil => simp [eq_comm]
  | cons a rest ih =>
    simp only [List.mapM_cons, Option.bind_eq_bind, Option.pure_def, Option.bind_eq_some_iff, ih,
      List.forall₂_cons_left_iff, Option.some.injEq]
    constructor
    · rintro ⟨b, head, bs', tail, whole⟩
      exact ⟨b, bs', head, tail, whole.symm⟩
    · rintro ⟨b, bs', head, tail, whole⟩
      exact ⟨b, head, bs', tail, whole.symm⟩

namespace Substitution

variable {σ : Substitution}

def valueAt (σ : Substitution) (kind : Kind) (name : String) : Term :=
  (σ.get? name).getD (kind.quantified name)

def Allows (σ : Substitution) (kind : Kind) (name : String) : Prop :=
  (σ.valueAt kind name).kind = kind

theorem isEmpty_iff : σ.isEmpty = true ↔ σ = ∅ := by
  cases σ
  simp [isEmpty, EmptyCollection.emptyCollection]

theorem mem_of_get? {name : String} {value : Term} (found : σ.get? name = some value) :
    ⟨name, value⟩ ∈ σ.bindings := by
  obtain ⟨binding, first, rfl⟩ := Option.map_eq_some_iff.mp found
  have member := List.mem_of_find?_eq_some first
  have key := List.find?_some first
  simp only [decide_eq_true_eq] at key
  rwa [← key]

theorem get?_isSome_of_mem {binding : Binding} (member : binding ∈ σ.bindings) :
    ∃ value, σ.get? binding.name = some value := by
  cases found : σ.get? binding.name with
  | some value => exact ⟨value, rfl⟩
  | none =>
    rw [get?, Option.map_eq_none_iff, find?, List.find?_eq_none] at found
    simpa using found binding member

theorem valueAt_of_get? {kind : Kind} {name : String} {value : Term}
    (found : σ.get? name = some value) : σ.valueAt kind name = value := by
  rw [valueAt, found]
  rfl

theorem valueAt_of_unbound {kind : Kind} {name : String} (unbound : σ.get? name = none) :
    σ.valueAt kind name = kind.quantified name := by
  rw [valueAt, unbound]
  rfl

theorem allows_of_unbound {kind : Kind} {name : String} (unbound : σ.get? name = none) :
    σ.Allows kind name := by
  rw [Allows, valueAt_of_unbound unbound, Term.kind_quantified]

theorem allows_of_get? {kind : Kind} {name : String} {value : Term}
    (found : σ.get? name = some value) : σ.Allows kind name ↔ value.kind = kind := by
  rw [Allows, valueAt_of_get? found]

theorem everySet_valueAt {P : VariableSet → Prop} (values : σ.EverySet P)
    (base : ∀ name, P (.quantified name)) (kind : Kind) (name : String) :
    (σ.valueAt kind name).EverySet P := by
  cases found : σ.get? name with
  | none =>
    rw [valueAt_of_unbound found]
    cases kind
    · exact .quantified name
    · exact base name
  | some value =>
    rw [valueAt_of_get? found]
    exact values _ (mem_of_get? found)

theorem applyToVariables_quantified {name : String} {result : VariableSet} :
    σ.applyToVariables (.quantified name) = .ok result ↔
      σ.valueAt .variables name = .variables result := by
  simp only [applyToVariables, valueAt]
  cases σ.get? name with
  | none => simp [Kind.quantified]
  | some value => cases value <;> simp

theorem replaceIn_quantified {name : String} {result : Effect} :
    σ.replaceIn (.quantified name) = .ok result ↔ σ.valueAt .effect name = .effect result := by
  simp only [replaceIn, valueAt]
  cases σ.get? name with
  | none => simp [Kind.quantified]
  | some value => cases value <;> simp

theorem applyToSets_eq_ok {sets results : List VariableSet} :
    σ.applyToSets sets = .ok results ↔
      List.Forall₂ (fun set result => σ.applyToVariables set = .ok result) sets results := by
  induction sets generalizing results with
  | nil => simp [applyToSets, eq_comm]
  | cons set rest ih =>
    simp only [applyToSets, bind_eq_ok, pure_eq_ok, ih, List.forall₂_cons_left_iff]
    constructor
    · rintro ⟨head, first, tail, later, whole⟩
      exact ⟨head, tail, first, later, whole⟩
    · rintro ⟨head, tail, first, later, whole⟩
      exact ⟨head, first, tail, later, whole⟩

theorem replaceInAll_eq_ok {effects results : List Effect} :
    σ.replaceInAll effects = .ok results ↔
      List.Forall₂ (fun effect result => σ.replaceIn effect = .ok result) effects results := by
  induction effects generalizing results with
  | nil => simp [replaceInAll, eq_comm]
  | cons effect rest ih =>
    simp only [replaceInAll, bind_eq_ok, pure_eq_ok, ih, List.forall₂_cons_left_iff]
    constructor
    · rintro ⟨head, first, tail, later, whole⟩
      exact ⟨head, tail, first, later, whole⟩
    · rintro ⟨head, tail, first, later, whole⟩
      exact ⟨head, first, tail, later, whole⟩

theorem applyToVariables_union {sets : List VariableSet} {result : VariableSet} :
    σ.applyToVariables (.union sets) = .ok result ↔
      ∃ results, List.Forall₂ (fun set result => σ.applyToVariables set = .ok result) sets results ∧
        result = .join results := by
  simp only [applyToVariables, bind_eq_ok, pure_eq_ok, applyToSets_eq_ok]

theorem applyToFootprint_eq_ok {footprint result : Footprint} :
    σ.applyToFootprint footprint = .ok result ↔
      ∀ component, σ.applyToVariables (footprint.get component) = .ok (result.get component) := by
  simp only [applyToFootprint, bind_eq_ok, pure_eq_ok]
  constructor
  · rintro ⟨read, hread, update, hupdate, temporal, htemporal, whole⟩ component
    subst whole
    cases component with
    | read => exact hread
    | update => exact hupdate
    | temporal => exact htemporal
  · intro each
    exact ⟨_, each .read, _, each .update, _, each .temporal, rfl⟩

theorem replaceIn_concrete {footprint : Footprint} {result : Effect} :
    σ.replaceIn (.concrete footprint) = .ok result ↔
      ∃ after : Footprint,
        (∀ component, σ.applyToVariables (footprint.get component) = .ok (after.get component)) ∧
        result = .concrete after := by
  simp only [replaceIn, bind_eq_ok, pure_eq_ok, applyToFootprint_eq_ok]

theorem replaceIn_arrow {params : List Effect} {output result : Effect} :
    σ.replaceIn (.arrow params output) = .ok result ↔
      ∃ params' output',
        List.Forall₂ (fun param after => σ.replaceIn param = .ok after) params params' ∧
        σ.replaceIn output = .ok output' ∧ result = .arrow params' output' := by
  simp only [replaceIn, bind_eq_ok, pure_eq_ok, replaceInAll_eq_ok]
  constructor
  · rintro ⟨params', inputs, output', last, whole⟩
    exact ⟨params', output', inputs, last, whole⟩
  · rintro ⟨params', output', inputs, last, whole⟩
    exact ⟨params', inputs, output', last, whole⟩

theorem exists_applyToVariables {set : VariableSet} :
    (∃ result, σ.applyToVariables set = .ok result) ↔
      ∀ kind name, set.Uses kind name → σ.Allows kind name := by
  induction set with
  | concrete vars => simp [applyToVariables]
  | quantified name =>
    simp only [applyToVariables_quantified, VariableSet.uses_quantified]
    constructor
    · rintro ⟨result, value⟩ kind other ⟨at_variables, same⟩
      subst at_variables same
      rw [Allows, value]
      rfl
    · intro allowed
      have kind := allowed .variables name ⟨rfl, rfl⟩
      rw [Allows] at kind
      cases value : σ.valueAt .variables name
      · rw [value] at kind
        cases kind
      · exact ⟨_, rfl⟩
  | union sets ih =>
    simp only [applyToVariables_union, VariableSet.uses_union]
    constructor
    · rintro ⟨result, results, each, _⟩ kind name ⟨set, member, used⟩
      obtain ⟨after, _, run⟩ := forall₂_mem_left each member
      exact (ih set member).mp ⟨after, run⟩ kind name used
    · intro allowed
      obtain ⟨results, each⟩ := exists_forall₂ fun set (member : set ∈ sets) =>
        (ih set member).mpr fun kind name used => allowed kind name ⟨set, member, used⟩
      exact ⟨_, results, each, rfl⟩

theorem uses_applyToVariables {set result : VariableSet} (run : σ.applyToVariables set = .ok result)
    (kind : Kind) (name : String) :
    result.Uses kind name ↔
      ∃ other name', set.Uses other name' ∧ (σ.valueAt other name').Uses kind name := by
  induction set generalizing result with
  | concrete vars =>
    cases run
    simp
  | quantified old =>
    have value := applyToVariables_quantified.mp run
    constructor
    · intro used
      refine ⟨.variables, old, VariableSet.uses_quantified.mpr ⟨rfl, rfl⟩, ?_⟩
      rw [value]
      exact used
    · rintro ⟨other, name', at_name, used⟩
      obtain ⟨at_variables, same⟩ := VariableSet.uses_quantified.mp at_name
      subst at_variables same
      rw [value] at used
      exact used
  | union sets ih =>
    obtain ⟨results, each, rfl⟩ := applyToVariables_union.mp run
    simp only [VariableSet.uses_join, VariableSet.uses_union]
    constructor
    · rintro ⟨after, present, used⟩
      obtain ⟨set, member, part⟩ := forall₂_mem_right each present
      obtain ⟨other, name', at_name, later⟩ := (ih set member part).mp used
      exact ⟨other, name', ⟨set, member, at_name⟩, later⟩
    · rintro ⟨other, name', ⟨set, member, at_name⟩, later⟩
      obtain ⟨after, present, part⟩ := forall₂_mem_left each member
      exact ⟨after, present, (ih set member part).mpr ⟨other, name', at_name, later⟩⟩

theorem mem_concreteNames_applyToVariables {set result : VariableSet}
    (run : σ.applyToVariables set = .ok result) (var : String) :
    var ∈ result.concreteNames ↔
      var ∈ set.concreteNames ∨
        ∃ name, set.Uses .variables name ∧ var ∈ (σ.valueAt .variables name).concreteNames := by
  induction set generalizing result with
  | concrete vars =>
    cases run
    simp
  | quantified name =>
    have value := applyToVariables_quantified.mp run
    simp [VariableSet.concreteNames, Term.concreteNames, value]
  | union sets ih =>
    obtain ⟨results, each, rfl⟩ := applyToVariables_union.mp run
    simp only [VariableSet.mem_concreteNames_join, VariableSet.mem_concreteNames_union,
      VariableSet.uses_union]
    constructor
    · rintro ⟨after, present, found⟩
      obtain ⟨set, member, part⟩ := forall₂_mem_right each present
      rcases (ih set member part).mp found with old | ⟨name, used, new⟩
      · exact Or.inl ⟨set, member, old⟩
      · exact Or.inr ⟨name, ⟨set, member, used⟩, new⟩
    · intro found
      rcases found with ⟨set, member, old⟩ | ⟨name, ⟨set, member, used⟩, new⟩
      · obtain ⟨after, present, part⟩ := forall₂_mem_left each member
        exact ⟨after, present, (ih set member part).mpr (Or.inl old)⟩
      · obtain ⟨after, present, part⟩ := forall₂_mem_left each member
        exact ⟨after, present, (ih set member part).mpr (Or.inr ⟨name, used, new⟩)⟩

theorem canonical_applyToVariables (values : σ.Canonical) {set result : VariableSet}
    (run : σ.applyToVariables set = .ok result) : result.Canonical := by
  cases set with
  | concrete vars =>
    cases run
    trivial
  | quantified name =>
    have value := applyToVariables_quantified.mp run
    have canonical := everySet_valueAt values (fun _ => trivial) .variables name
    rw [value] at canonical
    exact canonical
  | union sets =>
    obtain ⟨results, _, rfl⟩ := applyToVariables_union.mp run
    exact VariableSet.canonical_join results

theorem applyToVariables_self {set : VariableSet} (canonical : set.Canonical)
    (unbound : ∀ kind name, set.Uses kind name → σ.get? name = none) :
    σ.applyToVariables set = .ok set := by
  cases set with
  | concrete vars => rfl
  | quantified name =>
    rw [applyToVariables_quantified]
    exact valueAt_of_unbound (unbound .variables name (VariableSet.uses_quantified.mpr ⟨rfl, rfl⟩))
  | union sets =>
    obtain ⟨result, run⟩ := exists_applyToVariables.mpr fun kind name used =>
      allows_of_unbound (unbound kind name used)
    obtain ⟨results, each, joined⟩ := applyToVariables_union.mp run
    have same : result = .union sets := by
      apply VariableSet.canonical_ext (joined ▸ VariableSet.canonical_join results) canonical
      · intro name
        have uses := uses_applyToVariables run .variables name
        constructor
        · intro present
          obtain ⟨other, name', used, value⟩ := uses.mp ⟨rfl, present⟩
          rw [valueAt_of_unbound (unbound other name' used), Term.uses_quantified] at value
          obtain ⟨at_variables, rfl⟩ := value
          exact used.2
        · intro present
          refine (uses.mpr ⟨.variables, name, ⟨rfl, present⟩, ?_⟩).2
          rw [valueAt_of_unbound (unbound .variables name ⟨rfl, present⟩), Term.uses_quantified]
          exact ⟨rfl, rfl⟩
      · intro var
        rw [mem_concreteNames_applyToVariables run]
        constructor
        · intro found
          rcases found with old | ⟨name, used, new⟩
          · exact old
          · rw [valueAt_of_unbound (unbound .variables name used)] at new
            exact absurd new (SortedSet.not_mem_empty var)
        · exact Or.inl
    rw [run, same]

theorem exists_replaceIn {effect : Effect} :
    (∃ result, σ.replaceIn effect = .ok result) ↔
      ∀ kind name, effect.Uses kind name → σ.Allows kind name := by
  induction effect with
  | concrete footprint =>
    simp only [replaceIn_concrete, Effect.uses_concrete]
    constructor
    · rintro ⟨result, after, slots, _⟩ kind name ⟨component, used⟩
      exact exists_applyToVariables.mp ⟨_, slots component⟩ kind name used
    · intro allowed
      obtain ⟨after, slots⟩ := Footprint.exists_of_get fun component =>
        exists_applyToVariables.mpr fun kind name used => allowed kind name ⟨component, used⟩
      exact ⟨_, after, slots, rfl⟩
  | quantified name =>
    simp only [replaceIn_quantified, Effect.uses_quantified]
    constructor
    · rintro ⟨result, value⟩ kind other ⟨at_effect, same⟩
      subst at_effect same
      rw [Allows, value]
      rfl
    · intro allowed
      have kind := allowed .effect name ⟨rfl, rfl⟩
      rw [Allows] at kind
      cases value : σ.valueAt .effect name
      · exact ⟨_, rfl⟩
      · rw [value] at kind
        cases kind
  | arrow params output inputs last =>
    simp only [replaceIn_arrow, Effect.uses_arrow]
    constructor
    · rintro ⟨result, params', output', each, run, _⟩ kind name used
      rcases used with ⟨param, member, used⟩ | used
      · obtain ⟨after, _, part⟩ := forall₂_mem_left each member
        exact (inputs param member).mp ⟨after, part⟩ kind name used
      · exact last.mp ⟨output', run⟩ kind name used
    · intro allowed
      obtain ⟨params', each⟩ := exists_forall₂ fun param (member : param ∈ params) =>
        (inputs param member).mpr fun kind name used =>
          allowed kind name (Or.inl ⟨param, member, used⟩)
      obtain ⟨output', run⟩ := last.mpr fun kind name used => allowed kind name (Or.inr used)
      exact ⟨_, params', output', each, run, rfl⟩

theorem uses_replaceIn {effect result : Effect} (run : σ.replaceIn effect = .ok result)
    (kind : Kind) (name : String) :
    result.Uses kind name ↔
      ∃ other name', effect.Uses other name' ∧ (σ.valueAt other name').Uses kind name := by
  induction effect generalizing result with
  | concrete footprint =>
    obtain ⟨after, slots, rfl⟩ := replaceIn_concrete.mp run
    simp only [Effect.uses_concrete]
    constructor
    · rintro ⟨component, used⟩
      obtain ⟨other, name', at_name, later⟩ :=
        (uses_applyToVariables (slots component) kind name).mp used
      exact ⟨other, name', ⟨component, at_name⟩, later⟩
    · rintro ⟨other, name', ⟨component, at_name⟩, later⟩
      exact ⟨component, (uses_applyToVariables (slots component) kind name).mpr
        ⟨other, name', at_name, later⟩⟩
  | quantified old =>
    have value := replaceIn_quantified.mp run
    constructor
    · intro used
      refine ⟨.effect, old, Effect.uses_quantified.mpr ⟨rfl, rfl⟩, ?_⟩
      rw [value]
      exact used
    · rintro ⟨other, name', at_name, used⟩
      obtain ⟨at_effect, same⟩ := Effect.uses_quantified.mp at_name
      subst at_effect same
      rw [value] at used
      exact used
  | arrow params output inputs last =>
    obtain ⟨params', output', each, out, rfl⟩ := replaceIn_arrow.mp run
    simp only [Effect.uses_arrow]
    constructor
    · intro used
      rcases used with ⟨after, present, used⟩ | used
      · obtain ⟨param, member, part⟩ := forall₂_mem_right each present
        obtain ⟨other, name', at_name, later⟩ := (inputs param member part).mp used
        exact ⟨other, name', Or.inl ⟨param, member, at_name⟩, later⟩
      · obtain ⟨other, name', at_name, later⟩ := (last out).mp used
        exact ⟨other, name', Or.inr at_name, later⟩
    · rintro ⟨other, name', at_name, later⟩
      rcases at_name with ⟨param, member, at_name⟩ | at_name
      · obtain ⟨after, present, part⟩ := forall₂_mem_left each member
        exact Or.inl ⟨after, present, (inputs param member part).mpr ⟨other, name', at_name, later⟩⟩
      · exact Or.inr ((last out).mpr ⟨other, name', at_name, later⟩)

theorem everySet_replaceIn {P : VariableSet → Prop} (values : σ.EverySet P)
    (kept : ∀ {set result}, P set → σ.applyToVariables set = .ok result → P result)
    {effect result : Effect} (sets : effect.EverySet P) (run : σ.replaceIn effect = .ok result) :
    result.EverySet P := by
  induction effect generalizing result with
  | concrete footprint =>
    obtain ⟨after, slots, rfl⟩ := replaceIn_concrete.mp run
    exact .concrete fun component => kept (Effect.everySet_concrete.mp sets component)
      (slots component)
  | quantified name =>
    have value := replaceIn_quantified.mp run
    cases found : σ.get? name with
    | none =>
      rw [valueAt_of_unbound found] at value
      cases value
      exact sets
    | some term =>
      rw [valueAt_of_get? found] at value
      subst value
      exact values _ (mem_of_get? found)
  | arrow params output inputs last =>
    obtain ⟨params', output', each, out, rfl⟩ := replaceIn_arrow.mp run
    obtain ⟨ins, outs⟩ := Effect.everySet_arrow.mp sets
    refine .arrow (fun after present => ?_) (last outs out)
    obtain ⟨param, member, part⟩ := forall₂_mem_right each present
    exact inputs param member (ins param member) part

theorem replaceIn_self {effect : Effect} (canonical : effect.Canonical)
    (unbound : ∀ kind name, effect.Uses kind name → σ.get? name = none) :
    σ.replaceIn effect = .ok effect := by
  induction effect with
  | concrete footprint =>
    rw [replaceIn_concrete]
    refine ⟨footprint, fun component => ?_, rfl⟩
    exact applyToVariables_self (Effect.everySet_concrete.mp canonical component)
      fun kind name used => unbound kind name (Effect.uses_concrete.mpr ⟨component, used⟩)
  | quantified name =>
    rw [replaceIn_quantified]
    exact valueAt_of_unbound (unbound .effect name (Effect.uses_quantified.mpr ⟨rfl, rfl⟩))
  | arrow params output inputs last =>
    obtain ⟨ins, outs⟩ := Effect.everySet_arrow.mp canonical
    rw [replaceIn_arrow]
    refine ⟨params, output, List.forall₂_same.mpr fun param member => ?_, ?_, rfl⟩
    · exact inputs param member (ins param member) fun kind name used =>
        unbound kind name (Effect.uses_arrow.mpr (Or.inl ⟨param, member, used⟩))
    · exact last outs fun kind name used => unbound kind name (Effect.uses_arrow.mpr (Or.inr used))

end Substitution

end SpecEffects
