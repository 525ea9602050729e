import SpecEffects.Proofs.Terms

/-!
Composition of substitutions. What is composed does in one pass what its two parts do one after the
other, failures included, as long as all bound values are canonical. Names may be bound several
times and at either kind.
-/
namespace SpecEffects

variable {α β γ : Type}

theorem forall₂_congr_mem {R S : α → β → Prop} {as : List α} {bs : List β}
    (same : ∀ a ∈ as, ∀ b, R a b ↔ S a b) : List.Forall₂ R as bs ↔ List.Forall₂ S as bs := by
  induction as generalizing bs with
  | nil => simp
  | cons a rest ih =>
    simp only [List.forall₂_cons_left_iff, same a List.mem_cons_self,
      ih fun b member => same b (List.mem_cons_of_mem _ member)]

theorem forall₂_exists_middle {R : α → β → Prop} {S : β → γ → Prop} {as : List α} {cs : List γ} :
    List.Forall₂ (fun a c => ∃ b, R a b ∧ S b c) as cs ↔
      ∃ bs, List.Forall₂ R as bs ∧ List.Forall₂ S bs cs := by
  constructor
  · intro each
    induction each with
    | nil => exact ⟨[], .nil, .nil⟩
    | cons head tail ih =>
      obtain ⟨b, first, second⟩ := head
      obtain ⟨bs, firsts, seconds⟩ := ih
      exact ⟨b :: bs, .cons first firsts, .cons second seconds⟩
  · rintro ⟨bs, firsts, seconds⟩
    induction firsts generalizing cs with
    | nil =>
      cases seconds
      exact .nil
    | cons first _ ih =>
      cases seconds with
      | cons second rest => exact .cons ⟨_, first, second⟩ (ih rest)

namespace Substitution

variable {new existing composed : Substitution}

theorem applyToBindings_eq_ok {σ : Substitution} {bindings results : List Binding} :
    σ.applyToBindings bindings = .ok results ↔
      List.Forall₂ (fun binding result =>
        result.name = binding.name ∧ σ.applyToTerm binding.value = .ok result.value)
        bindings results := by
  induction bindings generalizing results with
  | nil => simp [applyToBindings, eq_comm]
  | cons binding rest ih =>
    simp only [applyToBindings, bind_eq_ok, pure_eq_ok, ih, List.forall₂_cons_left_iff]
    constructor
    · rintro ⟨value, run, tail, later, whole⟩
      exact ⟨⟨binding.name, value⟩, tail, ⟨rfl, run⟩, later, whole⟩
    · rintro ⟨⟨name, value⟩, tail, ⟨same, run⟩, later, whole⟩
      cases same
      exact ⟨value, run, tail, later, whole⟩

/-- A composition lists the changed bindings of the existing substitution and then the new ones. -/
theorem compose_eq_ok :
    new.compose existing = .ok composed ↔
      ∃ changed, List.Forall₂ (fun binding result =>
          result.name = binding.name ∧ new.applyToTerm binding.value = .ok result.value)
          existing.bindings changed ∧
        composed =
          ⟨changed ++ new.bindings.filter fun binding => !existing.binds binding.name⟩ := by
  simp only [compose, bind_eq_ok, pure_eq_ok, applyToBindings_eq_ok]

theorem exists_compose
    (each : ∀ binding ∈ existing.bindings, ∃ value, new.applyToTerm binding.value = .ok value) :
    ∃ composed, new.compose existing = .ok composed := by
  obtain ⟨changed, run⟩ := exists_forall₂ fun binding (member : binding ∈ existing.bindings) =>
    (each binding member).elim fun value run =>
      (⟨⟨binding.name, value⟩, rfl, run⟩ : ∃ result : Binding,
        result.name = binding.name ∧ new.applyToTerm binding.value = .ok result.value)
  exact ⟨_, compose_eq_ok.mpr ⟨changed, run, rfl⟩⟩

theorem get?_eq_none_of_not_binds {σ : Substitution} {name : String}
    (unbound : (!σ.binds name) = true) : σ.get? name = none := by
  rw [get?, Option.map_eq_none_iff]
  simpa [binds] using unbound

theorem mem_compose (run : new.compose existing = .ok composed) {binding : Binding}
    (member : binding ∈ composed.bindings) :
    (∃ old ∈ existing.bindings, binding.name = old.name ∧
      new.applyToTerm old.value = .ok binding.value) ∨
    binding ∈ new.bindings ∧ existing.get? binding.name = none := by
  obtain ⟨changed, each, rfl⟩ := compose_eq_ok.mp run
  rcases List.mem_append.mp member with present | present
  · obtain ⟨old, before, same, value⟩ := forall₂_mem_right each present
    exact Or.inl ⟨old, before, same, value⟩
  · obtain ⟨present, unbound⟩ := List.mem_filter.mp present
    exact Or.inr ⟨present, get?_eq_none_of_not_binds unbound⟩

theorem find?_changed {R : Binding → Binding → Prop} {bindings changed : List Binding}
    (each : List.Forall₂ (fun binding result => result.name = binding.name ∧ R binding result)
      bindings changed) (name : String) :
    (∀ binding, bindings.find? (fun binding => binding.name = name) = some binding →
      ∃ result, R binding result ∧
        changed.find? (fun binding => binding.name = name) = some result) ∧
    (bindings.find? (fun binding => binding.name = name) = none →
      changed.find? (fun binding => binding.name = name) = none) := by
  induction each with
  | nil => simp
  | @cons binding result bindings changed head tail ih =>
    obtain ⟨same, relation⟩ := head
    by_cases here : binding.name = name
    · simp only [List.find?_cons, same, here, decide_true, Option.some.injEq]
      constructor
      · intro found eq
        subst eq
        exact ⟨result, relation, rfl⟩
      · intro absurd
        cases absurd
    · simpa [List.find?_cons, same, here] using ih

theorem get?_compose_bound (run : new.compose existing = .ok composed) {name : String}
    {value : Term}
    (bound : existing.get? name = some value) :
    ∃ after, new.applyToTerm value = .ok after ∧ composed.get? name = some after := by
  obtain ⟨changed, each, rfl⟩ := compose_eq_ok.mp run
  obtain ⟨binding, first, rfl⟩ := Option.map_eq_some_iff.mp bound
  obtain ⟨result, value, found⟩ := (find?_changed each name).1 binding first
  refine ⟨result.value, value, ?_⟩
  simp [get?, find?, List.find?_append, found]

theorem get?_compose_unbound (run : new.compose existing = .ok composed) {name : String}
    (unbound : existing.get? name = none) : composed.get? name = new.get? name := by
  obtain ⟨changed, each, rfl⟩ := compose_eq_ok.mp run
  have missing : existing.find? name = none := Option.map_eq_none_iff.mp unbound
  have skipped := (find?_changed each name).2 missing
  have kept : (new.bindings.filter fun binding => !existing.binds binding.name).find?
      (fun binding => binding.name = name) =
      new.bindings.find? (fun binding => binding.name = name) := by
    rw [List.find?_filter]
    congr 1
    funext binding
    by_cases here : binding.name = name
    · simp [here, binds, missing]
    · simp [here]
  simp only [get?, find?, List.find?_append, skipped, Option.none_or, kept]

theorem everySet_compose {P : VariableSet → Prop} (news : new.EverySet P)
    (kept : ∀ {set result}, P set → new.applyToVariables set = .ok result → P result)
    (olds : existing.EverySet P) (run : new.compose existing = .ok composed) :
    composed.EverySet P := by
  intro binding member
  rcases mem_compose run member with ⟨old, before, _, value⟩ | ⟨present, _⟩
  · exact everySet_applyToTerm news kept (olds old before) value
  · exact news binding present

theorem canonical_compose (news : new.Canonical) (olds : existing.Canonical)
    (run : new.compose existing = .ok composed) : composed.Canonical :=
  everySet_compose news (fun _ => canonical_applyToVariables news) olds run

theorem over_compose {V : Vocabulary} (news : new.Over V) (olds : existing.Over V)
    (run : new.compose existing = .ok composed) : composed.Over V := by
  intro binding member
  rcases mem_compose run member with ⟨old, before, same, value⟩ | ⟨present, _⟩
  · obtain ⟨at_kind, within⟩ := olds old before
    rw [same, kind_applyToTerm value]
    exact ⟨at_kind, over_applyToTerm news.values within value⟩
  · exact news binding present

theorem allows_compose (run : new.compose existing = .ok composed) {kind : Kind} {name : String} :
    composed.Allows kind name ↔
      existing.Allows kind name ∧
        ∃ result, new.applyToTerm (existing.valueAt kind name) = .ok result := by
  cases found : existing.get? name with
  | none =>
    have same : composed.Allows kind name ↔ new.Allows kind name := by
      rw [Allows, Allows, valueAt, valueAt, get?_compose_unbound run found]
    rw [same, valueAt_of_unbound found]
    constructor
    · intro allowed
      exact ⟨allows_of_unbound found, _, applyToTerm_quantified.mpr ⟨allowed, rfl⟩⟩
    · rintro ⟨_, result, later⟩
      exact (applyToTerm_quantified.mp later).1
  | some value =>
    obtain ⟨after, later, bound⟩ := get?_compose_bound run found
    rw [allows_of_get? bound, allows_of_get? found, valueAt_of_get? found, kind_applyToTerm later]
    constructor
    · intro at_kind
      exact ⟨at_kind, after, later⟩
    · rintro ⟨at_kind, _⟩
      exact at_kind

theorem applyToTerm_valueAt (run : new.compose existing = .ok composed) {kind : Kind}
    {name : String} (allowed : composed.Allows kind name) :
    new.applyToTerm (existing.valueAt kind name) = .ok (composed.valueAt kind name) := by
  cases found : existing.get? name with
  | none =>
    have same : composed.valueAt kind name = new.valueAt kind name := by
      rw [valueAt, valueAt, get?_compose_unbound run found]
    rw [Allows, same] at allowed
    rw [valueAt_of_unbound found, applyToTerm_quantified]
    exact ⟨allowed, same⟩
  | some value =>
    obtain ⟨after, later, bound⟩ := get?_compose_bound run found
    rw [valueAt_of_get? found, valueAt_of_get? bound]
    exact later

section Twice

variable (run : new.compose existing = .ok composed) {set between last once : VariableSet}
  (first : existing.applyToVariables set = .ok between)
  (second : new.applyToVariables between = .ok last)
  (single : composed.applyToVariables set = .ok once)

include run first second single

theorem uses_applyToVariables_twice {kind : Kind} {name : String} :
    once.Uses kind name ↔ last.Uses kind name := by
  have allowed := exists_applyToVariables.mp ⟨once, single⟩
  rw [uses_applyToVariables single, uses_applyToVariables second]
  constructor
  · rintro ⟨other, old, used, value⟩
    obtain ⟨middle, between', used', later⟩ :=
      (uses_applyToTerm (applyToTerm_valueAt run (allowed other old used)) _ _).mp value
    exact ⟨middle, between', (uses_applyToVariables first _ _).mpr ⟨other, old, used, used'⟩, later⟩
  · rintro ⟨middle, between', at_middle, later⟩
    obtain ⟨other, old, used, used'⟩ := (uses_applyToVariables first _ _).mp at_middle
    refine ⟨other, old, used, ?_⟩
    rw [uses_applyToTerm (applyToTerm_valueAt run (allowed other old used))]
    exact ⟨middle, between', used', later⟩

theorem mem_concreteNames_applyToVariables_twice {var : String} :
    var ∈ once.concreteNames ↔ var ∈ last.concreteNames := by
  have allowed := exists_applyToVariables.mp ⟨once, single⟩
  rw [mem_concreteNames_applyToVariables single, mem_concreteNames_applyToVariables second,
    mem_concreteNames_applyToVariables first]
  have values : ∀ name, set.Uses .variables name →
      (var ∈ (composed.valueAt .variables name).concreteNames ↔
        var ∈ (existing.valueAt .variables name).concreteNames ∨
          ∃ other, (existing.valueAt .variables name).Uses .variables other ∧
            var ∈ (new.valueAt .variables other).concreteNames) := by
    intro name used
    have at_name := allowed .variables name used
    exact mem_concreteNames_applyToTerm (applyToTerm_valueAt run at_name)
      ((allows_compose run).mp at_name).1 var
  constructor
  · intro found
    rcases found with old | ⟨name, used, value⟩
    · exact Or.inl (Or.inl old)
    · rcases (values name used).mp value with before | ⟨other, used', later⟩
      · exact Or.inl (Or.inr ⟨name, used, before⟩)
      · refine Or.inr ⟨other, ?_, later⟩
        exact (uses_applyToVariables first _ _).mpr ⟨.variables, name, used, used'⟩
  · intro found
    rcases found with (old | ⟨name, used, before⟩) | ⟨other, at_middle, later⟩
    · exact Or.inl old
    · exact Or.inr ⟨name, used, (values name used).mpr (Or.inl before)⟩
    · obtain ⟨kind, name, used, used'⟩ := (uses_applyToVariables first _ _).mp at_middle
      cases used.1
      exact Or.inr ⟨name, used, (values name used).mpr (Or.inr ⟨other, used', later⟩)⟩

theorem applyToVariables_compose_eq (news : new.Canonical) (olds : existing.Canonical) :
    once = last := by
  apply VariableSet.canonical_ext
    (canonical_applyToVariables (canonical_compose news olds run) single)
    (canonical_applyToVariables news second)
  · intro name
    have uses : once.Uses .variables name ↔ last.Uses .variables name :=
      uses_applyToVariables_twice run first second single
    simpa [VariableSet.Uses] using uses
  · intro var
    exact mem_concreteNames_applyToVariables_twice run first second single

end Twice

theorem applyToVariables_compose (news : new.Canonical) (olds : existing.Canonical)
    (run : new.compose existing = .ok composed) {set result : VariableSet} :
    composed.applyToVariables set = .ok result ↔
      ∃ between, existing.applyToVariables set = .ok between ∧
        new.applyToVariables between = .ok result := by
  constructor
  · intro single
    have allowed := exists_applyToVariables.mp ⟨result, single⟩
    obtain ⟨between, first⟩ := exists_applyToVariables.mpr fun kind name used =>
      ((allows_compose run).mp (allowed kind name used)).1
    obtain ⟨last, second⟩ := exists_applyToVariables.mpr
        fun kind name (used : between.Uses kind name) => by
      obtain ⟨other, old, before, value⟩ := (uses_applyToVariables first kind name).mp used
      have later := ((allows_compose run).mp (allowed other old before)).2
      exact exists_applyToTerm.mp later kind name value
    refine ⟨between, first, ?_⟩
    rw [second, applyToVariables_compose_eq run first second single news olds]
  · rintro ⟨between, first, second⟩
    have before := exists_applyToVariables.mp ⟨between, first⟩
    have after := exists_applyToVariables.mp ⟨result, second⟩
    obtain ⟨once, single⟩ := exists_applyToVariables.mpr fun kind name used =>
      (allows_compose run).mpr ⟨before kind name used,
        exists_applyToTerm.mpr fun other name' value =>
          after other name' ((uses_applyToVariables first _ _).mpr ⟨kind, name, used, value⟩)⟩
    rw [single, applyToVariables_compose_eq run first second single news olds]

theorem valueAt_compose_effect (run : new.compose existing = .ok composed)
    {name : String} {result : Effect} :
    composed.valueAt .effect name = .effect result ↔
      ∃ between, existing.valueAt .effect name = .effect between ∧
        new.apply between = .ok result := by
  constructor
  · intro value
    have allowed : composed.Allows .effect name := by
      rw [Allows, value]
      rfl
    have later := applyToTerm_valueAt run allowed
    have at_effect := kind_applyToTerm later
    rw [value] at later at_effect
    cases before : existing.valueAt .effect name
    · rw [before, applyToTerm_effect] at later
      obtain ⟨after, inside, eq⟩ := later
      cases eq
      exact ⟨_, rfl, inside⟩
    · rw [before] at at_effect
      cases at_effect
  · rintro ⟨between, before, second⟩
    have later : new.applyToTerm (existing.valueAt .effect name) = .ok (.effect result) := by
      rw [before, applyToTerm_effect]
      exact ⟨result, second, rfl⟩
    have first : existing.Allows .effect name := by
      rw [Allows, before]
      rfl
    have allowed := (allows_compose run).mpr ⟨first, _, later⟩
    rw [applyToTerm_valueAt run allowed] at later
    exact Except.ok.inj later

theorem replaceIn_compose (news : new.Canonical) (olds : existing.Canonical)
    (some : new.isEmpty = false) (run : new.compose existing = .ok composed)
    {effect result : Effect} :
    composed.replaceIn effect = .ok result ↔
      ∃ between, existing.replaceIn effect = .ok between ∧ new.replaceIn between = .ok result := by
  have applies : ∀ effect, new.apply effect = new.replaceIn effect := by
    rcases apply_cases new with ⟨rfl, _⟩ | ⟨_, same⟩
    · cases some
    · exact same
  induction effect generalizing result with
  | concrete footprint =>
    simp only [replaceIn_concrete, applyToVariables_compose news olds run]
    constructor
    · rintro ⟨after, slots, whole⟩
      obtain ⟨between, each⟩ := Footprint.exists_of_get slots
      exact ⟨_, ⟨between, fun component => (each component).1, rfl⟩,
        replaceIn_concrete.mpr ⟨after, fun component => (each component).2, whole⟩⟩
    · rintro ⟨_, ⟨between, slots, part⟩, second⟩
      subst part
      obtain ⟨after, slots', whole⟩ := replaceIn_concrete.mp second
      exact ⟨after, fun component => ⟨_, slots component, slots' component⟩, whole⟩
  | quantified name =>
    simp only [replaceIn_quantified, valueAt_compose_effect run, applies]
  | arrow params output inputs last =>
    simp only [replaceIn_arrow, forall₂_congr_mem fun param member _ => inputs param member, last,
      forall₂_exists_middle]
    constructor
    · rintro ⟨params', output', ⟨middle, firsts, seconds⟩, ⟨out, first, second⟩, whole⟩
      exact ⟨_, ⟨middle, out, firsts, first, rfl⟩,
        replaceIn_arrow.mpr ⟨params', output', seconds, second, whole⟩⟩
    · rintro ⟨_, ⟨middle, out, firsts, first, part⟩, second⟩
      subst part
      obtain ⟨params', output', seconds, second, whole⟩ := replaceIn_arrow.mp second
      exact ⟨params', output', ⟨middle, firsts, seconds⟩, ⟨out, first, second⟩, whole⟩

theorem compose_empty_right (new : Substitution) : new.compose ∅ = .ok new := by
  rw [compose_eq_ok]
  refine ⟨[], .nil, ?_⟩
  cases new
  simp [binds, find?, EmptyCollection.emptyCollection]

theorem compose_empty_left (olds : existing.Canonical) :
    (∅ : Substitution).compose existing = .ok existing := by
  rw [compose_eq_ok]
  refine ⟨existing.bindings, List.forall₂_same.mpr fun binding member => ⟨rfl, ?_⟩, ?_⟩
  · exact applyToTerm_self (olds binding member) fun _ name _ => get?_empty name
  · exact congrArg Substitution.mk (List.append_nil _).symm

theorem apply_compose (news : new.Canonical) (olds : existing.Canonical)
    (run : new.compose existing = .ok composed) {effect result : Effect} :
    composed.apply effect = .ok result ↔
      ∃ between, existing.apply effect = .ok between ∧ new.apply between = .ok result := by
  rcases apply_cases new with ⟨rfl, stays⟩ | ⟨some, news_apply⟩
  · cases (compose_empty_left olds).symm.trans run
    simp [stays]
  · rcases apply_cases existing with ⟨rfl, stays⟩ | ⟨some', olds_apply⟩
    · cases (compose_empty_right new).symm.trans run
      simp [stays]
    · have composed_apply : composed.apply effect = composed.replaceIn effect := by
        rcases apply_cases composed with ⟨rfl, _⟩ | ⟨_, same⟩
        · obtain ⟨changed, each, eq⟩ := compose_eq_ok.mp run
          have none : changed = [] :=
            (List.append_eq_nil_iff.mp (congrArg Substitution.bindings eq).symm).1
          subst none
          simp [isEmpty, List.forall₂_nil_right_iff.mp each] at some'
        · exact same effect
      simp only [composed_apply, olds_apply, news_apply]
      exact replaceIn_compose news olds some run

theorem applyToTerm_compose (news : new.Canonical) (olds : existing.Canonical)
    (run : new.compose existing = .ok composed) {term result : Term} :
    composed.applyToTerm term = .ok result ↔
      ∃ between, existing.applyToTerm term = .ok between ∧
        new.applyToTerm between = .ok result := by
  cases term
  · simp only [applyToTerm_effect, apply_compose news olds run]
    constructor
    · rintro ⟨after, ⟨between, first, second⟩, whole⟩
      exact ⟨_, ⟨between, first, rfl⟩, applyToTerm_effect.mpr ⟨after, second, whole⟩⟩
    · rintro ⟨_, ⟨between, first, part⟩, second⟩
      subst part
      obtain ⟨after, second, whole⟩ := applyToTerm_effect.mp second
      exact ⟨after, ⟨between, first, second⟩, whole⟩
  · simp only [applyToTerm_variables, applyToVariables_compose news olds run]
    constructor
    · rintro ⟨after, ⟨between, first, second⟩, whole⟩
      exact ⟨_, ⟨between, first, rfl⟩, applyToTerm_variables.mpr ⟨after, second, whole⟩⟩
    · rintro ⟨_, ⟨between, first, part⟩, second⟩
      subst part
      obtain ⟨after, second, whole⟩ := applyToTerm_variables.mp second
      exact ⟨after, ⟨between, first, second⟩, whole⟩

/-- One pass succeeds exactly when the two passes do, and then with the same result. -/
theorem composition_is_sequential_application (news : new.Canonical) (olds : existing.Canonical)
    (run : new.compose existing = .ok composed) (effect : Effect) :
    ((∃ result, composed.apply effect = .ok result) ↔
      ∃ between, existing.apply effect = .ok between ∧ ∃ result, new.apply between = .ok result) ∧
    ∀ between, existing.apply effect = .ok between →
      ∀ result, composed.apply effect = .ok result ↔ new.apply between = .ok result := by
  constructor
  · constructor
    · rintro ⟨result, single⟩
      obtain ⟨between, first, second⟩ := (apply_compose news olds run).mp single
      exact ⟨between, first, result, second⟩
    · rintro ⟨between, first, result, second⟩
      exact ⟨result, (apply_compose news olds run).mpr ⟨between, first, second⟩⟩
  · intro between first result
    rw [apply_compose news olds run]
    constructor
    · rintro ⟨other, first', second⟩
      cases first.symm.trans first'
      exact second
    · intro second
      exact ⟨between, first, second⟩

/-- A union that shrinks to one name in the first pass and to a concrete set in the second, with a
name that is bound again at the other kind. -/
theorem sequential_application_of_shrinking_union :
    let new : Substitution := single "w" (.variables (.concrete (.singleton "x")))
    let existing : Substitution := ⟨[⟨"v", .variables (.quantified "w")⟩, ⟨"v", .effect .empty⟩]⟩
    let composed : Substitution := ⟨[⟨"v", .variables (.concrete (.singleton "x"))⟩,
      ⟨"v", .effect .empty⟩, ⟨"w", .variables (.concrete (.singleton "x"))⟩]⟩
    let effect : Effect :=
      .concrete ⟨.union [.quantified "v", .quantified "w"], .empty, .empty⟩
    let between : Effect := .concrete ⟨.quantified "w", .empty, .empty⟩
    new.Canonical ∧ existing.Canonical ∧ new.compose existing = .ok composed ∧
      existing.apply effect = .ok between ∧ new.apply between = .ok (.reads "x") ∧
      composed.apply effect = .ok (.reads "x") := by
  intro new existing composed effect between
  have news : new.Canonical := by decide
  have olds : existing.Canonical := by decide
  have run : new.compose existing = .ok composed := by decide
  have first : existing.apply effect = .ok between := by decide
  have second : new.apply between = .ok (.reads "x") := by decide
  have same := (composition_is_sequential_application news olds run effect).2 between first
  exact ⟨news, olds, run, first, second, (same _).mpr second⟩

end Substitution

end SpecEffects
