import SpecEffects.Proofs.Composition

/-!
Composition of substitutions is associative. Three substitutions can be composed from either side,
and the outcome is one and the same list of bindings: first those of the innermost substitution, then
what the middle one adds, then what the outermost one adds. Bindings of a name that is bound further
in are dropped on both ways.
-/
namespace SpecEffects.Substitution

theorem applyToBindings_append {σ : Substitution} {front back results : List Binding} :
    σ.applyToBindings (front ++ back) = .ok results ↔
      ∃ first second, σ.applyToBindings front = .ok first ∧
        σ.applyToBindings back = .ok second ∧ results = first ++ second := by
  induction front generalizing results with
  | nil => simp [applyToBindings, eq_comm]
  | cons binding rest ih =>
    simp only [List.cons_append, applyToBindings, bind_eq_ok, pure_eq_ok, ih]
    constructor
    · rintro ⟨value, here, _, ⟨first, second, before, after, rfl⟩, whole⟩
      exact ⟨_, second, ⟨value, here, first, before, rfl⟩, after, whole⟩
    · rintro ⟨_, second, ⟨value, here, first, before, rfl⟩, after, whole⟩
      exact ⟨value, here, _, ⟨first, second, before, after, rfl⟩, whole⟩

theorem applyToBindings_filter {σ : Substitution} {bindings results : List Binding}
    (keep : String → Bool) (run : σ.applyToBindings bindings = .ok results) :
    σ.applyToBindings (bindings.filter fun binding => keep binding.name) =
      .ok (results.filter fun binding => keep binding.name) := by
  induction bindings generalizing results with
  | nil =>
    cases run
    rfl
  | cons binding rest ih =>
    simp only [applyToBindings, bind_eq_ok, pure_eq_ok] at run
    obtain ⟨value, here, others, later, rfl⟩ := run
    by_cases kept : keep binding.name = true
    · simp only [List.filter_cons, kept, ↓reduceIte, applyToBindings, here, ih later]
      rfl
    · simp only [List.filter_cons, kept, Bool.false_eq_true, ↓reduceIte, ih later]

variable {a b c ab bc : Substitution}

theorem binds_eq_isSome (σ : Substitution) (name : String) : σ.binds name = (σ.get? name).isSome := by
  rw [binds, get?, Option.isSome_map]

theorem binds_compose (run : b.compose c = .ok bc) (name : String) :
    bc.binds name = (c.binds name || b.binds name) := by
  simp only [binds_eq_isSome]
  cases bound : c.get? name with
  | none => rw [get?_compose_unbound run bound, Option.isSome_none, Bool.false_or]
  | some value =>
    obtain ⟨after, _, found⟩ := get?_compose_bound run bound
    rw [found, Option.isSome_some, Option.isSome_some, Bool.true_or]

theorem applyToBindings_compose (canonical : a.Canonical) (canonical' : b.Canonical)
    (run : a.compose b = .ok ab) {bindings results : List Binding} :
    ab.applyToBindings bindings = .ok results ↔
      ∃ between, b.applyToBindings bindings = .ok between ∧
        a.applyToBindings between = .ok results := by
  induction bindings generalizing results with
  | nil => simp [applyToBindings]
  | cons binding rest ih =>
    simp only [applyToBindings, bind_eq_ok, pure_eq_ok, ih,
      applyToTerm_compose canonical canonical' run]
    constructor
    · rintro ⟨last, ⟨value, first, second⟩, others, ⟨between, before, after⟩, whole⟩
      refine ⟨_, ⟨value, first, between, before, rfl⟩, ?_⟩
      simp only [applyToBindings, bind_eq_ok, pure_eq_ok]
      exact ⟨last, second, others, after, whole⟩
    · rintro ⟨_, ⟨value, first, between, before, rfl⟩, run⟩
      simp only [applyToBindings, bind_eq_ok, pure_eq_ok] at run
      obtain ⟨last, second, others, after, whole⟩ := run
      exact ⟨last, ⟨value, first, second⟩, others, ⟨between, before, after⟩, whole⟩

theorem compose_assoc (canonical : a.Canonical) (canonical' : b.Canonical)
    (left : a.compose b = .ok ab) (right : b.compose c = .ok bc) {whole : Substitution} :
    a.compose bc = .ok whole ↔ ab.compose c = .ok whole := by
  have bound := binds_compose right
  have twice : ∀ results, ab.applyToBindings c.bindings = .ok results ↔
      ∃ between, b.applyToBindings c.bindings = .ok between ∧
        a.applyToBindings between = .ok results :=
    fun _ => applyToBindings_compose canonical canonical' left
  simp only [compose, bind_eq_ok, pure_eq_ok] at left right
  obtain ⟨middle, changes, rfl⟩ := left
  obtain ⟨inner, inside, rfl⟩ := right
  have kept := applyToBindings_filter (fun name => !c.binds name) changes
  -- outermost bindings are dropped for the same names, at once or in two steps
  have outer : (a.bindings.filter fun binding => !b.binds binding.name).filter
      (fun binding => !c.binds binding.name) =
      a.bindings.filter fun binding => !(c.binds binding.name || b.binds binding.name) := by
    rw [List.filter_filter]
    congr 1
    funext binding
    rw [Bool.not_or]
  simp only [compose, bind_eq_ok, pure_eq_ok, twice, applyToBindings_append, bound,
    List.filter_append, outer]
  constructor
  · rintro ⟨_, ⟨first, second, before, after, rfl⟩, rfl⟩
    cases kept.symm.trans after
    exact ⟨first, ⟨inner, inside, before⟩, by rw [List.append_assoc]⟩
  · rintro ⟨first, ⟨between, inside', before⟩, rfl⟩
    cases inside.symm.trans inside'
    exact ⟨_, ⟨first, _, before, kept, rfl⟩, by rw [List.append_assoc]⟩

/-- Of the two ways to compose three substitutions one succeeds exactly when the other does, and they
give the same bindings in the same order. -/
theorem composition_is_associative (canonical : a.Canonical) (canonical' : b.Canonical)
    (left : a.compose b = .ok ab) (right : b.compose c = .ok bc) :
    ((∃ whole, a.compose bc = .ok whole) ↔ ∃ whole, ab.compose c = .ok whole) ∧
    ∀ first second, a.compose bc = .ok first → ab.compose c = .ok second →
      first.bindings = second.bindings ∧ ∀ effect, first.apply effect = second.apply effect := by
  refine ⟨exists_congr fun _ => compose_assoc canonical canonical' left right, ?_⟩
  intro first second outer inner
  cases ((compose_assoc canonical canonical' left right).mp outer).symm.trans inner
  exact ⟨rfl, fun _ => rfl⟩

/-- The middle substitution binds a name twice, at both kinds, and a name that the innermost one
binds as well. -/
theorem associativity_with_repeated_names :
    let x : VariableSet := .concrete (.singleton "x")
    let a : Substitution := ⟨[⟨"w", .variables x⟩, ⟨"e", .effect .empty⟩]⟩
    let b : Substitution := ⟨[⟨"v", .variables (.quantified "w")⟩, ⟨"v", .effect (.quantified "e")⟩,
      ⟨"e", .effect (.quantified "d")⟩]⟩
    let c : Substitution := ⟨[⟨"e", .effect (.concrete
      ⟨.union [.quantified "v", .quantified "w"], .quantified "v", .empty⟩)⟩]⟩
    let ab : Substitution := ⟨[⟨"v", .variables x⟩, ⟨"v", .effect .empty⟩,
      ⟨"e", .effect (.quantified "d")⟩, ⟨"w", .variables x⟩]⟩
    let bc : Substitution := ⟨[⟨"e", .effect (.concrete ⟨.quantified "w", .quantified "w", .empty⟩)⟩,
      ⟨"v", .variables (.quantified "w")⟩, ⟨"v", .effect (.quantified "e")⟩]⟩
    let whole : Substitution := ⟨[⟨"e", .effect (.concrete ⟨x, x, .empty⟩)⟩, ⟨"v", .variables x⟩,
      ⟨"v", .effect .empty⟩, ⟨"w", .variables x⟩]⟩
    a.Canonical ∧ b.Canonical ∧ c.Canonical ∧ a.compose b = .ok ab ∧ b.compose c = .ok bc ∧
      a.compose bc = .ok whole ∧ ab.compose c = .ok whole := by
  intro x a b c ab bc whole
  have canonical : a.Canonical := by decide
  have canonical' : b.Canonical := by decide
  have left : a.compose b = .ok ab := by decide
  have right : b.compose c = .ok bc := by decide
  have outer : a.compose bc = .ok whole := by decide
  obtain ⟨other, inner⟩ :=
    (composition_is_associative canonical canonical' left right).1.mp ⟨whole, outer⟩
  have same := (composition_is_associative canonical canonical' left right).2 _ _ outer inner
  obtain ⟨bindings⟩ := other
  cases same.1
  exact ⟨canonical, canonical', by decide, left, right, outer, inner⟩

end SpecEffects.Substitution
