import Mathlib.Data.List.Nodup
import SpecEffects.Proofs.Composition

/-!
Renaming of quantified names. A renaming that keeps the names of a vocabulary apart loses nothing,
and everything that substitutions do goes along with it: if one substitution has the renamed values
of another, then so has what it makes of a renamed term.
-/
namespace SpecEffects

namespace SortedSet

def image (f : String → String) (s : NameSet) : NameSet := .ofList (s.toList.map f)

theorem mem_image {f : String → String} {s : NameSet} {x : String} :
    x ∈ s.image f ↔ ∃ a, a ∈ s ∧ f a = x := by
  rw [image, mem_ofList, List.mem_map]
  rfl

theorem size_image {f : String → String} {s : NameSet}
    (injective : ∀ a, a ∈ s → ∀ b, b ∈ s → f a = f b → a = b) : (s.image f).size = s.size := by
  have nodup : (s.toList.map f).Nodup := List.Nodup.map_on injective s.toList_nodup
  have same : (s.image f).toList.Perm (s.toList.map f) :=
    (List.perm_ext_iff_of_nodup (s.image f).toList_nodup nodup).mpr fun _ => mem_ofList
  rw [size, same.length_eq, List.length_map, size]

end SortedSet

namespace Vocabulary

def image (ρ : String → String) (V : Vocabulary) : Vocabulary := fun kind name =>
  ∃ old, V kind old ∧ ρ old = name

/-- The renaming keeps the names of the vocabulary apart, whatever their kinds. -/
def Injective (ρ : String → String) (V : Vocabulary) : Prop :=
  ∀ ⦃kind kind' name name'⦄, V kind name → V kind' name' → ρ name = ρ name' → name = name'

variable {ρ : String → String} {V W : Vocabulary}

theorem Injective.mono (injective : V.Injective ρ) (fewer : ∀ kind name, W kind name → V kind name) :
    W.Injective ρ :=
  fun _ _ _ _ used used' same => injective (fewer _ _ used) (fewer _ _ used') same

theorem injective_id (V : Vocabulary) : V.Injective id := fun _ _ _ _ _ _ same => same

theorem Injective.exists_inverse (injective : V.Injective ρ) :
    ∃ back : String → String, ∀ kind name, V kind name → back (ρ name) = name := by
  classical
  refine ⟨fun name => if present : ∃ kind old, V kind old ∧ ρ old = name
    then present.choose_spec.choose else name, fun kind name used => ?_⟩
  have present : ∃ kind' old, V kind' old ∧ ρ old = ρ name := ⟨kind, name, used, rfl⟩
  dsimp only
  rw [dif_pos present]
  obtain ⟨used', same⟩ := present.choose_spec.choose_spec
  exact injective used' used same

end Vocabulary

namespace VariableSet

def rename (ρ : String → String) (set : VariableSet) : VariableSet :=
  ofNames (set.quantifiedNames.image ρ) set.concreteNames

variable {ρ ρ' : String → String} {V : Vocabulary} {set other : VariableSet}

theorem canonical_rename (ρ : String → String) (set : VariableSet) : (set.rename ρ).Canonical :=
  canonical_ofNames _ _

theorem rename_concrete (ρ : String → String) (vars : NameSet) :
    (concrete vars).rename ρ = concrete vars := rfl

theorem rename_quantified (ρ : String → String) (name : String) :
    (quantified name).rename ρ = quantified (ρ name) := rfl

theorem mem_quantifiedNames_rename {name : String} :
    name ∈ (set.rename ρ).quantifiedNames ↔ ∃ old, old ∈ set.quantifiedNames ∧ ρ old = name :=
  mem_quantifiedNames_ofNames.trans SortedSet.mem_image

theorem mem_concreteNames_rename {var : String} :
    var ∈ (set.rename ρ).concreteNames ↔ var ∈ set.concreteNames :=
  mem_concreteNames_ofNames

theorem uses_rename {kind : Kind} {name : String} :
    (set.rename ρ).Uses kind name ↔ ∃ old, set.Uses kind old ∧ ρ old = name := by
  simp only [Uses, mem_quantifiedNames_rename]
  constructor
  · rintro ⟨at_kind, old, used, same⟩
    exact ⟨old, ⟨at_kind, used⟩, same⟩
  · rintro ⟨old, ⟨at_kind, used⟩, same⟩
    exact ⟨at_kind, old, used, same⟩

theorem rename_congr (same : ∀ kind name, set.Uses kind name → ρ name = ρ' name) :
    set.rename ρ = set.rename ρ' := by
  apply canonical_ext (canonical_rename _ _) (canonical_rename _ _)
  · intro name
    simp only [mem_quantifiedNames_rename]
    constructor
    · rintro ⟨old, used, rfl⟩
      exact ⟨old, used, (same .variables old ⟨rfl, used⟩).symm⟩
    · rintro ⟨old, used, rfl⟩
      exact ⟨old, used, same .variables old ⟨rfl, used⟩⟩
  · intro var
    simp only [mem_concreteNames_rename]

theorem rename_rename : (set.rename ρ).rename ρ' = set.rename (ρ' ∘ ρ) := by
  apply canonical_ext (canonical_rename _ _) (canonical_rename _ _)
  · intro name
    simp only [mem_quantifiedNames_rename]
    constructor
    · rintro ⟨_, ⟨old, used, rfl⟩, same⟩
      exact ⟨old, used, same⟩
    · rintro ⟨old, used, same⟩
      exact ⟨_, ⟨old, used, rfl⟩, same⟩
  · intro var
    simp only [mem_concreteNames_rename]

theorem rename_self (canonical : set.Canonical)
    (fixed : ∀ kind name, set.Uses kind name → ρ name = name) : set.rename ρ = set := by
  apply canonical_ext (canonical_rename _ _) canonical
  · intro name
    rw [mem_quantifiedNames_rename]
    constructor
    · rintro ⟨old, used, rfl⟩
      rwa [fixed .variables old ⟨rfl, used⟩]
    · intro used
      exact ⟨name, used, fixed .variables name ⟨rfl, used⟩⟩
  · intro var
    exact mem_concreteNames_rename

theorem rename_union (injective : V.Injective ρ) {sets : List VariableSet}
    (canonical : (union sets).Canonical)
    (within : ∀ kind name, (union sets).Uses kind name → V kind name) :
    ∃ names vars : NameSet, names.isEmpty = false ∧ sets = members names vars ∧
      (union sets).rename ρ = union (members (names.image ρ) vars) := by
  obtain ⟨long, names, vars, some, rfl⟩ := canonical
  have sizes : (names.image ρ).size = names.size := by
    refine SortedSet.size_image fun a used b used' same => ?_
    rw [← quantifiedNames_members names vars] at used used'
    exact injective (within .variables a ⟨rfl, used⟩) (within .variables b ⟨rfl, used'⟩) same
  refine ⟨names, vars, some, rfl, ?_⟩
  rw [rename, quantifiedNames_members, concreteNames_members]
  rw [length_members] at long
  rcases ofNames_cases (names.image ρ) vars with ⟨none, _⟩ | ⟨name, one, none, _⟩ | ⟨_, _, eq⟩
  · have nothing : names.size = 0 := by
      rw [← sizes, SortedSet.size, List.isEmpty_iff.mp none, List.length_nil]
    rw [SortedSet.isEmpty, List.length_eq_zero_iff.mp nothing] at some
    cases some
  · rw [one] at sizes
    rw [none, ← sizes] at long
    simp [SortedSet.size, SortedSet.singleton] at long
  · exact eq

end VariableSet

namespace Effect

mutual

def rename (ρ : String → String) : Effect → Effect
  | .concrete footprint => .concrete (.ofFn fun component => (footprint.get component).rename ρ)
  | .quantified name => .quantified (ρ name)
  | .arrow params result => .arrow (renameAll ρ params) (rename ρ result)

def renameAll (ρ : String → String) : List Effect → List Effect
  | [] => []
  | effect :: rest => rename ρ effect :: renameAll ρ rest

end

variable {ρ ρ' : String → String} {V : Vocabulary} {effect other : Effect}

theorem renameAll_eq (ρ : String → String) (effects : List Effect) :
    renameAll ρ effects = effects.map (rename ρ) := by
  induction effects with
  | nil => rfl
  | cons effect rest ih => rw [renameAll, ih, List.map_cons]

theorem rename_arrow (ρ : String → String) (params : List Effect) (result : Effect) :
    (arrow params result).rename ρ = arrow (params.map (rename ρ)) (result.rename ρ) := by
  rw [rename, renameAll_eq]

theorem get_rename (ρ : String → String) (footprint : Footprint) (component : Component) :
    (Footprint.ofFn fun component => (footprint.get component).rename ρ).get component =
      (footprint.get component).rename ρ := by
  cases component <;> rfl

theorem canonical_rename (ρ : String → String) (effect : Effect) :
    (effect.rename ρ).Canonical := by
  induction effect with
  | concrete footprint =>
    refine .concrete fun component => ?_
    rw [get_rename]
    exact VariableSet.canonical_rename ρ _
  | quantified name => exact .quantified _
  | arrow params result inputs output =>
    rw [rename_arrow]
    refine .arrow (fun param member => ?_) output
    obtain ⟨old, present, rfl⟩ := List.mem_map.mp member
    exact inputs old present

theorem uses_rename {kind : Kind} {name : String} :
    (effect.rename ρ).Uses kind name ↔ ∃ old, effect.Uses kind old ∧ ρ old = name := by
  induction effect with
  | concrete footprint =>
    rw [rename]
    simp only [uses_concrete, get_rename, VariableSet.uses_rename]
    constructor
    · rintro ⟨component, old, used, same⟩
      exact ⟨old, ⟨component, used⟩, same⟩
    · rintro ⟨old, ⟨component, used⟩, same⟩
      exact ⟨component, old, used, same⟩
  | quantified other =>
    rw [rename]
    simp only [uses_quantified]
    constructor
    · rintro ⟨at_kind, rfl⟩
      exact ⟨other, ⟨at_kind, rfl⟩, rfl⟩
    · rintro ⟨_, ⟨at_kind, rfl⟩, rfl⟩
      exact ⟨at_kind, rfl⟩
  | arrow params result inputs output =>
    rw [rename_arrow]
    simp only [uses_arrow, List.mem_map, output]
    constructor
    · rintro (⟨_, ⟨param, member, rfl⟩, used⟩ | ⟨old, used, same⟩)
      · obtain ⟨old, used, same⟩ := (inputs param member).mp used
        exact ⟨old, Or.inl ⟨param, member, used⟩, same⟩
      · exact ⟨old, Or.inr used, same⟩
    · rintro ⟨old, ⟨param, member, used⟩ | used, same⟩
      · exact Or.inl ⟨_, ⟨param, member, rfl⟩, (inputs param member).mpr ⟨old, used, same⟩⟩
      · exact Or.inr ⟨old, used, same⟩

theorem rename_congr (same : ∀ kind name, effect.Uses kind name → ρ name = ρ' name) :
    effect.rename ρ = effect.rename ρ' := by
  induction effect with
  | concrete footprint =>
    rw [rename, rename]
    congr 2
    funext component
    exact VariableSet.rename_congr fun kind name used =>
      same kind name (uses_concrete.mpr ⟨component, used⟩)
  | quantified name => rw [rename, rename, same .effect name (uses_quantified.mpr ⟨rfl, rfl⟩)]
  | arrow params result inputs output =>
    rw [rename_arrow, rename_arrow, output fun kind name used =>
      same kind name (uses_arrow.mpr (Or.inr used))]
    congr 1
    exact List.map_congr_left fun param member => inputs param member fun kind name used =>
      same kind name (uses_arrow.mpr (Or.inl ⟨param, member, used⟩))

theorem rename_rename : (effect.rename ρ).rename ρ' = effect.rename (ρ' ∘ ρ) := by
  induction effect with
  | concrete footprint =>
    rw [rename, rename, rename]
    simp only [get_rename, VariableSet.rename_rename]
  | quantified name => rfl
  | arrow params result inputs output =>
    rw [rename_arrow, rename_arrow, rename_arrow, output, List.map_map]
    congr 1
    exact List.map_congr_left fun param member => inputs param member

theorem rename_self (canonical : effect.Canonical)
    (fixed : ∀ kind name, effect.Uses kind name → ρ name = name) : effect.rename ρ = effect := by
  induction effect with
  | concrete footprint =>
    rw [rename]
    congr 1
    refine Footprint.ext_get fun component => ?_
    rw [get_rename]
    exact VariableSet.rename_self (everySet_concrete.mp canonical component) fun kind name used =>
      fixed kind name (uses_concrete.mpr ⟨component, used⟩)
  | quantified name => rw [rename, fixed .effect name (uses_quantified.mpr ⟨rfl, rfl⟩)]
  | arrow params result inputs output =>
    obtain ⟨canonicals, canonical⟩ := everySet_arrow.mp canonical
    rw [rename_arrow, output canonical fun kind name used =>
      fixed kind name (uses_arrow.mpr (Or.inr used))]
    congr 1
    refine (List.map_congr_left fun param member => ?_).trans (List.map_id params)
    exact inputs param member (canonicals param member) fun kind name used =>
      fixed kind name (uses_arrow.mpr (Or.inl ⟨param, member, used⟩))

theorem rename_injective (injective : V.Injective ρ) (canonical : effect.Canonical)
    (canonical' : other.Canonical) (within : effect.Over V) (within' : other.Over V)
    (same : effect.rename ρ = other.rename ρ) : effect = other := by
  obtain ⟨back, inverse⟩ := injective.exists_inverse
  have returns : ∀ {effect : Effect}, effect.Canonical → effect.Over V →
      (effect.rename ρ).rename back = effect := by
    intro effect canonical within
    rw [rename_rename]
    exact rename_self canonical fun kind name used => inverse kind name (within kind name used)
  rw [← returns canonical within, same, returns canonical' within']

theorem rename_id {effect : Effect} (canonical : effect.Canonical) : effect.rename id = effect :=
  rename_self canonical fun _ _ _ => rfl

end Effect

namespace VariableSet

variable {ρ : String → String} {V : Vocabulary} {set other : VariableSet}

theorem rename_injective (injective : V.Injective ρ) (canonical : set.Canonical)
    (canonical' : other.Canonical) (within : ∀ kind name, set.Uses kind name → V kind name)
    (within' : ∀ kind name, other.Uses kind name → V kind name)
    (same : set.rename ρ = other.rename ρ) : set = other := by
  obtain ⟨back, inverse⟩ := injective.exists_inverse
  have returns : ∀ {set : VariableSet}, set.Canonical →
      (∀ kind name, set.Uses kind name → V kind name) → (set.rename ρ).rename back = set := by
    intro set canonical within
    rw [rename_rename]
    exact rename_self canonical fun kind name used => inverse kind name (within kind name used)
  rw [← returns canonical within, same, returns canonical' within']

end VariableSet

namespace Term

def rename (ρ : String → String) : Term → Term
  | .effect value => .effect (value.rename ρ)
  | .variables value => .variables (value.rename ρ)

variable {ρ ρ' : String → String} {V : Vocabulary} {term : Term}

@[simp] theorem kind_rename : (term.rename ρ).kind = term.kind := by
  cases term <;> rfl

theorem canonical_rename (ρ : String → String) (term : Term) : (term.rename ρ).Canonical := by
  cases term
  · exact Effect.canonical_rename ρ _
  · exact VariableSet.canonical_rename ρ _

theorem uses_rename {kind : Kind} {name : String} :
    (term.rename ρ).Uses kind name ↔ ∃ old, term.Uses kind old ∧ ρ old = name := by
  cases term
  · exact Effect.uses_rename
  · exact VariableSet.uses_rename

theorem rename_quantified (kind : Kind) (name : String) :
    (kind.quantified name).rename ρ = kind.quantified (ρ name) := by
  cases kind <;> rfl

theorem rename_congr (same : ∀ kind name, term.Uses kind name → ρ name = ρ' name) :
    term.rename ρ = term.rename ρ' := by
  cases term
  · exact congrArg Term.effect (Effect.rename_congr same)
  · exact congrArg Term.variables (VariableSet.rename_congr same)

theorem rename_rename : (term.rename ρ).rename ρ' = term.rename (ρ' ∘ ρ) := by
  cases term
  · exact congrArg Term.effect Effect.rename_rename
  · exact congrArg Term.variables VariableSet.rename_rename

theorem rename_id (canonical : term.Canonical) : term.rename id = term := by
  cases term
  · exact congrArg Term.effect (Effect.rename_id canonical)
  · exact congrArg Term.variables (VariableSet.rename_self canonical fun _ _ _ => rfl)

theorem rename_injective (injective : V.Injective ρ) {other : Term} (canonical : term.Canonical)
    (canonical' : other.Canonical) (within : term.Over V) (within' : other.Over V)
    (same : term.rename ρ = other.rename ρ) : term = other := by
  cases term <;> cases other
  · exact congrArg Term.effect (Effect.rename_injective injective canonical canonical' within within'
      (Term.effect.inj same))
  · cases same
  · cases same
  · exact congrArg Term.variables (VariableSet.rename_injective injective canonical canonical' within
      within' (Term.variables.inj same))

end Term

namespace Substitution

theorem valueAt_rename {ρ : String → String} {σ σ' : Substitution} {name : String}
    (image : σ'.get? (ρ name) = (σ.get? name).map (Term.rename ρ)) (kind : Kind) :
    σ'.valueAt kind (ρ name) = (σ.valueAt kind name).rename ρ := by
  cases found : σ.get? name with
  | none =>
    rw [found] at image
    rw [valueAt_of_unbound image, valueAt_of_unbound found, Term.rename_quantified]
  | some value =>
    rw [found] at image
    rw [valueAt_of_get? image, valueAt_of_get? found]

/-- Of a name that `τ` has renamed, the second substitution makes what the first one makes of the
name, renamed by `ρ`. -/
structure Commutes (τ ρ : String → String) (V : Vocabulary) (σ σ' : Substitution) : Prop where
  canonical : σ.Canonical
  canonical' : σ'.Canonical
  image : ∀ {kind name}, V kind name → σ'.valueAt kind (τ name) = (σ.valueAt kind name).rename ρ

namespace Commutes

variable {τ ρ : String → String} {V : Vocabulary} {σ σ' between : Substitution}

theorem refl (canonical : σ.Canonical) : Commutes id id V σ σ := by
  refine ⟨canonical, canonical, fun {kind name} _ => ?_⟩
  have value : (σ.valueAt kind name).Canonical := everySet_valueAt canonical (fun _ => trivial) _ _
  rw [Term.rename_id value, id]

theorem trans (first : Commutes id ρ V σ between) (second : Commutes τ τ V between σ') :
    Commutes τ (τ ∘ ρ) V σ σ' := by
  refine ⟨first.canonical, second.canonical', fun {kind name} used => ?_⟩
  rw [second.image used, ← Term.rename_rename, ← first.image used, id]

theorem allows_iff (commutes : Commutes τ ρ V σ σ') {kind : Kind} {name : String}
    (used : V kind name) : σ'.Allows kind (τ name) ↔ σ.Allows kind name := by
  rw [Allows, Allows, commutes.image used, Term.kind_rename]

theorem allowed_iff (commutes : Commutes τ ρ V σ σ') {term : Term} (within : term.Over V) :
    (∀ kind name, term.Uses kind name → σ.Allows kind name) ↔
      ∀ kind name, (term.rename τ).Uses kind name → σ'.Allows kind name := by
  constructor
  · intro allowed kind name used
    obtain ⟨old, before, rfl⟩ := Term.uses_rename.mp used
    exact (commutes.allows_iff (within kind old before)).mpr (allowed kind old before)
  · intro allowed kind name used
    rw [← commutes.allows_iff (within kind name used)]
    exact allowed kind (τ name) (Term.uses_rename.mpr ⟨name, used, rfl⟩)

theorem exists_iff (commutes : Commutes τ ρ V σ σ') {term : Term} (within : term.Over V) :
    (∃ result, σ.applyToTerm term = .ok result) ↔
      ∃ result, σ'.applyToTerm (term.rename τ) = .ok result := by
  rw [exists_applyToTerm, exists_applyToTerm]
  exact commutes.allowed_iff within

theorem applyToVariables (commutes : Commutes τ ρ V σ σ') {set result : VariableSet}
    (within : (Term.variables set).Over V) (run : σ.applyToVariables set = .ok result) :
    σ'.applyToVariables (set.rename τ) = .ok (result.rename ρ) := by
  obtain ⟨result', run'⟩ := exists_applyToVariables.mpr
    ((commutes.allowed_iff within).mp (exists_applyToVariables.mp ⟨result, run⟩))
  have uses := uses_applyToVariables run
  have same : result' = result.rename ρ := by
    apply VariableSet.canonical_ext (canonical_applyToVariables commutes.canonical' run')
      (VariableSet.canonical_rename _ _)
    · intro name
      have both : result'.Uses .variables name ↔ (result.rename ρ).Uses .variables name := by
        rw [uses_applyToVariables run', VariableSet.uses_rename]
        constructor
        · rintro ⟨kind, _, used, value⟩
          obtain ⟨old, used', rfl⟩ := VariableSet.uses_rename.mp used
          rw [commutes.image (within kind old used')] at value
          obtain ⟨inner, value, same⟩ := Term.uses_rename.mp value
          exact ⟨inner, (uses _ _).mpr ⟨kind, old, used', value⟩, same⟩
        · rintro ⟨inner, at_inner, same⟩
          obtain ⟨kind, old, used, value⟩ := (uses _ _).mp at_inner
          refine ⟨kind, τ old, VariableSet.uses_rename.mpr ⟨old, used, rfl⟩, ?_⟩
          rw [commutes.image (within kind old used)]
          exact Term.uses_rename.mpr ⟨inner, value, same⟩
      simpa [VariableSet.Uses] using both
    · intro var
      have values : ∀ term : Term, var ∈ (term.rename ρ).concreteNames ↔ var ∈ term.concreteNames := by
        intro term
        cases term
        · rfl
        · exact VariableSet.mem_concreteNames_rename
      rw [mem_concreteNames_applyToVariables run', VariableSet.mem_concreteNames_rename,
        VariableSet.mem_concreteNames_rename, mem_concreteNames_applyToVariables run]
      refine or_congr_right ?_
      constructor
      · rintro ⟨_, used, value⟩
        obtain ⟨old, used', rfl⟩ := VariableSet.uses_rename.mp used
        rw [commutes.image (within .variables old used'), values] at value
        exact ⟨old, used', value⟩
      · rintro ⟨old, used, value⟩
        refine ⟨τ old, VariableSet.uses_rename.mpr ⟨old, used, rfl⟩, ?_⟩
        rwa [commutes.image (within .variables old used), values]
  rw [run', same]

theorem apply (commutes : Commutes τ ρ V σ σ') {effect result : Effect}
    (canonical : effect.Canonical) (within : effect.Over V) (run : σ.apply effect = .ok result) :
    σ'.apply (effect.rename τ) = .ok (result.rename ρ) := by
  induction effect generalizing result with
  | concrete footprint =>
    obtain ⟨after, slots, rfl⟩ := (apply_concrete (Effect.everySet_concrete.mp canonical)).mp run
    rw [Effect.rename, Effect.rename, apply_concrete fun component => by
      rw [Effect.get_rename]
      exact VariableSet.canonical_rename τ _]
    refine ⟨_, fun component => ?_, rfl⟩
    rw [Effect.get_rename, Effect.get_rename]
    exact commutes.applyToVariables (fun kind name used =>
      within kind name (Effect.uses_concrete.mpr ⟨component, used⟩)) (slots component)
  | quantified name =>
    have image := commutes.image (within .effect name (Effect.uses_quantified.mpr ⟨rfl, rfl⟩))
    rw [apply_quantified.mp run] at image
    exact apply_quantified.mpr image
  | arrow params output inputs last =>
    obtain ⟨canonicals, canonical⟩ := Effect.everySet_arrow.mp canonical
    obtain ⟨results, out, each, out_run, rfl⟩ := apply_arrow.mp run
    rw [Effect.rename_arrow, Effect.rename_arrow, apply_arrow]
    refine ⟨_, _, ?_, last canonical (fun kind name used =>
      within kind name (Effect.uses_arrow.mpr (Or.inr used))) out_run, rfl⟩
    rw [List.forall₂_map_left_iff, List.forall₂_map_right_iff]
    refine List.forall₂_iff_zip.mpr ⟨each.length_eq, fun {param after} paired => ?_⟩
    have member := (List.of_mem_zip paired).1
    exact inputs param member (canonicals param member) (fun kind name used =>
      within kind name (Effect.uses_arrow.mpr (Or.inl ⟨param, member, used⟩)))
      (List.forall₂_zip each paired)

theorem applyToTerm (commutes : Commutes τ ρ V σ σ') {term result : Term}
    (canonical : term.Canonical) (within : term.Over V) (run : σ.applyToTerm term = .ok result) :
    σ'.applyToTerm (term.rename τ) = .ok (result.rename ρ) := by
  cases term
  · obtain ⟨after, inside, rfl⟩ := applyToTerm_effect.mp run
    exact applyToTerm_effect.mpr ⟨_, commutes.apply canonical within inside, rfl⟩
  · obtain ⟨after, inside, rfl⟩ := applyToTerm_variables.mp run
    exact applyToTerm_variables.mpr ⟨_, commutes.applyToVariables within inside, rfl⟩

end Commutes

/-- On the names of `K` the second substitution has the renamed values of the first, and the values
use names of `V` only. -/
structure Matched (ρ : String → String) (V K : Vocabulary) (σ σ' : Substitution) : Prop where
  canonical : σ.Canonical
  canonical' : σ'.Canonical
  within : ∀ {kind name value}, K kind name → σ.get? name = some value →
    value.kind = kind ∧ value.Over V
  image : ∀ {kind name}, K kind name → σ'.get? (ρ name) = (σ.get? name).map (Term.rename ρ)

namespace Matched

variable {ρ : String → String} {V K : Vocabulary} {σ σ' : Substitution} {kind : Kind} {name : String}

theorem allows (matched : Matched ρ V K σ σ') (used : K kind name) : σ.Allows kind name := by
  cases found : σ.get? name with
  | none => exact allows_of_unbound found
  | some value => exact (allows_of_get? found).mpr (matched.within used found).1

theorem valueAt_image (matched : Matched ρ V K σ σ') (used : K kind name) :
    σ'.valueAt kind (ρ name) = (σ.valueAt kind name).rename ρ :=
  valueAt_rename (matched.image used) kind

theorem commutes (matched : Matched ρ V K σ σ') : Commutes ρ ρ K σ σ' :=
  ⟨matched.canonical, matched.canonical', matched.valueAt_image⟩

theorem over_valueAt (part : ∀ kind name, K kind name → V kind name) (matched : Matched ρ V K σ σ')
    (used : K kind name) : (σ.valueAt kind name).Over V := by
  cases found : σ.get? name with
  | none =>
    rw [valueAt_of_unbound found]
    intro other name' used'
    obtain ⟨rfl, rfl⟩ := Term.uses_quantified.mp used'
    exact part _ _ used
  | some value =>
    rw [valueAt_of_get? found]
    exact (matched.within used found).2

theorem applyToTerm (matched : Matched ρ V V σ σ') {term : Term} (canonical : term.Canonical)
    (within : term.Over V) :
    ∃ result, σ.applyToTerm term = .ok result ∧
      σ'.applyToTerm (term.rename ρ) = .ok (result.rename ρ) ∧ result.Over V := by
  obtain ⟨result, run⟩ := exists_applyToTerm.mpr fun kind name used =>
    matched.allows (within kind name used)
  refine ⟨result, run, matched.commutes.applyToTerm canonical within run, fun kind name used => ?_⟩
  obtain ⟨other, old, used, value⟩ := (uses_applyToTerm run kind name).mp used
  exact matched.over_valueAt (fun _ _ used => used) (within other old used) kind name value

theorem apply (matched : Matched ρ V V σ σ') {effect : Effect} (canonical : effect.Canonical)
    (within : effect.Over V) :
    ∃ result, σ.apply effect = .ok result ∧ σ'.apply (effect.rename ρ) = .ok (result.rename ρ) ∧
      result.Canonical ∧ result.Over V := by
  obtain ⟨term, applied, _, spelled⟩ :=
    matched.applyToTerm (show (Term.effect effect).Canonical from canonical) within
  obtain ⟨result, run, rfl⟩ := applyToTerm_effect.mp applied
  exact ⟨result, run, matched.commutes.apply canonical within run, everySet_apply matched.canonical
    (fun _ => canonical_applyToVariables matched.canonical) canonical run, spelled⟩

theorem compose (part : ∀ kind name, K kind name → V kind name)
    {new new' composed composed' : Substitution} (news : Matched ρ V V new new')
    (olds : Matched ρ V K σ σ') (run : new.compose σ = .ok composed)
    (run' : new'.compose σ' = .ok composed') : Matched ρ V K composed composed' := by
  have bound : ∀ {kind name value}, K kind name → σ.get? name = some value →
      ∃ after, composed.get? name = some after ∧
        composed'.get? (ρ name) = some (after.rename ρ) ∧ after.kind = kind ∧ after.Over V := by
    intro kind name value used found
    obtain ⟨at_kind, spelled⟩ := olds.within used found
    have image := olds.image used
    rw [found] at image
    obtain ⟨after, applied, kept⟩ := get?_compose_bound run found
    obtain ⟨after', applied', kept'⟩ := get?_compose_bound run' image
    obtain ⟨result, both, both', within⟩ :=
      news.applyToTerm (olds.canonical _ (mem_of_get? found)) spelled
    cases applied.symm.trans both
    cases applied'.symm.trans both'
    exact ⟨after, kept, kept', (kind_applyToTerm applied).trans at_kind, within⟩
  refine ⟨canonical_compose news.canonical olds.canonical run,
    canonical_compose news.canonical' olds.canonical' run', ?_, ?_⟩
  · intro kind name value used found
    cases before : σ.get? name with
    | none =>
      rw [get?_compose_unbound run before] at found
      exact news.within (part _ _ used) found
    | some old =>
      obtain ⟨after, kept, _, at_kind, spelled⟩ := bound used before
      cases kept.symm.trans found
      exact ⟨at_kind, spelled⟩
  · intro kind name used
    have image := olds.image used
    cases before : σ.get? name with
    | none =>
      rw [before] at image
      rw [get?_compose_unbound run before, get?_compose_unbound run' image]
      exact news.image (part _ _ used)
    | some old =>
      obtain ⟨after, kept, kept', _, _⟩ := bound used before
      rw [kept, kept']
      rfl

end Matched

end Substitution

end SpecEffects
