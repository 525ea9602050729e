import SpecEffects.Effect.Basic
import SpecEffects.Proofs.Sorted

/-!
Canonical sets of variables. A set is canonical when it is written as `join` writes it. Joining
always ends in a canonical set, and a canonical set is determined by its quantified and its concrete
names.
-/
namespace SpecEffects

namespace VariableSet

@[induction_eliminator]
theorem induct {motive : VariableSet → Prop} (concrete : ∀ vars, motive (.concrete vars))
    (quantified : ∀ name, motive (.quantified name))
    (union : ∀ sets, (∀ set ∈ sets, motive set) → motive (.union sets)) : ∀ set, motive set
  | .concrete vars => concrete vars
  | .quantified name => quantified name
  | .union sets => union sets fun set _ => induct concrete quantified union set

theorem mem_quantifiedNamesOf {sets : List VariableSet} {name : String} :
    name ∈ quantifiedNamesOf sets ↔ ∃ set ∈ sets, name ∈ set.quantifiedNames := by
  induction sets with
  | nil => simp [quantifiedNamesOf]
  | cons set rest ih => simp [quantifiedNamesOf, ih]

theorem mem_concreteNamesOf {sets : List VariableSet} {var : String} :
    var ∈ concreteNamesOf sets ↔ ∃ set ∈ sets, var ∈ set.concreteNames := by
  induction sets with
  | nil => simp [concreteNamesOf]
  | cons set rest ih => simp [concreteNamesOf, ih]

@[simp] theorem mem_quantifiedNames_union {sets : List VariableSet} {name : String} :
    name ∈ (union sets).quantifiedNames ↔ ∃ set ∈ sets, name ∈ set.quantifiedNames :=
  mem_quantifiedNamesOf

@[simp] theorem mem_concreteNames_union {sets : List VariableSet} {var : String} :
    var ∈ (union sets).concreteNames ↔ ∃ set ∈ sets, var ∈ set.concreteNames :=
  mem_concreteNamesOf

def members (names vars : NameSet) : List VariableSet :=
  names.toList.map .quantified ++ if vars.isEmpty then [] else [.concrete vars]

/-- A union is canonical when it has at least two members, the first of them quantified, in this
order. What is no union is canonical as it is. -/
def Canonical : VariableSet → Prop
  | .concrete _ => True
  | .quantified _ => True
  | .union sets => 2 ≤ sets.length ∧
    ∃ names vars : NameSet, names.isEmpty = false ∧ sets = members names vars

theorem canonical_member {sets : List VariableSet} {set : VariableSet}
    (canonical : (union sets).Canonical) (member : set ∈ sets) : set.Canonical := by
  obtain ⟨_, names, vars, _, eq⟩ := canonical
  subst eq
  rcases List.mem_append.mp member with quantified | rest
  · obtain ⟨name, _, rfl⟩ := List.mem_map.mp quantified
    trivial
  · split at rest
    · cases rest
    · cases List.mem_singleton.mp rest
      trivial

theorem mem_quantifiedNames_members {names vars : NameSet} {name : String} :
    (∃ set ∈ members names vars, name ∈ set.quantifiedNames) ↔ name ∈ names := by
  constructor
  · rintro ⟨set, member, used⟩
    rcases List.mem_append.mp member with quantified | concrete
    · obtain ⟨other, present, rfl⟩ := List.mem_map.mp quantified
      cases SortedSet.mem_singleton.mp used
      exact present
    · split at concrete
      · cases concrete
      · cases List.mem_singleton.mp concrete
        cases used
  · intro present
    exact ⟨.quantified name, List.mem_append_left _ (List.mem_map_of_mem present),
      SortedSet.mem_singleton.mpr rfl⟩

theorem mem_concreteNames_members {names vars : NameSet} {var : String} :
    (∃ set ∈ members names vars, var ∈ set.concreteNames) ↔ var ∈ vars := by
  unfold members
  split
  · rename_i none
    simp [concreteNames, SortedSet.isEmpty_iff.mp none var]
  · simp [concreteNames]

theorem length_members (names vars : NameSet) :
    (members names vars).length = names.size + if vars.isEmpty then 0 else 1 := by
  unfold members
  split <;> simp [SortedSet.size]

theorem ofNames_cases (names vars : NameSet) :
    names.isEmpty = true ∧ ofNames names vars = .concrete vars ∨
    (∃ name, names = .singleton name ∧ vars.isEmpty = true ∧
      ofNames names vars = .quantified name) ∨
    names.isEmpty = false ∧ 2 ≤ (members names vars).length ∧
      ofNames names vars = .union (members names vars) := by
  obtain ⟨list, ascending⟩ := names
  rw [length_members]
  match list with
  | [] => exact Or.inl ⟨rfl, rfl⟩
  | [name] =>
    by_cases none : vars.isEmpty = true
    · refine Or.inr (Or.inl ⟨name, rfl, none, ?_⟩)
      simp [ofNames, none]
    · refine Or.inr (Or.inr ⟨rfl, ?_, ?_⟩)
      · simp [SortedSet.size, none]
      · simp [ofNames, members, none]
  | first :: second :: rest =>
    refine Or.inr (Or.inr ⟨rfl, ?_, ?_⟩)
    · simp only [SortedSet.size, List.length_cons]
      omega
    · by_cases none : vars.isEmpty = true <;> simp [ofNames, members, none]

theorem canonical_ofNames (names vars : NameSet) : (ofNames names vars).Canonical := by
  rcases ofNames_cases names vars with ⟨-, eq⟩ | ⟨name, -, -, eq⟩ | ⟨some, long, eq⟩ <;> rw [eq]
  · trivial
  · trivial
  · exact ⟨long, names, vars, some, rfl⟩

theorem canonical_join (sets : List VariableSet) : (join sets).Canonical := canonical_ofNames _ _

@[simp] theorem mem_quantifiedNames_ofNames {names vars : NameSet} {name : String} :
    name ∈ (ofNames names vars).quantifiedNames ↔ name ∈ names := by
  rcases ofNames_cases names vars with ⟨none, eq⟩ | ⟨only, rfl, -, eq⟩ | ⟨-, -, eq⟩ <;> rw [eq]
  · simp [quantifiedNames, SortedSet.isEmpty_iff.mp none name]
  · simp [quantifiedNames]
  · rw [mem_quantifiedNames_union, mem_quantifiedNames_members]

@[simp] theorem mem_concreteNames_ofNames {names vars : NameSet} {var : String} :
    var ∈ (ofNames names vars).concreteNames ↔ var ∈ vars := by
  rcases ofNames_cases names vars with ⟨-, eq⟩ | ⟨only, -, none, eq⟩ | ⟨-, -, eq⟩ <;> rw [eq]
  · simp [concreteNames]
  · simp [concreteNames, SortedSet.isEmpty_iff.mp none var]
  · rw [mem_concreteNames_union, mem_concreteNames_members]

@[simp] theorem mem_quantifiedNames_join {sets : List VariableSet} {name : String} :
    name ∈ (join sets).quantifiedNames ↔ ∃ set ∈ sets, name ∈ set.quantifiedNames :=
  mem_quantifiedNames_ofNames.trans mem_quantifiedNamesOf

@[simp] theorem mem_concreteNames_join {sets : List VariableSet} {var : String} :
    var ∈ (join sets).concreteNames ↔ ∃ set ∈ sets, var ∈ set.concreteNames :=
  mem_concreteNames_ofNames.trans mem_concreteNamesOf

theorem quantifiedNames_members (names vars : NameSet) :
    (union (members names vars)).quantifiedNames = names :=
  SortedSet.ext fun _ => mem_quantifiedNames_union.trans mem_quantifiedNames_members

theorem concreteNames_members (names vars : NameSet) :
    (union (members names vars)).concreteNames = vars :=
  SortedSet.ext fun _ => mem_concreteNames_union.trans mem_concreteNames_members

theorem ofNames_of_canonical {set : VariableSet} (canonical : set.Canonical) :
    ofNames set.quantifiedNames set.concreteNames = set := by
  cases set with
  | concrete vars => rfl
  | quantified name => rfl
  | union sets =>
    obtain ⟨long, names, vars, some, rfl⟩ := canonical
    rw [quantifiedNames_members, concreteNames_members]
    rcases ofNames_cases names vars with ⟨none, -⟩ | ⟨name, rfl, none, -⟩ | ⟨-, -, eq⟩
    · rw [some] at none
      cases none
    · rw [length_members, none] at long
      simp [SortedSet.size, SortedSet.singleton] at long
    · exact eq

theorem canonical_iff {set : VariableSet} :
    set.Canonical ↔ ofNames set.quantifiedNames set.concreteNames = set := by
  constructor
  · exact ofNames_of_canonical
  · intro same
    rw [← same]
    exact canonical_ofNames _ _

instance : DecidablePred Canonical := fun _ => decidable_of_iff _ canonical_iff.symm

theorem canonical_ext {set other : VariableSet} (canonical : set.Canonical)
    (canonical' : other.Canonical)
    (quantified : ∀ name, name ∈ set.quantifiedNames ↔ name ∈ other.quantifiedNames)
    (concrete : ∀ var, var ∈ set.concreteNames ↔ var ∈ other.concreteNames) : set = other := by
  rw [← ofNames_of_canonical canonical, ← ofNames_of_canonical canonical',
    SortedSet.ext quantified, SortedSet.ext concrete]

end VariableSet

end SpecEffects
