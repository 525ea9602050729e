import SpecEffects.Proofs.Canonical

/-!
Joining as a normal form. What a set stands for is given by the names that occur in it, however
deeply they are nested and in whichever order they are written. Joining keeps the names that occur,
and writes two lists of sets in the same way exactly when the same names occur in them.
-/
namespace SpecEffects.VariableSet

inductive Atom where
  | concrete (var : String)
  | quantified (name : String)
  deriving DecidableEq

inductive Occurs : Atom → VariableSet → Prop where
  | concrete {var : String} {vars : NameSet} (listed : var ∈ vars) :
      Occurs (.concrete var) (.concrete vars)
  | quantified (name : String) : Occurs (.quantified name) (.quantified name)
  | inside {atom : Atom} {set : VariableSet} {sets : List VariableSet} (member : set ∈ sets)
      (occurs : Occurs atom set) : Occurs atom (.union sets)

def OccursIn (atom : Atom) (sets : List VariableSet) : Prop := ∃ set ∈ sets, Occurs atom set

theorem occurs_union {atom : Atom} {sets : List VariableSet} :
    Occurs atom (.union sets) ↔ OccursIn atom sets := by
  constructor
  · intro occurs
    cases occurs with
    | inside member occurs => exact ⟨_, member, occurs⟩
  · rintro ⟨set, member, occurs⟩
    exact .inside member occurs

theorem occurs_concrete {var : String} {set : VariableSet} :
    Occurs (.concrete var) set ↔ var ∈ set.concreteNames := by
  induction set with
  | concrete vars =>
    constructor
    · intro occurs
      cases occurs with
      | concrete listed => exact listed
    · exact .concrete
  | quantified name =>
    constructor
    · intro occurs
      cases occurs
    · intro listed
      exact absurd listed (SortedSet.not_mem_empty var)
  | union sets ih =>
    rw [occurs_union, mem_concreteNames_union]
    exact exists_congr fun set => and_congr_right (ih set)

theorem occurs_quantified {name : String} {set : VariableSet} :
    Occurs (.quantified name) set ↔ name ∈ set.quantifiedNames := by
  induction set with
  | concrete vars =>
    constructor
    · intro occurs
      cases occurs
    · intro listed
      exact absurd listed (SortedSet.not_mem_empty name)
  | quantified other =>
    constructor
    · intro occurs
      cases occurs
      exact SortedSet.mem_singleton.mpr rfl
    · intro listed
      cases SortedSet.mem_singleton.mp listed
      exact .quantified name
  | union sets ih =>
    rw [occurs_union, mem_quantifiedNames_union]
    exact exists_congr fun set => and_congr_right (ih set)

theorem occurs_join {atom : Atom} {sets : List VariableSet} :
    Occurs atom (join sets) ↔ OccursIn atom sets := by
  cases atom with
  | concrete var =>
    rw [occurs_concrete, mem_concreteNames_join]
    exact exists_congr fun set => and_congr_right fun _ => occurs_concrete.symm
  | quantified name =>
    rw [occurs_quantified, mem_quantifiedNames_join]
    exact exists_congr fun set => and_congr_right fun _ => occurs_quantified.symm

theorem eq_of_occurs {set other : VariableSet} (canonical : set.Canonical)
    (canonical' : other.Canonical) (same : ∀ atom, Occurs atom set ↔ Occurs atom other) :
    set = other := by
  apply canonical_ext canonical canonical'
  · intro name
    rw [← occurs_quantified, same, occurs_quantified]
  · intro var
    rw [← occurs_concrete, same, occurs_concrete]

theorem join_eq_join {sets sets' : List VariableSet} :
    join sets = join sets' ↔ ∀ atom, OccursIn atom sets ↔ OccursIn atom sets' := by
  constructor
  · intro same atom
    rw [← occurs_join, same, occurs_join]
  · intro same
    apply eq_of_occurs (canonical_join sets) (canonical_join sets')
    intro atom
    rw [occurs_join, same, occurs_join]

theorem join_singleton {set : VariableSet} : join [set] = set ↔ set.Canonical := by
  constructor
  · intro same
    rw [← same]
    exact canonical_join [set]
  · intro canonical
    apply eq_of_occurs (canonical_join [set]) canonical
    intro atom
    rw [occurs_join]
    simp [OccursIn]

/-- A join is canonical and holds what its parts hold. Two joins are equal exactly when the same
names occur in their parts, so that order, repetition, nesting and grouping do not matter. A set is
its own join exactly when it is canonical. -/
theorem join_is_normal_form :
    (∀ sets, (join sets).Canonical ∧ ∀ atom, Occurs atom (join sets) ↔ OccursIn atom sets) ∧
    (∀ sets sets', join sets = join sets' ↔
      ∀ atom, OccursIn atom sets ↔ OccursIn atom sets') ∧
    ∀ set, join [set] = set ↔ set.Canonical :=
  ⟨fun sets => ⟨canonical_join sets, fun _ => occurs_join⟩, fun _ _ => join_eq_join,
    fun _ => join_singleton⟩

/-- A nested list with an empty union, written again in another order and grouping. -/
example :
    join [.union [], .union [.quantified "b", .union [.concrete (.singleton "x")]],
      .quantified "a"] =
    join [.quantified "a", .union [.quantified "b", .quantified "a"], .concrete (.singleton "x")] := by
  decide

end SpecEffects.VariableSet
