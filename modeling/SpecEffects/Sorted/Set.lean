/-!
Finite sets as strictly ascending lists. The order is part of the type, so two sets with the same
members are equal, and listing a set lists it in ascending order.
-/
namespace SpecEffects

variable {α : Type} [Ord α]

abbrev Ascending (xs : List α) : Prop :=
  xs.Pairwise fun a b => compare a b = .lt

theorem ascending_nil : Ascending ([] : List α) := List.Pairwise.nil

def insertAscending (a : α) : List α → List α
  | [] => [a]
  | b :: rest =>
    match compare a b with
    | .lt => a :: b :: rest
    | .eq => b :: rest
    | .gt => b :: insertAscending a rest

theorem mem_insertAscending [Std.LawfulEqOrd α] {x a : α} {xs : List α} :
    x ∈ insertAscending a xs ↔ x = a ∨ x ∈ xs := by
  induction xs with
  | nil => simp [insertAscending]
  | cons b rest ih =>
    simp only [insertAscending]
    split
    · simp
    · rename_i h
      cases Std.LawfulEqOrd.eq_of_compare h
      simp
    · simp only [List.mem_cons, ih]
      constructor <;> rintro (h | h | h) <;> simp [h]

theorem ascending_insertAscending [Std.TransOrd α] [Std.LawfulEqOrd α] (a : α) {xs : List α}
    (h : Ascending xs) : Ascending (insertAscending a xs) := by
  induction xs with
  | nil => simp [insertAscending, Ascending]
  | cons b rest ih =>
    obtain ⟨first, later⟩ := List.pairwise_cons.1 h
    simp only [insertAscending]
    split
    · rename_i lt
      refine List.pairwise_cons.2 ⟨fun c hc => ?_, h⟩
      rcases List.mem_cons.1 hc with rfl | hc
      · exact lt
      · exact Std.TransCmp.lt_trans lt (first c hc)
    · exact h
    · rename_i gt
      refine List.pairwise_cons.2 ⟨fun c hc => ?_, ih later⟩
      rcases mem_insertAscending.1 hc with rfl | hc
      · exact Std.OrientedCmp.gt_iff_lt.1 gt
      · exact first c hc

structure SortedSet (α : Type) [Ord α] where
  toList : List α
  ascending : Ascending toList
  deriving DecidableEq

namespace SortedSet

def empty : SortedSet α := ⟨[], ascending_nil⟩

instance : EmptyCollection (SortedSet α) := ⟨empty⟩

instance : Membership α (SortedSet α) := ⟨fun s a => a ∈ s.toList⟩

instance [DecidableEq α] (a : α) (s : SortedSet α) : Decidable (a ∈ s) :=
  inferInstanceAs (Decidable (a ∈ s.toList))

def size (s : SortedSet α) : Nat := s.toList.length

def isEmpty (s : SortedSet α) : Bool := s.toList.isEmpty

def singleton (a : α) : SortedSet α := ⟨[a], List.pairwise_singleton _ a⟩

variable [Std.TransOrd α] [Std.LawfulEqOrd α]

def insert (s : SortedSet α) (a : α) : SortedSet α :=
  ⟨insertAscending a s.toList, ascending_insertAscending a s.ascending⟩

def union (s t : SortedSet α) : SortedSet α := t.toList.foldl insert s

def ofList (xs : List α) : SortedSet α := xs.foldl insert ∅

theorem mem_insert {s : SortedSet α} {a x : α} : x ∈ s.insert a ↔ x = a ∨ x ∈ s :=
  mem_insertAscending

theorem mem_foldl_insert {xs : List α} {s : SortedSet α} {x : α} :
    x ∈ xs.foldl insert s ↔ x ∈ s ∨ x ∈ xs := by
  induction xs generalizing s with
  | nil => simp
  | cons a rest ih =>
    rw [List.foldl_cons, ih, mem_insert, List.mem_cons]
    constructor
    · rintro ((h | h) | h) <;> simp [h]
    · rintro (h | h | h) <;> simp [h]

theorem mem_union {s t : SortedSet α} {x : α} : x ∈ s.union t ↔ x ∈ s ∨ x ∈ t :=
  mem_foldl_insert

theorem mem_ofList {xs : List α} {x : α} : x ∈ ofList xs ↔ x ∈ xs := by
  have none : ¬ x ∈ (∅ : SortedSet α) := List.not_mem_nil
  simp [ofList, mem_foldl_insert, none]

end SortedSet

/-- Names in ascending order of their characters' code points. -/
abbrev NameSet := SortedSet String

end SpecEffects
