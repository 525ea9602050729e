import SpecEffects.Sorted.Map

/-!
Sorted sets and maps through their members. Two sets with the same members are equal, a set inside
another is no larger, and what a map has under a key is all that counts about it.
-/
namespace SpecEffects

variable {α : Type} [Ord α]

namespace SortedSet

@[simp] theorem not_mem_empty (a : α) : ¬ a ∈ (∅ : SortedSet α) := List.not_mem_nil

@[simp] theorem mem_singleton {a b : α} : a ∈ SortedSet.singleton b ↔ a = b := List.mem_singleton

theorem isEmpty_iff {s : SortedSet α} : s.isEmpty = true ↔ ∀ a, ¬ a ∈ s := by
  rw [isEmpty, List.isEmpty_iff, List.eq_nil_iff_forall_not_mem]
  rfl

variable [Std.LawfulEqOrd α]

theorem toList_nodup (s : SortedSet α) : s.toList.Nodup :=
  s.ascending.imp fun {a b} before same => by
    subst same
    simp at before

theorem size_le_of_inside {s t : SortedSet α} (inside : ∀ a, a ∈ s → a ∈ t) : s.size ≤ t.size :=
  s.toList_nodup.length_le_of_subset inside

theorem size_lt_of_missing {s t : SortedSet α} (inside : ∀ a, a ∈ s → a ∈ t) {a : α}
    (present : a ∈ t) (missing : ¬ a ∈ s) : s.size < t.size := by
  have nodup : (a :: s.toList).Nodup := List.nodup_cons.mpr ⟨missing, s.toList_nodup⟩
  have subset : a :: s.toList ⊆ t.toList := by
    intro b member
    rcases List.mem_cons.mp member with rfl | old
    · exact present
    · exact inside b old
  exact nodup.length_le_of_subset subset

variable [Std.TransOrd α]

attribute [simp] mem_union

theorem ext {s t : SortedSet α} (same : ∀ a, a ∈ s ↔ a ∈ t) : s = t := by
  have lists : s.toList = t.toList := by
    apply List.Perm.eq_of_pairwise _ s.ascending t.ascending
    · exact (List.perm_ext_iff_of_nodup s.toList_nodup t.toList_nodup).mpr same
    · intro a b _ _ before after
      exact absurd after (Std.OrientedCmp.not_lt_of_lt before)
  cases s
  cases t
  cases lists
  rfl

end SortedSet

variable {κ ν μ ε : Type}

theorem find?_mapEntries [DecidableEq κ] {f : ν → Except ε μ} {entries : List (κ × ν)}
    {done : List (κ × μ)} (run : mapEntries f entries = .ok done) (k : κ) :
    (∀ v, (entries.find? fun entry => entry.1 = k).map Prod.snd = some v →
      ∃ w, f v = .ok w ∧ (done.find? fun entry => entry.1 = k).map Prod.snd = some w) ∧
    ((entries.find? fun entry => entry.1 = k) = none →
      (done.find? fun entry => entry.1 = k) = none) := by
  induction entries generalizing done with
  | nil =>
    cases run
    simp
  | cons entry rest ih =>
    obtain ⟨k', v'⟩ := entry
    simp only [mapEntries] at run
    split at run
    · cases run
    · rename_i w changed
      split at run
      · cases run
      · rename_i tail later
        cases run
        by_cases same : k' = k
        · subst same
          simp only [List.find?_cons, decide_true, Option.map_some, Option.some.injEq]
          constructor
          · rintro v rfl
            exact ⟨w, changed, rfl⟩
          · intro absurd
            cases absurd
        · simpa [List.find?_cons, same] using ih later

namespace SortedMap

variable [Ord κ] [DecidableEq κ]

theorem get?_mapValues {m : SortedMap κ ν} {m' : SortedMap κ μ} {f : ν → Except ε μ}
    (run : m.mapValues f = .ok m') (k : κ) :
    (∀ v, m.get? k = some v → ∃ w, f v = .ok w ∧ m'.get? k = some w) ∧
    (m.get? k = none → m'.get? k = none) := by
  unfold mapValues at run
  split at run
  · cases run
  · rename_i entries done
    cases run
    have found := find?_mapEntries done k
    refine ⟨found.1, fun missing => ?_⟩
    simp only [get?, Option.map_eq_none_iff] at missing ⊢
    exact found.2 missing

theorem exists_of_get?_mapValues {m : SortedMap κ ν} {m' : SortedMap κ μ} {f : ν → Except ε μ}
    (run : m.mapValues f = .ok m') {k : κ} {v : μ} (found : m'.get? k = some v) :
    ∃ w, m.get? k = some w ∧ f w = .ok v := by
  obtain ⟨some, none⟩ := get?_mapValues run k
  cases before : m.get? k with
  | none => cases (none before).symm.trans found
  | some w =>
    obtain ⟨v', applied, found'⟩ := some w before
    cases found.symm.trans found'
    exact ⟨w, rfl, applied⟩

end SortedMap

end SpecEffects
