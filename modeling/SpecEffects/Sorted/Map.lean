import SpecEffects.Sorted.Set

/-!
Finite maps as lists of entries with strictly ascending keys. As with sorted sets, two maps with
the same entries are equal.
-/
namespace SpecEffects

variable {κ ν μ ε : Type}

def insertEntry [Ord κ] (k : κ) (v : ν) : List (κ × ν) → List (κ × ν)
  | [] => [(k, v)]
  | (k', v') :: rest =>
    match compare k k' with
    | .lt => (k, v) :: (k', v') :: rest
    | .eq => (k, v) :: rest
    | .gt => (k', v') :: insertEntry k v rest

theorem keys_insertEntry [Ord κ] [Std.LawfulEqOrd κ] (k : κ) (v : ν) (entries : List (κ × ν)) :
    (insertEntry k v entries).map Prod.fst = insertAscending k (entries.map Prod.fst) := by
  induction entries with
  | nil => rfl
  | cons entry rest ih =>
    cases h : compare k entry.1
    · simp [insertEntry, insertAscending, h]
    · simp [insertEntry, insertAscending, Std.LawfulEqOrd.eq_of_compare h]
    · simp [insertEntry, insertAscending, h, ih]

theorem find?_insertEntry [Ord κ] [Std.LawfulEqOrd κ] [DecidableEq κ] (k j : κ) (v : ν)
    (entries : List (κ × ν)) :
    ((insertEntry k v entries).find? fun entry => entry.1 = j).map Prod.snd =
      if k = j then some v else (entries.find? fun entry => entry.1 = j).map Prod.snd := by
  induction entries with
  | nil => by_cases same : k = j <;> simp [insertEntry, same]
  | cons entry rest ih =>
    by_cases same : k = j
    · subst j
      cases h : compare k entry.1
      · simp [insertEntry, h]
      · simp [insertEntry, h]
      · have different : entry.1 ≠ k := by
          intro equal
          simp [equal] at h
        simp [insertEntry, h, different, ih]
    · cases h : compare k entry.1
      · simp [insertEntry, h, same]
      · have equal := Std.LawfulEqOrd.eq_of_compare h
        have different : entry.1 ≠ j := by
          intro found
          exact same (equal.trans found)
        simp [insertEntry, h, same, different]
      · by_cases found : entry.1 = j
        · subst found
          simp [insertEntry, h, same]
        · simpa [insertEntry, h, same, found] using ih

def mapEntries (f : ν → Except ε μ) : List (κ × ν) → Except ε (List (κ × μ))
  | [] => .ok []
  | (k, v) :: rest =>
    match f v with
    | .error e => .error e
    | .ok w =>
      match mapEntries f rest with
      | .error e => .error e
      | .ok done => .ok ((k, w) :: done)

theorem keys_mapEntries {f : ν → Except ε μ} {entries : List (κ × ν)} {done : List (κ × μ)}
    (h : mapEntries f entries = .ok done) : done.map Prod.fst = entries.map Prod.fst := by
  induction entries generalizing done with
  | nil =>
    cases h
    rfl
  | cons entry rest ih =>
    simp only [mapEntries] at h
    split at h
    · cases h
    · split at h
      · cases h
      · rename_i tail
        cases h
        simp [ih tail]

structure SortedMap (κ ν : Type) [Ord κ] where
  entries : List (κ × ν)
  ascending : Ascending (entries.map Prod.fst)

namespace SortedMap

variable [Ord κ]

def empty : SortedMap κ ν := ⟨[], ascending_nil⟩

instance : EmptyCollection (SortedMap κ ν) := ⟨empty⟩

def keys (m : SortedMap κ ν) : List κ := m.entries.map Prod.fst

def size (m : SortedMap κ ν) : Nat := m.entries.length

def isEmpty (m : SortedMap κ ν) : Bool := m.entries.isEmpty

def get? [DecidableEq κ] (m : SortedMap κ ν) (k : κ) : Option ν :=
  (m.entries.find? fun entry => entry.1 = k).map Prod.snd

def contains [DecidableEq κ] (m : SortedMap κ ν) (k : κ) : Bool := (m.get? k).isSome

def mapValues (m : SortedMap κ ν) (f : ν → Except ε μ) : Except ε (SortedMap κ μ) :=
  match h : mapEntries f m.entries with
  | .error e => .error e
  | .ok entries => .ok ⟨entries, keys_mapEntries h ▸ m.ascending⟩

variable [Std.TransOrd κ] [Std.LawfulEqOrd κ]

def insert (m : SortedMap κ ν) (k : κ) (v : ν) : SortedMap κ ν :=
  ⟨insertEntry k v m.entries,
    keys_insertEntry k v m.entries ▸ ascending_insertAscending k m.ascending⟩

theorem get?_insert [DecidableEq κ] (m : SortedMap κ ν) (k j : κ) (v : ν) :
    (m.insert k v).get? j = if k = j then some v else m.get? j :=
  find?_insertEntry k j v m.entries

/-- Of two entries with one key the later stays. -/
def ofList (entries : List (κ × ν)) : SortedMap κ ν :=
  entries.foldl (fun m entry => m.insert entry.1 entry.2) ∅

/-- All entries of both maps, those of the second where both have the key. -/
def override (m other : SortedMap κ ν) : SortedMap κ ν :=
  other.entries.foldl (fun m entry => m.insert entry.1 entry.2) m

end SortedMap

end SpecEffects
