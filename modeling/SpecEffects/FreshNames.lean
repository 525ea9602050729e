import SpecEffects.Sorted.Map

/-!
Names that have not been used before. Names are numbered from zero for each stem. The numbers are
taken to stay below 2^64, so that counting never wraps around.
-/
namespace SpecEffects

structure FreshNames where
  counters : SortedMap String Nat

namespace FreshNames

def empty : FreshNames := ⟨∅⟩

def count (fresh : FreshNames) (stem : String) : Nat := (fresh.counters.get? stem).getD 0

def next (fresh : FreshNames) (stem : String) : String × FreshNames :=
  let count := fresh.count stem
  (stem ++ toString count, ⟨fresh.counters.insert stem (count + 1)⟩)

def nextAll (fresh : FreshNames) : List String → List String × FreshNames
  | [] => ([], fresh)
  | stem :: rest =>
    let (name, fresh) := fresh.next stem
    let (names, fresh) := fresh.nextAll rest
    (name :: names, fresh)

end FreshNames

end SpecEffects
