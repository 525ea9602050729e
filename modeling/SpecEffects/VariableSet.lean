import SpecEffects.Sorted.Set

/-!
Sets of state variables. A set is written out, stands for a quantified name, or is a union. Unions
are kept as written; `join` brings them to the canonical form, with the quantified names first in
ascending order and then one set of concrete names, if there are any.
-/
namespace SpecEffects

inductive VariableSet where
  | concrete (vars : NameSet)
  | quantified (name : String)
  | union (sets : List VariableSet)

namespace VariableSet

mutual

def decEq : (s t : VariableSet) → Decidable (s = t)
  | .concrete vars, .concrete vars' => decidable_of_iff (vars = vars') (by simp)
  | .quantified name, .quantified name' => decidable_of_iff (name = name') (by simp)
  | .union sets, .union sets' =>
    have := decEqList sets sets'
    decidable_of_iff (sets = sets') (by simp)
  | .concrete _, .quantified _ => isFalse nofun
  | .concrete _, .union _ => isFalse nofun
  | .quantified _, .concrete _ => isFalse nofun
  | .quantified _, .union _ => isFalse nofun
  | .union _, .concrete _ => isFalse nofun
  | .union _, .quantified _ => isFalse nofun

def decEqList : (ss ts : List VariableSet) → Decidable (ss = ts)
  | [], [] => isTrue rfl
  | [], _ :: _ => isFalse nofun
  | _ :: _, [] => isFalse nofun
  | s :: ss, t :: ts =>
    have := decEq s t
    have := decEqList ss ts
    decidable_of_iff (s = t ∧ ss = ts) (by simp)

end

instance : DecidableEq VariableSet := decEq

def empty : VariableSet := .concrete ∅

/-- Holds of the written-out set without members only: a union counts as non-empty. -/
def isEmpty : VariableSet → Bool
  | .concrete vars => vars.isEmpty
  | _ => false

mutual

def concreteNames : VariableSet → NameSet
  | .concrete vars => vars
  | .quantified _ => ∅
  | .union sets => concreteNamesOf sets

def concreteNamesOf : List VariableSet → NameSet
  | [] => ∅
  | set :: rest => (concreteNames set).union (concreteNamesOf rest)

end

mutual

def quantifiedNames : VariableSet → NameSet
  | .concrete _ => ∅
  | .quantified name => .singleton name
  | .union sets => quantifiedNamesOf sets

def quantifiedNamesOf : List VariableSet → NameSet
  | [] => ∅
  | set :: rest => (quantifiedNames set).union (quantifiedNamesOf rest)

end

def ofNames (quantified concrete : NameSet) : VariableSet :=
  match quantified.toList, concrete.isEmpty with
  | [], _ => .concrete concrete
  | [name], true => .quantified name
  | names, true => .union (names.map .quantified)
  | names, false => .union (names.map .quantified ++ [.concrete concrete])

def join (sets : List VariableSet) : VariableSet :=
  ofNames (quantifiedNamesOf sets) (concreteNamesOf sets)

mutual

/-- The members as they are printed: concrete names in quotes, quantified names bare. -/
def memberTexts : VariableSet → List String
  | .concrete vars => vars.toList.map fun var => "'" ++ var ++ "'"
  | .quantified name => [name]
  | .union sets => memberTextsOf sets

def memberTextsOf : List VariableSet → List String
  | [] => []
  | set :: rest => memberTexts set ++ memberTextsOf rest

end

def text (set : VariableSet) : String :=
  "[" ++ ", ".intercalate set.memberTexts ++ "]"

end VariableSet

end SpecEffects
