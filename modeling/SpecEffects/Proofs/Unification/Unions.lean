import Mathlib.Data.List.Nodup
import SpecEffects.Proofs.Unification.Correspondence
import SpecEffects.Proofs.Unification.Reflexivity

/-!
A union against a concrete set. All names of the union are bound to the set, in whichever order and
on whichever side the union stands, and what is concrete in the union has to be the set itself.
-/
namespace SpecEffects.VariableSet

open Substitution Unification

def assign (vars : NameSet) (names : List String) : Substitution :=
  ⟨names.map fun name => ⟨name, .variables (.concrete vars)⟩⟩

theorem get?_assign (vars : NameSet) (names : List String) (name : String) :
    (assign vars names).get? name =
      if name ∈ names then some (.variables (.concrete vars)) else none := by
  induction names with
  | nil => rfl
  | cons first rest ih =>
    rw [get?, find?] at ih ⊢
    by_cases same : first = name
    · simp [assign, same]
    · have different : name ≠ first := fun equal => same equal.symm
      simpa [assign, same, different] using ih

theorem canonical_assign (vars : NameSet) (names : List String) : (assign vars names).Canonical := by
  intro binding member
  obtain ⟨name, _, rfl⟩ := List.mem_map.mp member
  trivial

def sides (flipped : Bool) (set : VariableSet) (vars : NameSet) : VariableSet × VariableSet :=
  if flipped then (.concrete vars, set) else (set, .concrete vars)

theorem unify_name (flipped : Bool) (name : String) (vars : NameSet) :
    (sides flipped (.quantified name) vars).1.unify (sides flipped (.quantified name) vars).2 =
      .ok (.single name (.variables (.concrete vars))) := by
  cases flipped <;> simp [sides, unify, solveWith, bind, quantifiedNames]

theorem unify_concrete {vars vars' : NameSet} (different : vars ≠ vars') :
    (concrete vars).unify (concrete vars') =
      .error (.variablesMismatch (.concrete vars) (.concrete vars')) := by
  simp [unify, solveWith, different]

theorem compose_assign (vars : NameSet) {names : List String} {name : String} (new : name ∉ names) :
    (single name (.variables (.concrete vars))).compose (assign vars names) =
      .ok (assign vars (names ++ [name])) := by
  refine compose_eq_ok.mpr ⟨(assign vars names).bindings, List.forall₂_same.mpr ?_, ?_⟩
  · intro binding member
    obtain ⟨name, _, rfl⟩ := List.mem_map.mp member
    exact ⟨rfl, rfl⟩
  · have unbound : (assign vars names).binds name = false := by
      have missing := get?_assign vars names name
      rw [if_neg new, get?, Option.map_eq_none_iff] at missing
      rw [binds, missing]
      rfl
    rw [single, List.filter_cons_of_pos (by simp [unbound]), List.filter_nil]
    simp [assign]

theorem solveUnder_assign (flipped : Bool) (vars : NameSet) {names : List String} {name : String}
    (new : name ∉ names) :
    solveUnder unify (assign vars names) (sides flipped (.quantified name) vars).1
      (sides flipped (.quantified name) vars).2 = .ok (assign vars (names ++ [name])) := by
  have stays : (assign vars names).applyToVariables (.quantified name) = .ok (.quantified name) := by
    rw [applyToVariables_quantified, valueAt_of_unbound]
    · rfl
    · rw [get?_assign, if_neg new]
  have solved := unify_name flipped name vars
  have composed := compose_assign vars new
  simp only [solveUnder, bind_eq_ok, mapError_eq_ok]
  cases flipped
  · exact ⟨_, stays, _, rfl, _, solved, composed⟩
  · exact ⟨_, rfl, _, stays, _, solved, composed⟩

theorem solvePieces_assign (expected actual : Term) (flipped : Bool) (vars : NameSet)
    {pieces : List (Position × VariableSet × VariableSet)} {names more : List String}
    (each : pieces.map Prod.snd = more.map fun name => sides flipped (.quantified name) vars)
    (nodup : (names ++ more).Nodup) :
    solvePieces (solveUnder unify) expected actual (assign vars names) pieces =
      .ok (assign vars (names ++ more)) := by
  induction more generalizing pieces names with
  | nil =>
    cases List.map_eq_nil_iff.mp each
    simp [solvePieces]
  | cons name rest ih =>
    obtain ⟨⟨position, left, right⟩, tail, rfl, head, tails⟩ := List.map_eq_cons_iff.mp each
    have new : name ∉ names := by
      intro old
      exact (List.nodup_append'.mp nodup).2.2 old List.mem_cons_self
    have step := solveUnder_assign flipped vars new
    dsimp only at head
    rw [← head] at step
    rw [List.append_cons] at nodup ⊢
    simp only [solvePieces, bind_eq_ok, mapError_eq_ok]
    exact ⟨_, step, ih tails nodup⟩

theorem solveUnder_concrete (flipped : Bool) (own vars : NameSet) (names : List String) :
    solveUnder unify (assign vars names) (sides flipped (.concrete own) vars).1
        (sides flipped (.concrete own) vars).2 =
      if own = vars then .ok (assign vars names)
      else .error (.variablesMismatch (sides flipped (.concrete own) vars).1
        (sides flipped (.concrete own) vars).2) := by
  split
  · rename_i same
    subst same
    have stays := compose_empty_left (canonical_assign own names)
    simp only [solveUnder, bind_eq_ok, mapError_eq_ok]
    cases flipped <;> exact ⟨_, rfl, _, rfl, ∅, unify_self _, stays⟩
  · rename_i different
    cases flipped
    · change (concrete own).unify (concrete vars) >>= _ = _
      rw [unify_concrete different]
      rfl
    · change (concrete vars).unify (concrete own) >>= _ = _
      rw [unify_concrete (Ne.symm different)]
      rfl

/-- The names come first and are bound, so that only what is concrete can be in the way. -/
theorem solvePieces_members (expected actual : Term) (flipped : Bool) (names own vars : NameSet) :
    solvePieces (solveUnder unify) expected actual ∅
        ((members names own).mapIdx fun i set => (.unionMember i, sides flipped set vars)) =
      if own.isEmpty = true ∨ own = vars then .ok (assign vars names.toList)
      else .error (.nested (.unionMember names.size) expected actual
        (.variablesMismatch (sides flipped (.concrete own) vars).1
          (sides flipped (.concrete own) vars).2)) := by
  have named := solvePieces_assign expected actual flipped vars
    (map_mapIdx (fun i set => (Position.unionMember i, sides flipped set vars)) Prod.snd
      (names.toList.map .quantified) (fun _ _ => rfl) |>.trans (List.map_map ..))
    (show (([] : List String) ++ names.toList).Nodup from names.toList_nodup)
  rw [members, List.mapIdx_append, solvePieces_append]
  change solvePieces _ _ _ ∅ _ = .ok _ at named
  rw [named]
  change solvePieces _ expected actual (assign vars names.toList) _ = _
  by_cases none : own.isEmpty = true
  · rw [if_pos none, if_pos (Or.inl none)]
    rfl
  · rw [if_neg none, List.mapIdx_singleton, solvePieces_single, solveUnder_concrete]
    by_cases same : own = vars
    · rw [if_pos same, if_pos (Or.inr same)]
      rfl
    · rw [if_neg same, if_neg fun either => either.elim none same, Nat.zero_add, List.length_map]
      rfl

theorem unify_union (flipped : Bool) (names own vars : NameSet) :
    (sides flipped (.union (members names own)) vars).1.unify
        (sides flipped (.union (members names own)) vars).2 =
      if own.isEmpty = true ∨ own = vars then .ok (assign vars names.toList)
      else .error (.nested (.unionMember names.size)
        (.variables (sides flipped (.union (members names own)) vars).1)
        (.variables (sides flipped (.union (members names own)) vars).2)
        (.variablesMismatch (sides flipped (.concrete own) vars).1
          (sides flipped (.concrete own) vars).2)) := by
  rw [unify_variables_eq_solveWith, ← solvePieces_members, ← solveInTurn_eq_solvePieces]
  cases flipped <;> simp [sides, solveWith]

theorem unions_alike {R : Substitution → Substitution → Prop} (flipped flipped' : Bool)
    {names names' : NameSet} (own : NameSet) {vars : NameSet}
    (related : R (assign vars names.toList) (assign vars names'.toList)) :
    Alike R
      ((sides flipped (.union (members names own)) vars).1.unify
        (sides flipped (.union (members names own)) vars).2)
      ((sides flipped' (.union (members names' own)) vars).1.unify
        (sides flipped' (.union (members names' own)) vars).2) := by
  rw [unify_union, unify_union]
  split
  · exact .ok related
  · exact .error rfl

end SpecEffects.VariableSet
