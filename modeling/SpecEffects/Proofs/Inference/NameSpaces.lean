import SpecEffects.Proofs.Inference.MadeNames

/-!
Generated names never meet. A numbered name is a stem and a number, and where stems do not end in a
digit the name tells where the one ends and the other begins. A placeholder tells its parameter and
its lambda whatever the parameter is called: the number of the lambda stands behind the last mark.
-/
namespace SpecEffects

theorem no_digits_behind {xs digits : List Char}
    (ends : (xs ++ digits).getLast?.any Char.isDigit = false)
    (all : ∀ c ∈ digits, c.isDigit = true) : digits = [] := by
  cases last : digits.getLast? with
  | none => exact List.getLast?_eq_none_iff.mp last
  | some c =>
    have digit := all c (List.mem_of_getLast? last)
    simp [List.getLast?_append, last, digit] at ends

theorem append_digits_injective {xs ys digits digits' : List Char}
    (ends : xs.getLast?.any Char.isDigit = false) (ends' : ys.getLast?.any Char.isDigit = false)
    (all : ∀ c ∈ digits, c.isDigit = true) (all' : ∀ c ∈ digits', c.isDigit = true)
    (same : xs ++ digits = ys ++ digits') : xs = ys ∧ digits = digits' := by
  rcases List.append_eq_append_iff.mp same with ⟨more, longer, rest⟩ | ⟨more, longer, rest⟩
  · subst longer rest
    have none := no_digits_behind ends' fun c member => all c (List.mem_append_left _ member)
    simp [none]
  · subst longer rest
    have none := no_digits_behind ends fun c member => all' c (List.mem_append_left _ member)
    simp [none]

namespace FreshNames

/-- A number behind such a stem cannot be told from it. -/
def endsInDigit (stem : String) : Bool := stem.toList.getLast?.any Char.isDigit

theorem numbered_stem_injective {stem stem' : String} (ends : endsInDigit stem = false)
    (ends' : endsInDigit stem' = false) {n n' : Nat}
    (same : stem ++ toString n = stem' ++ toString n') : stem = stem' ∧ n = n' := by
  have chars := congrArg String.toList same
  rw [String.toList_append, String.toList_append, Inference.toList_digits,
    Inference.toList_digits] at chars
  have digits : ∀ (n : Nat), ∀ c ∈ Nat.toDigits 10 n, c.isDigit = true := fun n c member =>
    Nat.isDigit_of_mem_toDigits (by omega) (by omega) member
  have parts := append_digits_injective ends ends' (digits n) (digits n') chars
  exact ⟨String.toList_inj.mp parts.1, Inference.digits_injective parts.2⟩

theorem next_eq (fresh : FreshNames) (stem : String) :
    (fresh.next stem).1 = stem ++ toString (fresh.count stem) := rfl

theorem nextAll_cons (fresh : FreshNames) (stem : String) (rest : List String) :
    (fresh.nextAll (stem :: rest)).1 = (fresh.next stem).1 :: ((fresh.next stem).2.nextAll rest).1 :=
  rfl

theorem mem_nextAll {fresh : FreshNames} {stems : List String} {name : String}
    (member : name ∈ (fresh.nextAll stems).1) :
    ∃ stem ∈ stems, ∃ n, fresh.count stem ≤ n ∧ name = stem ++ toString n := by
  induction stems generalizing fresh with
  | nil => cases member
  | cons first rest ih =>
    rw [nextAll_cons] at member
    rcases List.mem_cons.mp member with here | later
    · exact ⟨first, List.mem_cons_self, fresh.count first, Nat.le_refl _, here⟩
    · obtain ⟨stem, present, n, reached, numbered⟩ := ih later
      have before := fresh.le_next first stem
      exact ⟨stem, List.mem_cons_of_mem _ present, n, by omega, numbered⟩

theorem nextAll_nodup (fresh : FreshNames) {stems : List String}
    (ends : ∀ stem ∈ stems, endsInDigit stem = false) : (fresh.nextAll stems).1.Nodup := by
  induction stems generalizing fresh with
  | nil => exact List.nodup_nil
  | cons first rest ih =>
    rw [nextAll_cons]
    refine List.nodup_cons.mpr
      ⟨fun again => ?_, ih _ fun stem member => ends stem (List.mem_cons_of_mem _ member)⟩
    obtain ⟨stem, present, n, reached, same⟩ := mem_nextAll again
    rw [next_eq] at same
    have parts := numbered_stem_injective (ends first List.mem_cons_self)
      (ends stem (List.mem_cons_of_mem _ present)) same
    -- The stem is the same and the number is the old one, which has been passed.
    have passed := fresh.count_next first first
    rw [← parts.1, passed, if_pos rfl] at reached
    omega

end FreshNames

namespace Inference

theorem placeholder_parts {param param' : String} {lambda lambda' : NodeId}
    (same : placeholder param lambda = placeholder param' lambda') :
    param = param' ∧ lambda = lambda' := by
  have one := placeholder_injective same
  subst one
  have chars := congrArg String.toList same
  rw [toList_placeholder, toList_placeholder] at chars
  have params := List.append_cancel_right chars
  simp only [List.cons.injEq, true_and] at params
  exact ⟨String.toList_inj.mp params, rfl⟩

theorem placeholder_ne_numbered (param : String) (lambda : NodeId) (kind : Kind) (n : Nat) :
    placeholder param lambda ≠ numbered kind n := by
  intro same
  have marked := isPlaceholder_placeholder param lambda
  rw [same, not_isPlaceholder_numbered] at marked
  cases marked

/-- Generated names never meet. Names that are given out in turn are pairwise distinct, for all stems
that do not end in a digit; placeholders of different parameters are different; and no placeholder
is a numbered name of inference. -/
theorem generated_names_never_meet :
    (∀ (fresh : FreshNames) (stems : List String),
      (∀ stem ∈ stems, FreshNames.endsInDigit stem = false) → (fresh.nextAll stems).1.Nodup) ∧
    (∀ (param param' : String) (lambda lambda' : NodeId),
      placeholder param lambda = placeholder param' lambda' → param = param' ∧ lambda = lambda') ∧
    (∀ (param : String) (lambda : NodeId) (fresh : FreshNames), ∀ stem ∈ [effectStem, variablesStem],
      placeholder param lambda ≠ (fresh.next stem).1) := by
  refine ⟨fun fresh stems => fresh.nextAll_nodup, fun _ _ _ _ => placeholder_parts, ?_⟩
  intro param lambda fresh stem member
  rw [FreshNames.next_eq]
  simp only [List.mem_cons, List.not_mem_nil, or_false] at member
  rcases member with rfl | rfl
  · exact placeholder_ne_numbered param lambda .effect _
  · exact placeholder_ne_numbered param lambda .variables _

/-- Stems that look like generated names themselves, with the empty one among them, and parameters
whose names look like placeholders. -/
theorem names_of_similar_stems :
    let stems := ["_e", "_v", "_e", "_e0_", "", "_e", "e_p_", "_e0_", ""]
    (∀ stem ∈ stems, FreshNames.endsInDigit stem = false) ∧
    (FreshNames.empty.nextAll stems).1 =
      ["_e0", "_v0", "_e1", "_e0_0", "0", "_e2", "e_p_0", "_e0_1", "1"] ∧
    (FreshNames.empty.nextAll stems).1.Nodup ∧
    placeholder "p" ⟨12⟩ = "e_p_12" ∧ placeholder "p_1" ⟨2⟩ = "e_p_1_2" ∧
    placeholder "p_1" ⟨2⟩ ≠ placeholder "p" ⟨12⟩ ∧
    placeholder "" ⟨0⟩ ≠ (FreshNames.empty.next effectStem).1 := by
  intro stems
  have ends : ∀ stem ∈ stems, FreshNames.endsInDigit stem = false := by decide
  refine ⟨ends, by decide +kernel, generated_names_never_meet.1 _ stems ends, by decide +kernel,
    by decide +kernel, fun same => ?_, generated_names_never_meet.2.2 "" ⟨0⟩ _ effectStem (by decide)⟩
  have params := (generated_names_never_meet.2.1 "p_1" "p" ⟨2⟩ ⟨12⟩ same).1
  exact absurd params (by decide)

end Inference

end SpecEffects
