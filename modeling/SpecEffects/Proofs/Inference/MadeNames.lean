import SpecEffects.Inference.State
import SpecEffects.Proofs.Names

/-!
The names that inference makes up. They are numbered, under one stem for each kind, or they are
placeholders for the effects of parameters. Numbers tell when a name was made, and placeholders tell
the lambda they belong to, so names from different stretches of a run never meet.
-/
namespace SpecEffects

namespace FreshNames

instance : LE FreshNames := ⟨fun fresh later => ∀ stem, fresh.count stem ≤ later.count stem⟩

theorem le_refl (fresh : FreshNames) : fresh ≤ fresh := fun _ => Nat.le_refl _

theorem le_trans {first second third : FreshNames} (early : first ≤ second)
    (late : second ≤ third) : first ≤ third := fun stem => Nat.le_trans (early stem) (late stem)

theorem empty_le (fresh : FreshNames) : empty ≤ fresh := fun _ => Nat.zero_le _

theorem count_next (fresh : FreshNames) (stem other : String) :
    (fresh.next stem).2.count other =
      if stem = other then fresh.count stem + 1 else fresh.count other := by
  simp only [next, count, SortedMap.get?_insert]
  split <;> simp_all

theorem le_next (fresh : FreshNames) (stem : String) : fresh ≤ (fresh.next stem).2 := by
  intro other
  rw [count_next]
  split
  · rename_i same
    subst same
    omega
  · omega

end FreshNames

namespace Inference

def stem : Kind → String
  | .effect => effectStem
  | .variables => variablesStem

def numbered (kind : Kind) (n : Nat) : String := stem kind ++ toString n

theorem toList_digits (n : Nat) : (toString n).toList = Nat.toDigits 10 n := Nat.toList_repr

theorem digits_injective {m n : Nat} (same : Nat.toDigits 10 m = Nat.toDigits 10 n) : m = n := by
  rw [← @Nat.ofDigitChars_ten_toDigits m, ← @Nat.ofDigitChars_ten_toDigits n, same]

theorem toList_numbered (kind : Kind) (n : Nat) :
    (numbered kind n).toList =
      '_' :: (match kind with | .effect => 'e' | .variables => 'v') :: Nat.toDigits 10 n := by
  rw [numbered, String.toList_append, toList_digits]
  cases kind <;> rfl

theorem toList_placeholder (param : String) (lambda : NodeId) :
    (placeholder param lambda).toList =
      'e' :: '_' :: param.toList ++ '_' :: Nat.toDigits 10 lambda.val.toNat := by
  simp [placeholder, parameterMark, String.toList_append]

theorem numbered_injective {kind kind' : Kind} {n n' : Nat}
    (same : numbered kind n = numbered kind' n') : kind = kind' ∧ n = n' := by
  have chars := congrArg String.toList same
  simp only [toList_numbered, List.cons.injEq] at chars
  obtain ⟨_, letter, digits⟩ := chars
  refine ⟨?_, digits_injective digits⟩
  cases kind <;> cases kind' <;> simp at letter ⊢

theorem behind_last {α : Type} {a : α} {xs ys ds es : List α} (missing : a ∉ ds) (missing' : a ∉ es)
    (same : xs ++ a :: ds = ys ++ a :: es) : ds = es := by
  rcases List.append_eq_append_iff.mp same with ⟨zs, _, rest⟩ | ⟨zs, _, rest⟩
  · cases zs with
    | nil => exact (List.cons.inj rest).2
    | cons z zs =>
      rw [(List.cons.inj rest).2] at missing
      exact absurd (List.mem_append_right _ List.mem_cons_self) missing
  · cases zs with
    | nil => exact (List.cons.inj rest).2.symm
    | cons z zs =>
      rw [(List.cons.inj rest).2] at missing'
      exact absurd (List.mem_append_right _ List.mem_cons_self) missing'

theorem placeholder_injective {param param' : String} {lambda lambda' : NodeId}
    (same : placeholder param lambda = placeholder param' lambda') : lambda = lambda' := by
  have chars := congrArg String.toList same
  rw [toList_placeholder, toList_placeholder] at chars
  have digits := behind_last Nat.underscore_not_in_toDigits Nat.underscore_not_in_toDigits chars
  have value := UInt64.toNat_inj.mp (digits_injective digits)
  cases lambda
  cases lambda'
  exact congrArg NodeId.mk value

theorem isPlaceholder_placeholder (param : String) (lambda : NodeId) :
    isPlaceholder (placeholder param lambda) = true := by
  rw [isPlaceholder, toList_placeholder]
  rfl

theorem not_isPlaceholder_numbered (kind : Kind) (n : Nat) :
    isPlaceholder (numbered kind n) = false := by
  rw [isPlaceholder, toList_numbered]
  rfl

/-- The names that are numbered between two moments, and these placeholders. -/
def made (lo hi : FreshNames) (placeholders : String → Prop) : Vocabulary := fun kind name =>
  (∃ n, lo.count (stem kind) ≤ n ∧ n < hi.count (stem kind) ∧ name = numbered kind n) ∨
    kind = .effect ∧ placeholders name

def Owned (lo : FreshNames) (placeholders : String → Prop) (name : String) : Prop :=
  (∃ kind n, lo.count (stem kind) ≤ n ∧ name = numbered kind n) ∨ placeholders name

def possible : Vocabulary := fun kind name =>
  (∃ n, name = numbered kind n) ∨ kind = .effect ∧ isPlaceholder name = true

variable {lo hi : FreshNames} {placeholders others : String → Prop} {kind : Kind} {name : String}

theorem possible_separate : possible.Separate := by
  intro name at_effect at_variables
  rcases at_variables with ⟨n, eq⟩ | ⟨absurd, _⟩
  · subst eq
    rcases at_effect with ⟨m, same⟩ | ⟨_, marked⟩
    · cases (numbered_injective same).1
    · rw [not_isPlaceholder_numbered] at marked
      cases marked
  · cases absurd

theorem possible_of_made (marked : ∀ name, placeholders name → isPlaceholder name = true)
    (used : made lo hi placeholders kind name) : possible kind name := by
  rcases used with ⟨n, _, _, eq⟩ | ⟨at_effect, placed⟩
  · exact Or.inl ⟨n, eq⟩
  · exact Or.inr ⟨at_effect, marked name placed⟩

theorem made_mono {lo' hi' : FreshNames} (earlier : lo' ≤ lo) (later : hi ≤ hi')
    (more : ∀ name, placeholders name → others name) (used : made lo hi placeholders kind name) :
    made lo' hi' others kind name := by
  rcases used with ⟨n, above, below, eq⟩ | ⟨at_effect, placed⟩
  · exact Or.inl ⟨n, Nat.le_trans (earlier _) above, Nat.lt_of_lt_of_le below (later _), eq⟩
  · exact Or.inr ⟨at_effect, more name placed⟩

theorem owned_of_made (used : made lo hi placeholders kind name) : Owned lo placeholders name := by
  rcases used with ⟨n, above, _, eq⟩ | ⟨_, placed⟩
  · exact Or.inl ⟨kind, n, above, eq⟩
  · exact Or.inr placed

theorem not_owned_of_made (marked : ∀ name, placeholders name → isPlaceholder name = true)
    (marked' : ∀ name, others name → isPlaceholder name = true)
    (disjoint : ∀ name, placeholders name → ¬ others name)
    (used : made lo hi placeholders kind name) : ¬ Owned hi others name := by
  intro owned
  rcases used with ⟨n, _, below, rfl⟩ | ⟨_, placed⟩
  · rcases owned with ⟨kind', n', above, same⟩ | placed
    · obtain ⟨rfl, rfl⟩ := numbered_injective same
      omega
    · have absurd := marked' _ placed
      rw [not_isPlaceholder_numbered] at absurd
      cases absurd
  · rcases owned with ⟨kind', n', _, rfl⟩ | placed'
    · have absurd := marked _ placed
      rw [not_isPlaceholder_numbered] at absurd
      cases absurd
    · exact disjoint name placed placed'

namespace State

theorem freshBindings_spec (kind : Kind) (fresh : FreshNames) (names : List String) :
    ∀ bindings later,
      freshBindings fresh (stem kind) kind.quantified names = (bindings, later) →
      fresh ≤ later ∧ bindings.map Binding.name = names ∧
        ∀ binding ∈ bindings, ∃ n, fresh.count (stem kind) ≤ n ∧ n < later.count (stem kind) ∧
          binding.value = kind.quantified (numbered kind n) := by
  induction names generalizing fresh with
  | nil =>
    intro bindings later run
    cases run
    exact ⟨fresh.le_refl, rfl, fun _ member => nomatch member⟩
  | cons name rest ih =>
    intro bindings later run
    simp only [freshBindings] at run
    obtain ⟨ordered, names, values⟩ := ih (fresh.next (stem kind)).2 _ _ rfl
    cases run
    have count := fresh.count_next (stem kind) (stem kind)
    rw [if_pos rfl] at count
    have bound := ordered (stem kind)
    refine ⟨FreshNames.le_trans (fresh.le_next _) ordered, ?_, ?_⟩
    · rw [List.map_cons, names]
    · intro binding member
      rcases List.mem_cons.mp member with rfl | member
      · exact ⟨fresh.count (stem kind), Nat.le_refl _, by omega, rfl⟩
      · obtain ⟨n, above, below, value⟩ := values binding member
        exact ⟨n, by omega, below, value⟩

end State

end Inference

end SpecEffects
