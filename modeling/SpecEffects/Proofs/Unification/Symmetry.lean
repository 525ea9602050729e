import Mathlib.Logic.Equiv.Basic
import SpecEffects.Proofs.Unification.Renaming

/-!
Unification with its sides exchanged. Of two names the left one is bound, so that the runs from both
sides bind names in opposite directions. What they have learned before a piece is the same up to a
permutation of names, and so is the piece that they call for next. Renaming changes nothing about
what is found there, and the permutations add up.
-/
namespace SpecEffects

open Substitution Unification

namespace Substitution

variable {π κ : Equiv.Perm String} {V : Vocabulary} {σ σ' new new' : Substitution}

theorem valueAt_single (name : String) (value : Term) (kind : Kind) (other : String) :
    (single name value).valueAt kind other =
      if name = other then value else kind.quantified other := by
  rw [valueAt, get?_single]
  split <;> rfl

/-- Of names of the vocabulary, the substitutions make the same up to a permutation of names. -/
structure Permuted (π : Equiv.Perm String) (V : Vocabulary) (σ σ' : Substitution) : Prop where
  spelled : σ.Over V
  spelled' : σ'.Over V
  commutes : Commutes id π V σ σ'

def Variants (V : Vocabulary) (σ σ' : Substitution) : Prop :=
  ∃ π : Equiv.Perm String, Permuted π V σ σ'

theorem Variants.refl (canonical : σ.Canonical) (spelled : σ.Over V) : Variants V σ σ :=
  ⟨Equiv.refl String, spelled, spelled, .refl canonical⟩

theorem Variants.exchange (separate : V.Separate) {kind : Kind} {name other : String}
    (used : V kind name) (used' : V kind other) :
    Variants V (.single name (kind.quantified other)) (.single other (kind.quantified name)) := by
  have named : ∀ {bound value}, V kind bound → V kind value →
      (single bound (kind.quantified value)).Over V := by
    intro bound value key inside
    refine over_single (by rwa [Term.kind_quantified]) fun kind' name' used => ?_
    obtain ⟨rfl, rfl⟩ := Term.uses_quantified.mp used
    exact inside
  refine ⟨Equiv.swap name other, named used used', named used' used,
    everySet_single (Term.canonical_quantified _ _), everySet_single (Term.canonical_quantified _ _),
    fun {kind' third} used'' => ?_⟩
  rw [id, valueAt_single, valueAt_single]
  by_cases first : name = third
  · subst first
    cases separate.kind_eq used used''
    rw [if_pos rfl, Term.rename_quantified, Equiv.swap_apply_right, ite_self]
  · rw [if_neg first, Term.rename_quantified]
    by_cases second : other = third
    · subst second
      cases separate.kind_eq used' used''
      rw [if_pos rfl, Equiv.swap_apply_right]
    · rw [if_neg second, Equiv.swap_apply_of_ne_of_ne (Ne.symm first) (Ne.symm second)]

namespace Permuted

theorem applyToTerm (known : Permuted π V σ σ') (separate : V.Separate) (term : Term)
    (canonical : term.Canonical) (within : term.Over V) :
    ∃ after, σ.applyToTerm term = .ok after ∧ σ'.applyToTerm term = .ok (after.rename π) ∧
      after.Canonical ∧ after.Over V ∧ (after.rename π).Over V := by
  obtain ⟨after, run⟩ := exists_applyToTerm_of_over known.spelled separate within
  have run' := known.commutes.applyToTerm canonical within run
  rw [Term.rename_id canonical] at run'
  exact ⟨after, run, run', canonical_applyToTerm known.commutes.canonical canonical run,
    over_applyToTerm known.spelled.values within run,
    over_applyToTerm known.spelled'.values within run'⟩

theorem applyToVariables (known : Permuted π V σ σ') (separate : V.Separate) {set : VariableSet}
    (canonical : set.Canonical) (within : (Term.variables set).Over V) :
    ∃ after, σ.applyToVariables set = .ok after ∧
      σ'.applyToVariables set = .ok (after.rename π) ∧ after.Canonical ∧
      (Term.variables after).Over V ∧ (Term.variables (after.rename π)).Over V := by
  obtain ⟨_, applied, applied', rest⟩ := known.applyToTerm separate (.variables set) canonical within
  obtain ⟨after, run, rfl⟩ := applyToTerm_variables.mp applied
  obtain ⟨_, run', same⟩ := applyToTerm_variables.mp applied'
  cases same
  exact ⟨after, run, run', rest⟩

theorem apply (known : Permuted π V σ σ') (separate : V.Separate) {effect : Effect}
    (canonical : effect.Canonical) (within : effect.Over V) :
    ∃ after, σ.apply effect = .ok after ∧ σ'.apply effect = .ok (after.rename π) ∧
      after.Canonical ∧ after.Over V ∧ (after.rename π).Over V := by
  obtain ⟨_, applied, applied', rest⟩ := known.applyToTerm separate (.effect effect) canonical within
  obtain ⟨after, run, rfl⟩ := applyToTerm_effect.mp applied
  obtain ⟨_, run', same⟩ := applyToTerm_effect.mp applied'
  cases same
  exact ⟨after, run, run', rest⟩

theorem compose (known : Permuted π V σ σ') (separate : V.Separate) (spelled : new.Over V)
    (spelled' : new'.Over V) (news : Commutes π κ V new new') :
    Corresponds (fun _ _ => True) (Permuted κ V) (new.compose σ) (new'.compose σ') := by
  have exists_of_over : ∀ {new σ : Substitution}, new.Over V → σ.Over V →
      ∃ composed, new.compose σ = .ok composed := fun spelled known =>
    exists_compose fun binding member =>
      exists_applyToTerm_of_over spelled separate (known.values binding member)
  obtain ⟨composed, run⟩ := exists_of_over spelled known.spelled
  obtain ⟨composed', run'⟩ := exists_of_over spelled' known.spelled'
  have inside := over_compose spelled known.spelled run
  have inside' := over_compose spelled' known.spelled' run'
  rw [run, run']
  refine .ok ⟨inside, inside', canonical_compose news.canonical known.commutes.canonical run,
    canonical_compose news.canonical' known.commutes.canonical' run', fun {kind name} used => ?_⟩
  have value := applyToTerm_valueAt run (allows_of_over inside separate used)
  have value' := applyToTerm_valueAt run' (allows_of_over inside' separate used)
  have image : σ'.valueAt kind name = (σ.valueAt kind name).rename π := known.commutes.image used
  rw [image] at value'
  -- both values go through what is new, the second one renamed by what was known
  have both := news.applyToTerm (everySet_valueAt known.commutes.canonical (fun _ => trivial) _ _)
    (over_valueAt known.spelled.values used) value
  exact Except.ok.inj (value'.symm.trans both)

/-- The first run solves for a piece and the second one for a renamed copy with its sides
exchanged. In between is the run with exchanged sides that are not renamed. -/
theorem learn (known : Permuted π V σ σ') (separate : V.Separate)
    {x y z : Except UnificationError Substitution} (exchanged : Alike (Variants V) x y)
    (renamed : Alike (Mirrored π V) y z) (spelled : ∀ new', z = .ok new' → new'.Over V) :
    Alike (Variants V) (x >>= fun new => (new.compose σ).mapError .kindMismatch)
      (z >>= fun new' => (new'.compose σ').mapError .kindMismatch) := by
  cases exchanged with
  | error alike =>
    cases renamed with
    | error alike' => exact .error (alike'.trans alike)
  | ok variants =>
    cases renamed with
    | @ok _ new' mirrored =>
      obtain ⟨κ, inside, _, commutes⟩ := variants
      have news : Commutes π (κ.trans π) V _ new' := commutes.trans mirrored.commutes
      have both := known.compose separate inside (spelled new' rfl) news
      exact alike_of_corresponds (both.imp fun _ _ _ _ permuted => ⟨_, permuted⟩)

end Permuted

end Substitution

variable {V : Vocabulary} {σ σ' : Substitution}

namespace VariableSet

variable {set other : VariableSet}

theorem unify_over (within : (Term.variables set).Over V) (within' : (Term.variables other).Over V)
    (run : set.unify other = .ok σ) : σ.Over V :=
  unify_variables_solved Layer.isLocal run V within within'

theorem union_exchanged (flipped : Bool) {sets : List VariableSet}
    (canonical : (union sets).Canonical) (vars : NameSet) :
    Alike Eq
      ((sides flipped (union sets) vars).1.unify (sides flipped (union sets) vars).2)
      ((sides (!flipped) (union sets) vars).1.unify (sides (!flipped) (union sets) vars).2) := by
  obtain ⟨_, names, own, _, rfl⟩ := canonical
  exact unions_alike flipped (!flipped) own rfl

theorem unify_exchanged (separate : V.Separate) (canonical : set.Canonical)
    (canonical' : other.Canonical) (within : (Term.variables set).Over V)
    (within' : (Term.variables other).Over V) :
    Alike (Variants V) (set.unify other) (other.unify set) := by
  have kept : Alike Eq (set.unify other) (other.unify set) →
      Alike (Variants V) (set.unify other) (other.unify set) := by
    intro both
    refine both.imp fun σ _ run _ same => ?_
    subst same
    exact .refl (unify_variables_solved Layer.sound run canonical canonical').1
      (unify_over within within' run)
  have named : ∀ {name}, (Term.variables (quantified name)).Over V → V .variables name :=
    fun spelled => spelled _ _ (uses_quantified.mpr ⟨rfl, rfl⟩)
  by_cases same : set = other
  · subst same
    exact kept (alike_of_eq rfl)
  · have different : other ≠ set := Ne.symm same
    cases set with
    | quantified name =>
      cases other with
      | quantified name' =>
        have apart : name ≠ name' := fun equal => same (congrArg quantified equal)
        have bound := Variants.exchange separate (named within) (named within')
        simpa [unify, solveWith, bind, quantifiedNames, apart, apart.symm] using .ok bound
      | _ => exact kept (alike_of_eq (by simp only [unify, solveWith, same, different, if_false]))
    | concrete vars =>
      cases other with
      | concrete vars' =>
        simp only [unify, solveWith, same, different, if_false]
        exact .error rfl
      | quantified name =>
        exact kept (alike_of_eq (by simp only [unify, solveWith, same, different, if_false]))
      | union sets => exact kept (union_exchanged true canonical' vars)
    | union sets =>
      cases other with
      | concrete vars => exact kept (union_exchanged false canonical vars)
      | quantified name =>
        exact kept (alike_of_eq (by simp only [unify, solveWith, same, different, if_false]))
      | union sets' =>
        simp only [unify, solveWith, same, different, if_false]
        exact .error rfl

theorem solveUnder_exchanged (separate : V.Separate) (known : Variants V σ σ')
    (canonical : set.Canonical) (canonical' : other.Canonical)
    (within : (Term.variables set).Over V) (within' : (Term.variables other).Over V) :
    Alike (Variants V) (solveUnder unify σ set other) (solveUnder unify σ' other set) := by
  obtain ⟨π, permuted⟩ := known
  obtain ⟨left, run, renamed, written, inside, spelled⟩ :=
    permuted.applyToVariables separate canonical within
  obtain ⟨right, run', renamed', written', inside', spelled'⟩ :=
    permuted.applyToVariables separate canonical' within'
  rw [solveUnder, run, run', solveUnder, renamed, renamed']
  exact permuted.learn separate (unify_exchanged separate written written' inside inside')
    (unify_alike (fun _ _ _ _ _ _ same => π.injective same) written' written inside' inside)
    fun _ => unify_over spelled' spelled

end VariableSet

namespace Effect

theorem footprint_exchanged (separate : V.Separate) {expected actual : Footprint}
    (canonical : (concrete expected).Canonical) (canonical' : (concrete actual).Canonical)
    (within : (concrete expected).Over V) (within' : (concrete actual).Over V) :
    Alike (Variants V) (expected.unify actual) (actual.unify expected) := by
  apply footprints_alike (.refl everySet_empty over_empty) (fun left right => (right, left))
    fun _ => rfl
  intro component known known' related
  exact VariableSet.solveUnder_exchanged separate related (everySet_concrete.mp canonical component)
    (everySet_concrete.mp canonical' component)
    (fun kind name used => within kind name (uses_concrete.mpr ⟨component, used⟩))
    fun kind name used => within' kind name (uses_concrete.mpr ⟨component, used⟩)

theorem bind_name {name other : String} (different : name ≠ other) :
    bind name (quantified other) = .ok (.single name (Kind.effect.quantified other)) := by
  refine if_neg fun inside => ?_
  obtain ⟨kind, used⟩ := mem_names.mp inside
  exact different (uses_quantified.mp used).2

theorem arrowPieces_exchanged (params params' : List Effect) (result result' : Effect) :
    arrowPieces params' params result' result =
      (arrowPieces params params' result result').map fun piece =>
        (piece.1, piece.2.2, piece.2.1) := by
  rw [arrowPieces, arrowPieces, List.map_append]
  congr 1
  exact List.ext_getElem (by simp [Nat.min_comm]) (by simp)

variable {effect other : Effect}

theorem solveUnder_exchanged (separate : V.Separate) (known : Variants V σ σ')
    (canonical : effect.Canonical) (canonical' : other.Canonical) (within : effect.Over V)
    (within' : other.Over V)
    (called : ∀ left right, σ.apply effect = .ok left → σ.apply other = .ok right →
      left.Canonical → right.Canonical → left.Over V → right.Over V →
      Alike (Variants V) (left.unify right) (right.unify left)) :
    Alike (Variants V) (solveUnder unify σ effect other) (solveUnder unify σ' other effect) := by
  obtain ⟨π, permuted⟩ := known
  obtain ⟨left, run, renamed, written, inside, spelled⟩ :=
    permuted.apply separate canonical within
  obtain ⟨right, run', renamed', written', inside', spelled'⟩ :=
    permuted.apply separate canonical' within'
  rw [solveUnder, run, run', solveUnder, renamed, renamed']
  exact permuted.learn separate (called left right run run' written written' inside inside')
    (unify_alike (fun _ _ _ _ _ _ same => π.injective same) written' written inside' inside)
    fun _ => unify_over spelled' spelled

theorem unify_exchanged (separate : V.Separate) (canonical : effect.Canonical)
    (canonical' : other.Canonical) (within : effect.Over V) (within' : other.Over V) :
    Alike (Variants V) (effect.unify other) (other.unify effect) := by
  have named : ∀ {name}, (quantified name).Over V → V .effect name :=
    fun spelled => spelled _ _ (uses_quantified.mpr ⟨rfl, rfl⟩)
  -- the calls of the first run carry the induction: those of the second one are renamed copies
  induction effect, other using effects_induction with
  | step effect other ih =>
    have kept : effect.unify other = other.unify effect →
        Alike (Variants V) (effect.unify other) (other.unify effect) := by
      intro both
      refine (alike_of_eq both).imp fun σ _ run _ same => ?_
      subst same
      exact .refl (unify_canonical canonical canonical' run).1 (unify_over within within' run)
    rw [unify_eq_solveLayer, unify_eq_solveLayer] at kept ⊢
    cases effect with
    | quantified name =>
      cases other with
      | quantified name' =>
        by_cases same : name = name'
        · subst same
          exact kept rfl
        · have different : quantified name' ≠ quantified name := fun equal =>
            same (Effect.quantified.inj equal).symm
          simp only [solveLayer, if_neg different, if_neg different.symm, bind_name same,
            bind_name (Ne.symm same)]
          exact .ok (.exchange separate (named within) (named within'))
      | _ => exact kept (by simp [solveLayer])
    | concrete expected =>
      cases other with
      | concrete actual => exact footprint_exchanged separate canonical canonical' within within'
      | quantified name => exact kept (by simp [solveLayer])
      | arrow params result => exact .error rfl
    | arrow params result =>
      cases other with
      | concrete actual => exact .error rfl
      | quantified name => exact kept (by simp [solveLayer])
      | arrow params' result' =>
        simp only [solveLayer, eq_comm (a := params'.length)]
        split
        · rename_i arity
          rw [arrowPieces_exchanged params params']
          apply arrows_alike (.refl everySet_empty over_empty) (fun left right => (right, left)) arity
            canonical canonical' within within'
          intro left right known known' written written' spelled spelled' related calls
          apply solveUnder_exchanged separate related written written' spelled spelled'
          intro called called' run run' canonical canonical' within within'
          exact ih called called' (calls called called' run run') canonical canonical' within within'
        · exact .error rfl

variable {A B : Effect}

/-- Where no name has both kinds, the sides can be made equal in both orders or in none, and then the
reason is the same. What becomes of a side is the same up to a bijective renaming. -/
theorem unification_is_symmetric (canonical : A.Canonical) (canonical' : B.Canonical)
    (separate : (Vocabulary.usedIn [A, B]).Separate) :
    ((∃ σ, A.unify B = .ok σ) ↔ ∃ σ', B.unify A = .ok σ') ∧
    (∀ error error', A.unify B = .error error → B.unify A = .error error' →
      error'.rootCause.reason = error.rootCause.reason) ∧
    ∀ σ σ', A.unify B = .ok σ → B.unify A = .ok σ' →
      ∃ C, σ.apply A = .ok C ∧ ∃ ρ : String → String, Function.Bijective ρ ∧
        σ'.apply A = .ok (C.rename ρ) := by
  have within : A.Over (Vocabulary.usedIn [A, B]) := fun _ _ used => ⟨A, by simp, used⟩
  have within' : B.Over (Vocabulary.usedIn [A, B]) := fun _ _ used => ⟨B, by simp, used⟩
  have alike := unify_exchanged separate canonical canonical' within within'
  refine ⟨alike.exists_iff, fun _ _ => rootCause_alike alike, fun σ σ' run run' => ?_⟩
  obtain ⟨π, permuted⟩ := alike.related run run'
  obtain ⟨C, applied, applied', _⟩ := permuted.apply separate canonical within
  exact ⟨C, applied, π, π.bijective, applied'⟩

/-- The runs bind `p` to `r` and `r` to `p`. In the union of `q` with the name that is left, the
names then stand in another order. -/
theorem symmetric_on_names_of_a_union :
    let A : Effect := .arrow [.quantified "e", .concrete ⟨.quantified "p", .empty, .empty⟩]
      (.concrete ⟨.union [.quantified "p", .quantified "q"], .empty, .empty⟩)
    let B : Effect := .arrow [.quantified "f", .concrete ⟨.quantified "r", .empty, .empty⟩]
      (.concrete ⟨.quantified "s", .empty, .empty⟩)
    let σ : Substitution := ⟨[⟨"e", .effect (.quantified "f")⟩, ⟨"p", .variables (.quantified "r")⟩,
      ⟨"s", .variables (.union [.quantified "q", .quantified "r"])⟩]⟩
    let σ' : Substitution := ⟨[⟨"f", .effect (.quantified "e")⟩, ⟨"r", .variables (.quantified "p")⟩,
      ⟨"s", .variables (.union [.quantified "p", .quantified "q"])⟩]⟩
    A.Canonical ∧ B.Canonical ∧ (Vocabulary.usedIn [A, B]).Separate ∧ A.unify B = .ok σ ∧
      B.unify A = .ok σ' ∧ σ'.apply A = .ok A ∧
      ∃ C, σ.apply A = .ok C ∧ ∃ ρ : String → String, Function.Bijective ρ ∧
        σ'.apply A = .ok (C.rename ρ) := by
  intro A B σ σ'
  have canonical : A.Canonical := by decide
  have canonical' : B.Canonical := by decide
  have separate : (Vocabulary.usedIn [A, B]).Separate := by decide
  have run : A.unify B = .ok σ := by decide
  have run' : B.unify A = .ok σ' := by decide
  exact ⟨canonical, canonical', separate, run, run', by decide,
    (unification_is_symmetric canonical canonical' separate).2.2 σ σ' run run'⟩

end Effect

end SpecEffects
