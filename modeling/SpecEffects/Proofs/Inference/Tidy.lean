import SpecEffects.Proofs.Inference.Copies
import SpecEffects.Proofs.Inference.StateSteps

/-!
What holds of every state of inference, whatever has come before: effects and what is learned are
canonical and use no names but those that have been made up so far. Substitution never clashes then,
so copies can always be made and solutions always be put to use.
-/
namespace SpecEffects

theorem exists_mapEntries {κ ν μ ε : Type} {f : ν → Except ε μ} {entries : List (κ × ν)}
    (each : ∀ entry ∈ entries, ∃ w, f entry.2 = .ok w) :
    ∃ done, mapEntries f entries = .ok done := by
  induction entries with
  | nil => exact ⟨[], rfl⟩
  | cons entry rest ih =>
    obtain ⟨w, head⟩ := each entry List.mem_cons_self
    obtain ⟨done, tail⟩ := ih fun other member => each other (List.mem_cons_of_mem _ member)
    exact ⟨(entry.1, w) :: done, by simp only [mapEntries, head, tail]⟩

namespace SortedMap

variable {κ ν μ ε : Type} [Ord κ] [DecidableEq κ] [Std.LawfulEqOrd κ]

theorem get?_of_mem {m : SortedMap κ ν} {entry : κ × ν} (member : entry ∈ m.entries) :
    m.get? entry.1 = some entry.2 := by
  obtain ⟨entries, ascending⟩ := m
  simp only [get?] at member ⊢
  induction entries with
  | nil => cases member
  | cons first rest ih =>
    obtain ⟨before, ascending⟩ := List.pairwise_cons.mp ascending
    rcases List.mem_cons.mp member with rfl | later
    · simp
    · have different : first.1 ≠ entry.1 := by
        intro same
        have smaller := before entry.1 (List.mem_map_of_mem later)
        simp [same] at smaller
      rw [List.find?_cons_of_neg (by simpa using different)]
      exact ih ascending later

theorem exists_mapValues {m : SortedMap κ ν} {f : ν → Except ε μ}
    (each : ∀ k v, m.get? k = some v → ∃ w, f v = .ok w) : ∃ m', m.mapValues f = .ok m' := by
  obtain ⟨done, run⟩ := exists_mapEntries fun entry member =>
    each entry.1 entry.2 (get?_of_mem member)
  unfold mapValues
  split
  · rename_i failed
    cases run.symm.trans failed
  · exact ⟨_, rfl⟩

end SortedMap

namespace Inference

open Substitution

/-- Effects and everything learned are canonical and over the names made so far, with these
placeholders. -/
structure Tidy (places : String → Prop) (state : State) : Prop where
  canonical : ∀ {id effect}, state.effects.get? id = some effect → effect.Canonical
  spelled : ∀ {id effect}, state.effects.get? id = some effect →
    effect.Over (made .empty state.fresh places)
  values : state.running.Canonical
  running : state.running.Over (made .empty state.fresh places)

structure Solved (state : State) (learned : Substitution) (result effect : Effect) (after : State) :
    Prop where
  running : learned.compose state.running = .ok after.running
  effects : state.effects.mapValues learned.apply = .ok after.effects
  result : learned.apply result = .ok effect
  errors : after.errors = state.errors
  fresh : after.fresh = state.fresh

theorem solve_of_error {state : State} {signature used result : Effect} {e : UnificationError}
    (failed : signature.unify used = .error e) :
    state.solve signature used result = .error e := by
  simp only [State.solve, failed]
  rfl

variable {places : String → Prop}

theorem made_separate (marked : ∀ name, places name → isPlaceholder name = true)
    (lo hi : FreshNames) : (made lo hi places).Separate :=
  fun name first second =>
    possible_separate name (possible_of_made marked first) (possible_of_made marked second)

theorem separate_of_over {effect : Effect} {V : Vocabulary} (separate : V.Separate)
    (spelled : effect.Over V) : (Vocabulary.usedIn [effect]).Separate := by
  rintro name ⟨_, member, used⟩ ⟨_, member', used'⟩
  cases List.mem_singleton.mp member
  cases List.mem_singleton.mp member'
  exact separate name (spelled .effect name used) (spelled .variables name used')

theorem over_mono {V W : Vocabulary} (more : ∀ kind name, V kind name → W kind name)
    {σ : Substitution} (spelled : σ.Over V) : σ.Over W :=
  fun binding member => ⟨more _ _ (spelled binding member).1,
    fun kind name used => more kind name ((spelled binding member).2 kind name used)⟩

namespace Tidy

variable {state after : State}

theorem start (places : String → Prop) : Tidy places .start :=
  ⟨nofun, nofun, everySet_empty, over_empty⟩

theorem congr (tidy : Tidy places state) (effects : after.effects = state.effects)
    (running : after.running = state.running) (fresh : after.fresh = state.fresh) :
    Tidy places after := by
  obtain ⟨afterEffects, errors, afterRunning, afterFresh⟩ := after
  subst effects running fresh
  exact ⟨tidy.canonical, tidy.spelled, tidy.values, tidy.running⟩

theorem mono (tidy : Tidy places state) {others : String → Prop}
    (more : ∀ name, places name → others name) : Tidy others state :=
  ⟨tidy.canonical,
    fun found kind name used => made_mono (FreshNames.le_refl _) (FreshNames.le_refl _) more
      (tidy.spelled found kind name used), tidy.values,
    over_mono (fun _ _ => made_mono (FreshNames.le_refl _) (FreshNames.le_refl _) more) tidy.running⟩

theorem later (tidy : Tidy places state) {fresh : FreshNames} (order : state.fresh ≤ fresh) :
    Tidy places { state with fresh } :=
  ⟨tidy.canonical,
    fun found kind name used => made_mono (FreshNames.le_refl _) order (fun _ => id)
      (tidy.spelled found kind name used), tidy.values,
    over_mono (fun _ _ => made_mono (FreshNames.le_refl _) order fun _ => id) tidy.running⟩

theorem record (tidy : Tidy places state) (id : NodeId) {effect : Effect}
    (canonical : effect.Canonical) (spelled : effect.Over (made .empty state.fresh places)) :
    Tidy places (state.record id effect) := by
  refine ⟨?_, ?_, tidy.values, tidy.running⟩
  · intro other found recorded
    rcases eq_or_found_of_record recorded with rfl | recorded
    · exact canonical
    · exact tidy.canonical recorded
  · intro other found recorded
    rcases eq_or_found_of_record recorded with rfl | recorded
    · exact spelled
    · exact tidy.spelled recorded

theorem recordError (tidy : Tidy places state) (id : NodeId) (error : InferenceError) :
    Tidy places (state.recordError id error) := by
  unfold State.recordError
  split
  · exact tidy
  · exact tidy.congr rfl rfl rfl

section Marked

variable (marked : ∀ name, places name → isPlaceholder name = true)

include marked

theorem possible (tidy : Tidy places state) : state.running.Over possible :=
  over_mono (fun _ _ => possible_of_made marked) tidy.running

theorem separate (tidy : Tidy places state) {id : NodeId} {effect : Effect}
    (recorded : state.effects.get? id = some effect) : (Vocabulary.usedIn [effect]).Separate :=
  separate_of_over (made_separate marked _ _) (tidy.spelled recorded)

omit marked in
theorem placed (tidy : Tidy places state) {id : NodeId} {effect : Effect}
    (recorded : state.effects.get? id = some effect) {name : String}
    (used : effect.Uses .effect name) (held : isPlaceholder name = true) : places name := by
  rcases tidy.spelled recorded .effect name used with ⟨n, _, _, rfl⟩ | ⟨_, placed⟩
  · rw [not_isPlaceholder_numbered] at held
    cases held
  · exact placed

theorem instantiate (tidy : Tidy places state) {effect : Effect} (canonical : effect.Canonical)
    (separate : (Vocabulary.usedIn [effect]).Separate)
    (held : ∀ name, effect.Uses .effect name → isPlaceholder name = true → places name) :
    ∃ after, Copied state effect after ∧ state.fresh ≤ after.fresh ∧ Tidy places after ∧
      (effect.rename (freshName effect state.fresh)).Over (made .empty after.fresh places) := by
  obtain ⟨after, copied⟩ := instantiate_copied canonical separate tidy.values (tidy.possible marked)
  have order : state.fresh ≤ after.fresh := by
    rw [copied.fresh]
    exact le_variableBindings effect state.fresh
  have news : (learnedNames effect state.fresh).Over (made .empty after.fresh places) := by
    intro binding member
    obtain ⟨used, marked, n, _, below, value⟩ := mem_learnedNames member
    rw [value]
    refine ⟨Or.inr ⟨rfl, held _ used marked⟩, fun kind name inside => ?_⟩
    obtain ⟨rfl, rfl⟩ := Effect.uses_quantified.mp inside
    exact Or.inl ⟨n, Nat.zero_le _, copied.fresh ▸ below, rfl⟩
  have canonicals : (learnedNames effect state.fresh).Canonical := by
    intro binding member
    obtain ⟨_, _, n, _, _, value⟩ := mem_learnedNames member
    rw [value]
    exact .quantified _
  have moved := tidy.later order
  refine ⟨after, copied, order, ⟨?_, ?_, ?_, ?_⟩, ?_⟩
  · rw [copied.effects]
    exact tidy.canonical
  · rw [copied.effects]
    exact moved.spelled
  · exact canonical_compose canonicals tidy.values copied.running
  · exact over_compose news moved.running copied.running
  · intro kind name used
    obtain ⟨old, before, rfl⟩ := Effect.uses_rename.mp used
    obtain ⟨n, _, below, eq⟩ := freshName_named state.fresh separate before
    exact Or.inl ⟨n, Nat.zero_le _, copied.fresh ▸ below, eq⟩

theorem solve (tidy : Tidy places state) {signature used result : Effect} {learned : Substitution}
    (canonical : signature.Canonical) (canonical' : used.Canonical)
    (spelled : signature.Over (made .empty state.fresh places))
    (spelled' : used.Over (made .empty state.fresh places))
    (bounded : result.Over (made .empty state.fresh places))
    (unified : signature.unify used = .ok learned) :
    ∃ effect after, state.solve signature used result = .ok (effect, after) ∧
      Solved state learned result effect after ∧ Tidy places after := by
  have separate := made_separate marked .empty state.fresh
  have values := (Effect.unify_canonical canonical canonical' unified).1
  have within := Effect.unify_over spelled spelled' unified
  obtain ⟨running, added⟩ := exists_compose fun binding member =>
    exists_applyToTerm_of_over within separate (tidy.running.values binding member)
  have applies : ∀ {effect : Effect}, effect.Over (made .empty state.fresh places) →
      ∃ after, learned.apply effect = .ok after := fun spelled =>
    exists_apply.mpr fun kind name used => allows_of_over within separate (spelled kind name used)
  obtain ⟨effects, changed⟩ := SortedMap.exists_mapValues fun id effect recorded =>
    applies (tidy.spelled recorded)
  obtain ⟨effect, applied⟩ := applies bounded
  refine ⟨effect, { state with running, effects }, ?_, ⟨added, changed, applied, rfl, rfl⟩, ?_⟩
  · simp only [State.solve, bind_eq_ok, mapError_eq_ok, pure_eq_ok]
    exact ⟨learned, unified, running, added, effects, changed, effect, applied, rfl⟩
  · refine ⟨?_, ?_, canonical_compose values tidy.values added, over_compose within tidy.running added⟩
    · intro id found recorded
      obtain ⟨before, earlier, applied⟩ := SortedMap.exists_of_get?_mapValues changed recorded
      exact everySet_apply values (fun _ => canonical_applyToVariables values)
        (tidy.canonical earlier) applied
    · intro id found recorded
      obtain ⟨before, earlier, applied⟩ := SortedMap.exists_of_get?_mapValues changed recorded
      exact over_apply within.values (tidy.spelled earlier) applied

end Marked

end Tidy

theorem resultName_eq (state : State) :
    resultName state = numbered .effect (state.fresh.count effectStem) := rfl

theorem count_withResult (state : State) (other : String) : (withResult state).fresh.count other =
    state.fresh.count other + if effectStem = other then 1 else 0 := by
  show (state.fresh.next effectStem).2.count other = _
  rw [FreshNames.count_next]
  split
  · rename_i same
    subst same
    rfl
  · rfl

theorem made_resultName (state : State) (places : String → Prop) :
    made .empty (withResult state).fresh places .effect (resultName state) := by
  refine Or.inl ⟨_, Nat.zero_le _, ?_, resultName_eq state⟩
  show _ < (withResult state).fresh.count effectStem
  rw [count_withResult, if_pos rfl]
  omega

theorem applySignature_of_copied {state opened : State} {general : Effect}
    (copied : Copied state general opened) (expr : Expr) (args : List Effect) :
    state.applySignature expr args general =
      match (withResult opened).solve (general.rename (freshName general state.fresh))
        (usedAs opened args) (.quantified (resultName opened)) with
      | .ok (effect, solved) => solved.record expr.id effect
      | .error cause => (withResult opened).recordError expr.id (.application expr cause) := by
  unfold State.applySignature
  rw [copied.run]
  rfl

inductive Outcome (places : String → Prop) (opened : State) (expr : Expr) (args : List Effect)
    (copy : Effect) : State → Prop
  | failed {cause : UnificationError} (clash : copy.unify (usedAs opened args) = .error cause) :
    Outcome places opened expr args copy
      ((withResult opened).recordError expr.id (.application expr cause))
  | solved {learned : Substitution} {effect : Effect} {last : State}
    (unified : copy.unify (usedAs opened args) = .ok learned)
    (uses : Solved (withResult opened) learned (.quantified (resultName opened)) effect last)
    (tidy : Tidy places last) :
    Outcome places opened expr args copy (last.record expr.id effect)

namespace Tidy

variable {state opened : State}

theorem withResult (tidy : Tidy places state) : Tidy places (withResult state) :=
  tidy.later (state.fresh.le_next effectStem)

theorem usedAs (tidy : Tidy places opened) {args : List Effect}
    (each : ∀ arg ∈ args, ∃ id, opened.effects.get? id = some arg) :
    (usedAs opened args).Canonical ∧
      (usedAs opened args).Over (made .empty (Inference.withResult opened).fresh places) := by
  constructor
  · refine .arrow (fun arg member => ?_) (.quantified _)
    obtain ⟨id, recorded⟩ := each arg member
    exact tidy.canonical recorded
  · intro kind name used
    rcases Effect.uses_arrow.mp used with ⟨arg, member, used⟩ | used
    · obtain ⟨id, recorded⟩ := each arg member
      exact tidy.withResult.spelled recorded kind name used
    · obtain ⟨rfl, rfl⟩ := Effect.uses_quantified.mp used
      exact made_resultName opened places

theorem applySignature (marked : ∀ name, places name → isPlaceholder name = true)
    (tidy : Tidy places opened) {general : Effect} (copied : Copied state general opened)
    (within : (general.rename (freshName general state.fresh)).Over
      (made .empty opened.fresh places))
    {args : List Effect} (each : ∀ arg ∈ args, ∃ id, opened.effects.get? id = some arg)
    (expr : Expr) :
    Tidy places (state.applySignature expr args general) ∧
      Outcome places opened expr args (general.rename (freshName general state.fresh))
        (state.applySignature expr args general) := by
  obtain ⟨canonical, spelled⟩ := tidy.usedAs each
  have moved := tidy.withResult
  have result : (Effect.quantified (resultName opened)).Over
      (made .empty (Inference.withResult opened).fresh places) := by
    intro kind name used
    obtain ⟨rfl, rfl⟩ := Effect.uses_quantified.mp used
    exact made_resultName opened places
  rw [applySignature_of_copied copied]
  cases unified : (general.rename (freshName general state.fresh)).unify
      (Inference.usedAs opened args) with
  | error cause =>
    rw [solve_of_error unified]
    exact ⟨moved.recordError _ _, .failed unified⟩
  | ok learned =>
    obtain ⟨effect, last, run, uses, done⟩ := moved.solve marked (Effect.canonical_rename _ _)
      canonical (fun kind name used => made_mono (FreshNames.le_refl _) (opened.fresh.le_next _)
        (fun _ => id) (within kind name used)) spelled result unified
    rw [run]
    refine ⟨done.record _ ?_ ?_, .solved unified uses done⟩
    · have values := (Effect.unify_canonical (Effect.canonical_rename _ _) canonical unified).1
      exact everySet_apply values (fun _ => canonical_applyToVariables values) (.quantified _)
        uses.result
    · have bounded := Effect.unify_over (fun kind name used => made_mono (FreshNames.le_refl _)
        (opened.fresh.le_next _) (fun _ => id) (within kind name used)) spelled unified
      rw [uses.fresh]
      exact over_apply bounded.values result uses.result

end Tidy

end Inference

end SpecEffects
