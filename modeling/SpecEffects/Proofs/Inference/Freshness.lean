import SpecEffects.Proofs.Unification.SolvedForm
import SpecEffects.Proofs.Inference.Expressions
import SpecEffects.Proofs.Inference.ModuleNames
import SpecEffects.Proofs.Inference.Invariants

/-!
Numbered names stay fresh and solved. The next number of either kind is used nowhere. Once something
has been learned about a numbered name, the name is gone from all effects and from all that has been
learned. The names in signatures play no part, since they are replaced by numbered ones before they
are used.
-/
namespace SpecEffects.Inference

open Substitution

def Taken (fresh : FreshNames) (name : String) : Prop :=
  (∃ kind n, n < fresh.count (stem kind) ∧ name = numbered kind n) ∨ isPlaceholder name = true

/-- The names that may still be used. Nothing has been learned about those that are numbered; a
placeholder may stay in effects after something has been learned about it. -/
def current (state : State) : Vocabulary := fun _ name =>
  Taken state.fresh name ∧ ∀ kind n, name = numbered kind n → state.running.get? name = none

structure UpToDate (state : State) : Prop where
  effects : ∀ {id effect}, state.effects.get? id = some effect → effect.Over (current state)
  keys : ∀ binding ∈ state.running.bindings, Taken state.fresh binding.name
  values : state.running.ValuesOver (current state)

variable {fresh later : FreshNames} {state opened after : State} {kind : Kind} {name : String}
  {n : Nat}

theorem Taken.mono (taken : Taken fresh name) (order : fresh ≤ later) : Taken later name := by
  rcases taken with ⟨kind, n, below, eq⟩ | marked
  · exact Or.inl ⟨kind, n, Nat.lt_of_lt_of_le below (order _), eq⟩
  · exact Or.inr marked

theorem not_taken_of_le (above : fresh.count (stem kind) ≤ n) :
    ¬ Taken fresh (numbered kind n) := by
  rintro (⟨kind', n', below, same⟩ | marked)
  · obtain ⟨rfl, rfl⟩ := numbered_injective same
    omega
  · rw [not_isPlaceholder_numbered] at marked
    cases marked

theorem current_mono (order : state.fresh ≤ after.fresh)
    (kept : ∀ kind n, state.running.get? (numbered kind n) = none →
      after.running.get? (numbered kind n) = none)
    (now : current state kind name) : current after kind name := by
  refine ⟨now.1.mono order, fun kind' n same => ?_⟩
  have unbound := now.2 kind' n same
  subst same
  exact kept kind' n unbound

theorem current_placeholder (state : State) (kind : Kind) (marked : isPlaceholder name = true) :
    current state kind name := by
  refine ⟨Or.inr marked, fun kind n same => ?_⟩
  rw [same, not_isPlaceholder_numbered] at marked
  cases marked

namespace UpToDate

theorem unbound (upToDate : UpToDate state) (above : state.fresh.count (stem kind) ≤ n) :
    state.running.get? (numbered kind n) = none := by
  cases found : state.running.get? (numbered kind n) with
  | none => rfl
  | some value => exact absurd (upToDate.keys _ (mem_of_get? found)) (not_taken_of_le above)

theorem start : UpToDate .start := by
  refine ⟨fun {id effect} found => ?_, fun binding member => ?_, fun binding member => ?_⟩
  · cases found
  · cases member
  · cases member

theorem congr (upToDate : UpToDate state) (effects : after.effects = state.effects)
    (running : after.running = state.running) (order : state.fresh ≤ after.fresh) :
    UpToDate after := by
  have now : ∀ {kind name}, current state kind name → current after kind name :=
    current_mono order fun kind n unbound => running ▸ unbound
  refine ⟨fun {id effect} found kind name used => ?_, fun binding member => ?_,
    fun binding member kind name used => ?_⟩
  · rw [effects] at found
    exact now (upToDate.effects found kind name used)
  · rw [running] at member
    exact (upToDate.keys binding member).mono order
  · rw [running] at member
    exact now (upToDate.values binding member kind name used)

theorem record (upToDate : UpToDate state) {effect : Effect} (fits : effect.Over (current state))
    (id : NodeId) : UpToDate (state.record id effect) := by
  refine ⟨fun {other found} recorded => ?_, upToDate.keys, upToDate.values⟩
  rcases eq_or_found_of_record recorded with rfl | recorded
  · exact fits
  · exact upToDate.effects recorded

theorem instantiate (upToDate : UpToDate state) {general : Effect}
    {result : Except KindClash Effect} (run : state.instantiate general = (result, opened)) :
    UpToDate opened ∧ ∀ copy, result = .ok copy → copy.Over (current opened) := by
  have inst := instantiated run
  have kept : ∀ kind n, state.running.get? (numbered kind n) = none →
      opened.running.get? (numbered kind n) = none := by
    intro kind n unbound
    rcases inst.running with same | ⟨learned, _, places, added⟩
    · rw [same]
      exact unbound
    · rw [get?_compose_unbound added unbound]
      cases found : learned.get? (numbered kind n) with
      | none => rfl
      | some value =>
        have marked := (places _ (mem_of_get? found)).2
        rw [not_isPlaceholder_numbered] at marked
        cases marked
  have old : ∀ {kind name}, current state kind name → current opened kind name :=
    current_mono inst.fresh kept
  -- a number that was free before the copy is no key afterwards, so it may be used
  have new : ∀ {kind name}, made state.fresh opened.fresh (fun _ => False) kind name →
      current opened kind name := by
    rintro kind name (⟨n, above, below, rfl⟩ | ⟨_, absurd⟩)
    · exact ⟨Or.inl ⟨kind, n, below, rfl⟩, fun _ _ _ => kept kind n (upToDate.unbound above)⟩
    · exact absurd.elim
  refine ⟨⟨fun {id effect} found kind name used => ?_, ?_, ?_⟩, fun copy same kind name used => ?_⟩
  · rw [inst.effects] at found
    exact old (upToDate.effects found kind name used)
  · rcases inst.running with same | ⟨learned, _, places, added⟩
    · rw [same]
      exact fun binding member => (upToDate.keys binding member).mono inst.fresh
    · intro binding member
      rcases mem_compose added member with ⟨before, present, same, _⟩ | ⟨present, _⟩
      · rw [same]
        exact (upToDate.keys before present).mono inst.fresh
      · exact Or.inr (places binding present).2
  · rcases inst.running with same | ⟨learned, renames, _, added⟩
    · rw [same]
      exact fun binding member kind name used => old (upToDate.values binding member kind name used)
    · have values : learned.ValuesOver (current opened) := fun binding member kind name used =>
        new (renames.within _ member kind name used)
      intro binding member
      rcases mem_compose added member with ⟨before, present, _, value⟩ | ⟨present, _⟩
      · exact over_applyToTerm values
          (fun kind name used => old (upToDate.values before present kind name used)) value
      · exact values binding present
  · obtain ⟨ρ, renames, covers, applied⟩ := inst.copy copy same
    exact new (renames.copy_within _ covers applied kind name used)

/-- What is solved is gone from everything that the solution is put into. -/
theorem solve (upToDate : UpToDate state) {signature used result effect : Effect}
    (fits : signature.Over (current state)) (asked : used.Over (current state))
    (named : result.Over (current state))
    (run : state.solve signature used result = .ok (effect, after)) :
    UpToDate after ∧ effect.Over (current after) := by
  obtain ⟨learned, running, effects, solved, added, changed, applied, rfl⟩ := solve_eq_ok run
  have bounded := Effect.unify_over fits asked solved
  have eliminates := Effect.unify_eliminates solved
  have kept : ∀ {kind name}, current state kind name → learned.get? name = none →
      current { state with running, effects } kind name := by
    intro kind name before gone
    refine ⟨before.1, fun kind' n same => ?_⟩
    rw [← gone]
    exact get?_compose_unbound added (before.2 kind' n same)
  have put : ∀ {term result : Term}, term.Over (current state) →
      learned.applyToTerm term = .ok result →
      result.Over (current { state with running, effects }) :=
    fun within done kind name used =>
      kept (over_applyToTerm bounded.values within done kind name used)
        (eliminates.applyToTerm done used)
  refine ⟨⟨fun {id found} recorded => ?_, fun binding member => ?_, fun binding member => ?_⟩, ?_⟩
  · obtain ⟨before, earlier, done⟩ := SortedMap.exists_of_get?_mapValues changed recorded
    exact @put (.effect before) (.effect found) (upToDate.effects earlier)
      (applyToTerm_effect.mpr ⟨found, done, rfl⟩)
  · rcases mem_compose added member with ⟨before, present, same, _⟩ | ⟨present, _⟩
    · rw [same]
      exact upToDate.keys before present
    · exact (bounded binding present).1.1
  · rcases mem_compose added member with ⟨before, present, _, value⟩ | ⟨present, _⟩
    · exact put (upToDate.values before present) value
    · exact fun kind name used => kept ((bounded binding present).2 kind name used)
        (eliminates binding present kind name used)
  · exact @put (.effect result) (.effect effect) named
      (applyToTerm_effect.mpr ⟨effect, applied, rfl⟩)

theorem over_resultName (upToDate : UpToDate opened) :
    (Effect.quantified (resultName opened)).Over (current (withResult opened)) := by
  intro kind name used
  obtain ⟨rfl, rfl⟩ := Effect.uses_quantified.mp used
  refine ⟨?_, fun _ _ _ => ?_⟩
  · refine Or.inl ⟨.effect, opened.fresh.count effectStem, ?_, resultName_eq opened⟩
    show _ < (withResult opened).fresh.count effectStem
    rw [count_withResult, if_pos rfl]
    omega
  · rw [resultName_eq]
    exact upToDate.unbound (Nat.le_refl _)

theorem solveResult (upToDate : UpToDate opened) {copy effect : Effect} {inputs : List Effect}
    (fits : copy.Over (current opened)) (each : ∀ input ∈ inputs, input.Over (current opened))
    (run : (withResult opened).solve copy (usedAs opened inputs)
      (.quantified (resultName opened)) = .ok (effect, after)) :
    UpToDate after ∧ effect.Over (current after) := by
  have order : opened.fresh ≤ (withResult opened).fresh := opened.fresh.le_next effectStem
  have now : ∀ {kind name}, current opened kind name → current (withResult opened) kind name :=
    current_mono order fun _ _ unbound => unbound
  have named := upToDate.over_resultName
  have asked : (usedAs opened inputs).Over (current (withResult opened)) := by
    intro kind name used
    rcases Effect.uses_arrow.mp used with ⟨input, member, used⟩ | used
    · exact now (each input member kind name used)
    · exact named kind name used
  have begun : UpToDate (withResult opened) := upToDate.congr rfl rfl order
  exact begun.solve (fun kind name used => now (fits kind name used)) asked named run

end UpToDate

def keepsUpToDate (signatures : SignatureTable) :
    Invariant signatures (fun _ => True) fun _ => True where
  Holds := UpToDate
  Fits state effect := effect.Over (current state)
  start := .start
  later upToDate _ order := upToDate.congr rfl rfl order
  failed upToDate id error := upToDate.congr (effects_recordError _ _ _) (running_recordError _ _ _)
    (by rw [fresh_recordError]; exact FreshNames.le_refl _)
  record upToDate _ fits id := upToDate.record fits id
  recorded upToDate _ _ found := upToDate.effects found
  empty state := over_empty_effect _
  reads state name _ := over_reads _ name
  param state name _ lambda := by
    intro kind name used
    obtain ⟨rfl, rfl⟩ := Effect.uses_quantified.mp used
    exact current_placeholder state .effect (isPlaceholder_placeholder _ lambda)
  learned upToDate _ _ _ _ run := by
    refine over_apply upToDate.values (fun kind name used => ?_) run
    obtain ⟨rfl, rfl⟩ := Effect.uses_quantified.mp used
    exact current_placeholder _ .effect (isPlaceholder_placeholder _ _)
  arrow each fits kind name used := by
    rcases Effect.uses_arrow.mp used with ⟨input, member, used⟩ | used
    · exact each input member kind name used
    · exact fits kind name used
  copied upToDate _ _ _ run := upToDate.instantiate run
  solved upToDate _ _ _ fits each run := upToDate.solveResult fits each run

def State.Mentions (state : State) (name : String) : Prop :=
  (∃ id effect kind, state.effects.get? id = some effect ∧ effect.Uses kind name) ∨
    ∃ binding ∈ state.running.bindings, ∃ kind, binding.value.Uses kind name

theorem UpToDate.current_of_mentions (upToDate : UpToDate state) (mentions : state.Mentions name) :
    ∃ kind, current state kind name := by
  rcases mentions with ⟨id, effect, kind, found, used⟩ | ⟨binding, member, kind, used⟩
  · exact ⟨kind, upToDate.effects found kind name used⟩
  · exact ⟨kind, upToDate.values binding member kind name used⟩

/-- In all states that inference of a module with distinct ids comes by, the last one among them:
nothing mentions the next name of either kind, and nothing has been learned about it. Once something
has been learned about a numbered name, nothing mentions it any more. -/
theorem numbered_names_stay_fresh_and_solved (signatures : SignatureTable) (names : List String)
    {m : Module} (distinct : m.ids.Nodup) :
    let env : Environment := ⟨signatures, m.nameTables names⟩
    (∃ after, inferModule env .start m = .ok after ∧ VisitsModule env m after) ∧
    ∀ state, VisitsModule env m state →
      (∀ kind, ¬ state.Mentions (state.fresh.next (stem kind)).1 ∧
        ∀ binding ∈ state.running.bindings, binding.name ≠ (state.fresh.next (stem kind)).1) ∧
      ∀ binding ∈ state.running.bindings, ∀ kind n, binding.name = numbered kind n →
        ¬ state.Mentions binding.name := by
  intro env
  obtain ⟨after, run⟩ := inferModule_total distinct .start
  refine ⟨⟨after, run, visitsModule_of_run run⟩, fun state visits => ?_⟩
  have upToDate : UpToDate state := (keepsUpToDate signatures).holds_of_visits
    (fun _ _ => trivial) (fun _ _ => trivial) visits
  refine ⟨fun kind => ⟨fun mentions => ?_, fun binding member same => ?_⟩,
    fun binding member kind n same mentions => ?_⟩
  · obtain ⟨_, now⟩ := upToDate.current_of_mentions mentions
    exact not_taken_of_le (Nat.le_refl _) now.1
  · have taken := upToDate.keys binding member
    rw [same] at taken
    exact not_taken_of_le (Nat.le_refl _) taken
  · obtain ⟨_, now⟩ := upToDate.current_of_mentions mentions
    obtain ⟨value, bound⟩ := get?_isSome_of_mem member
    exact Option.some_ne_none value (bound.symm.trans (now.2 kind n same))

/-- A signature is written with numbered names. Inference makes up one of them itself and learns
about it, and does not get as far as the other. -/
theorem fresh_names_beside_numbered_signature :
    let signatures : SignatureTable := .ofList
      [("b", .fixed (.arrow [.quantified "_e0", .concrete ⟨.quantified "_v3", .empty, .empty⟩]
        (.quantified "_e0")))]
    let m : Module := ⟨⟨1⟩, "M",
      [.stateVariable ⟨2⟩ "x",
        .operator ⟨⟨3⟩, "f", .lambda ⟨4⟩ [⟨⟨5⟩, "p"⟩] (.app ⟨6⟩ "b" [.ref ⟨7⟩ "p", .ref ⟨8⟩ "x"])⟩,
        .operator ⟨⟨9⟩, "g", .app ⟨10⟩ "f" [.ref ⟨11⟩ "x"]⟩]⟩
    let env : Environment := ⟨signatures, m.nameTables signatures.keys⟩
    m.ids.Nodup ∧ (∃ state, inferModule env .start m = .ok state ∧ VisitsModule env m state ∧
      state.running.bindings.map Binding.name = ["_e0", "_v0", "e_p_4", "_e2", "_e3"] ∧
      (state.fresh.next (stem .effect)).1 = "_e4" ∧
      (state.fresh.next (stem .variables)).1 = "_v1") ∧
    ∀ state, VisitsModule env m state →
      (∀ kind, ¬ state.Mentions (state.fresh.next (stem kind)).1 ∧
        ∀ binding ∈ state.running.bindings, binding.name ≠ (state.fresh.next (stem kind)).1) ∧
      ∀ binding ∈ state.running.bindings, ∀ kind n, binding.name = numbered kind n →
        ¬ state.Mentions binding.name := by
  intro signatures m env
  have distinct : m.ids.Nodup := by decide
  obtain ⟨⟨state, run, visits⟩, fresh⟩ :=
    numbered_names_stay_fresh_and_solved signatures signatures.keys distinct
  obtain ⟨found, same, names⟩ := exists_ok (fun state : State =>
      (state.running.bindings.map Binding.name, (state.fresh.next (stem .effect)).1,
        (state.fresh.next (stem .variables)).1))
    (show (inferModule env .start m).toOption.map _ =
      some (["_e0", "_v0", "e_p_4", "_e2", "_e3"], "_e4", "_v1") by decide +kernel)
  cases run.symm.trans same
  simp only [Prod.mk.injEq] at names
  obtain ⟨keys, effects, sets⟩ := names
  exact ⟨distinct, ⟨state, run, visits, keys, effects, sets⟩, fresh⟩

end SpecEffects.Inference
