import SpecEffects.Proofs.Inference.Consistency

/-!
What holds all through a stretch of inference. Such a stretch has names of its own: those that are
numbered from its start on, and the placeholders of its lambdas. The effects of its nodes use these
names only. The effects of all other nodes use none of them, and so nothing that is learned in the
stretch changes them.
-/
namespace SpecEffects.Inference

open Substitution

structure Frame where
  start : FreshNames
  /-- Placeholders of lambdas that have been dealt with. -/
  before : String → Prop
  /-- Placeholders of lambdas of the stretch. -/
  here : String → Prop
  /-- The nodes of the stretch. -/
  ids : NodeId → Prop
  marked : ∀ name, before name ∨ here name → isPlaceholder name = true
  disjoint : ∀ name, before name → ¬ here name

namespace Frame

def own (frame : Frame) (now : FreshNames) : Vocabulary := made frame.start now frame.here

def known (frame : Frame) (now : FreshNames) : Vocabulary :=
  made .empty now fun name => frame.before name ∨ frame.here name

/-- What holds of the state, where the placeholders in `foreign` come from signatures. -/
structure Holds (frame : Frame) (foreign : String → Prop) (state : State) : Prop where
  started : frame.start ≤ state.fresh
  canonical : ∀ {id effect}, state.effects.get? id = some effect → effect.Canonical
  inside : ∀ {id effect}, state.effects.get? id = some effect → frame.ids id →
    effect.Over (frame.own state.fresh)
  outside : ∀ {id effect}, state.effects.get? id = some effect → ¬ frame.ids id →
    effect.Over (made .empty frame.start frame.before)
  values : state.running.Canonical
  learned : ∀ {name value}, state.running.get? name = some value →
    Owned frame.start frame.here name → value.Over (frame.own state.fresh)
  keys : ∀ {name value}, state.running.get? name = some value →
    (∃ kind, frame.known state.fresh kind name) ∨ foreign name ∧ isPlaceholder name = true

variable {frame : Frame} {foreign : String → Prop} {state after : State}

theorem own_mono {now later : FreshNames} (order : now ≤ later) {kind : Kind} {name : String}
    (used : frame.own now kind name) : frame.own later kind name :=
  made_mono frame.start.le_refl order (fun _ => id) used

theorem known_mono {now later : FreshNames} (order : now ≤ later) {kind : Kind} {name : String}
    (used : frame.known now kind name) : frame.known later kind name :=
  made_mono (FreshNames.le_refl _) order (fun _ => id) used

theorem own_possible {now : FreshNames} {kind : Kind} {name : String}
    (used : frame.own now kind name) : possible kind name :=
  possible_of_made (fun name placed => frame.marked name (Or.inr placed)) used

theorem own_separate (now : FreshNames) : (frame.own now).Separate := by
  intro name first second
  exact possible_separate name (own_possible first) (own_possible second)

theorem known_of_own {now : FreshNames} {kind : Kind} {name : String}
    (used : frame.own now kind name) : frame.known now kind name :=
  made_mono (FreshNames.empty_le _) now.le_refl (fun _ => Or.inr) used

theorem own_next {now : FreshNames} (order : frame.start ≤ now) :
    frame.own (now.next effectStem).2 .effect (now.next effectStem).1 := by
  have count := now.count_next effectStem effectStem
  rw [if_pos rfl] at count
  have below : now.count effectStem < (now.next effectStem).2.count effectStem := by omega
  exact Or.inl ⟨now.count effectStem, order effectStem, below, rfl⟩

theorem not_own_of_outside {now : FreshNames} {kind other : Kind} {name : String}
    (used : made .empty frame.start frame.before kind name) : ¬ frame.own now other name := by
  intro own
  exact not_owned_of_made (fun name placed => frame.marked name (Or.inl placed))
    (fun name placed => frame.marked name (Or.inr placed)) frame.disjoint used (owned_of_made own)

namespace Holds

theorem known (holds : frame.Holds foreign state) {id : NodeId} {effect : Effect}
    (recorded : state.effects.get? id = some effect) : effect.Over (frame.known state.fresh) := by
  intro kind name used
  by_cases inside : frame.ids id
  · exact known_of_own (holds.inside recorded inside kind name used)
  · exact made_mono (FreshNames.le_refl _) holds.started (fun _ => Or.inl)
      (holds.outside recorded inside kind name used)

theorem congr (holds : frame.Holds foreign state) (effects : after.effects = state.effects)
    (running : after.running = state.running) (fresh : after.fresh = state.fresh) :
    frame.Holds foreign after := by
  obtain ⟨afterEffects, errors, afterRunning, afterFresh⟩ := after
  subst effects running fresh
  exact ⟨holds.started, holds.canonical, holds.inside, holds.outside, holds.values, holds.learned,
    holds.keys⟩

theorem recordError (holds : frame.Holds foreign state) (id : NodeId) (error : InferenceError) :
    frame.Holds foreign (state.recordError id error) := by
  unfold State.recordError
  split
  · exact holds
  · exact holds.congr rfl rfl rfl

theorem record (holds : frame.Holds foreign state) {id : NodeId} (inside : frame.ids id)
    {effect : Effect} (canonical : effect.Canonical) (own : effect.Over (frame.own state.fresh)) :
    frame.Holds foreign (state.record id effect) := by
  refine ⟨holds.started, ?_, ?_, ?_, holds.values, holds.learned, holds.keys⟩
  · intro other found recorded
    rw [State.record, SortedMap.get?_insert] at recorded
    split at recorded
    · cases recorded
      exact canonical
    · exact holds.canonical recorded
  · intro other found recorded
    rw [State.record, SortedMap.get?_insert] at recorded
    split at recorded
    · cases recorded
      exact fun _ => own
    · exact holds.inside recorded
  · intro other found recorded
    rw [State.record, SortedMap.get?_insert] at recorded
    split at recorded
    · rename_i same
      subst same
      exact fun absurd => absurd.elim inside
    · exact holds.outside recorded

theorem later (holds : frame.Holds foreign state) {fresh : FreshNames}
    (order : state.fresh ≤ fresh) : frame.Holds foreign { state with fresh } := by
  refine ⟨FreshNames.le_trans holds.started order, holds.canonical, ?_, holds.outside,
    holds.values, ?_, ?_⟩
  · intro id effect recorded inside kind name used
    exact own_mono order (holds.inside recorded inside kind name used)
  · intro name value found owned kind other used
    exact own_mono order (holds.learned found owned kind other used)
  · intro name value found
    rcases holds.keys found with ⟨kind, known⟩ | other
    · exact Or.inl ⟨kind, known_mono order known⟩
    · exact Or.inr other

theorem learn (holds : frame.Holds foreign state) {new running : Substitution}
    (canonical : new.Canonical) (values : new.ValuesOver (frame.own state.fresh))
    (named : ∀ binding ∈ new.bindings, (∃ kind, frame.known state.fresh kind binding.name) ∨
      foreign binding.name ∧ isPlaceholder binding.name = true)
    (run : new.compose state.running = .ok running) :
    frame.Holds foreign { state with running } := by
  refine ⟨holds.started, holds.canonical, holds.inside, holds.outside,
    canonical_compose canonical holds.values run, ?_, ?_⟩
  · -- A name that was known before has its old value, with the new one put in.
    intro name value found owned
    cases old : state.running.get? name with
    | none =>
      rw [get?_compose_unbound run old] at found
      exact values _ (mem_of_get? found)
    | some before =>
      obtain ⟨later, applied, found'⟩ := get?_compose_bound run old
      cases found.symm.trans found'
      exact over_applyToTerm values (holds.learned old owned) applied
  · intro name value found
    cases old : state.running.get? name with
    | none =>
      rw [get?_compose_unbound run old] at found
      exact named _ (mem_of_get? found)
    | some before => exact holds.keys old

theorem instantiate (holds : frame.Holds foreign state) {effect : Effect}
    {result : Except KindClash Effect} (run : Instantiated state effect result after)
    (named : ∀ name, effect.Uses .effect name →
      (∃ kind, frame.known state.fresh kind name) ∨ foreign name) :
    frame.Holds foreign after := by
  have moved := holds.later run.fresh
  rcases run.running with same | ⟨learned, renames, keys, composed⟩
  · exact moved.congr run.effects same rfl
  · have values : learned.ValuesOver (frame.own after.fresh) := by
      intro binding member kind name used
      have within := renames.within frame.here member kind name used
      exact made_mono holds.started after.fresh.le_refl (fun _ => id) within
    refine (moved.learn renames.canonical values ?_ composed).congr run.effects rfl rfl
    intro binding member
    obtain ⟨used, marked⟩ := keys binding member
    rcases named _ used with ⟨kind, known⟩ | other
    · exact Or.inl ⟨kind, known_mono run.fresh known⟩
    · exact Or.inr ⟨other, marked⟩

theorem copy (holds : frame.Holds foreign state) {effect copy : Effect}
    (run : Instantiated state effect (.ok copy) after) (canonical : effect.Canonical) :
    copy.Canonical ∧ copy.Over (frame.own after.fresh) ∧ IsInstance effect copy := by
  obtain ⟨ρ, renames, covers, copying⟩ := run.copy copy rfl
  refine ⟨renames.copy_canonical canonical copying, ?_, renames.isInstance copying⟩
  intro kind name used
  exact made_mono holds.started after.fresh.le_refl (fun _ => id)
    (renames.copy_within frame.here covers copying kind name used)

theorem apply_outside (holds : frame.Holds foreign state) {new : Substitution}
    (bounded : new.Over (frame.own state.fresh)) {id : NodeId} {effect : Effect}
    (recorded : state.effects.get? id = some effect) (out : ¬ frame.ids id) :
    new.apply effect = .ok effect := by
  apply apply_self (holds.canonical recorded)
  intro kind name used
  cases found : new.get? name with
  | none => rfl
  | some value =>
    have own := (bounded _ (mem_of_get? found)).1
    exact absurd own (not_own_of_outside (holds.outside recorded out kind name used))

theorem rewrite (holds : frame.Holds foreign state) {stable : NodeId → Prop}
    (outside : ∀ id, stable id → ¬ frame.ids id) {new : Substitution} (canonical : new.Canonical)
    (bounded : new.Over (frame.own state.fresh)) {effects : SortedMap NodeId Effect}
    (run : state.effects.mapValues new.apply = .ok effects) :
    frame.Holds foreign { state with effects } ∧
      EvolvesBy stable state.effects new (fun _ => False) effects := by
  have origin : ∀ {id result}, effects.get? id = some result →
      ∃ effect, state.effects.get? id = some effect ∧ new.apply effect = .ok result :=
    SortedMap.exists_of_get?_mapValues run
  refine ⟨⟨holds.started, ?_, ?_, ?_, holds.values, holds.learned, holds.keys⟩,
    canonical, ?_, ?_, ?_⟩
  · intro id result recorded
    obtain ⟨effect, before, applied⟩ := origin recorded
    exact everySet_apply canonical (fun _ => canonical_applyToVariables canonical)
      (holds.canonical before) applied
  · intro id result recorded inside
    obtain ⟨effect, before, applied⟩ := origin recorded
    exact over_apply bounded.values (holds.inside before inside) applied
  · intro id result recorded out
    obtain ⟨effect, before, applied⟩ := origin recorded
    cases (holds.apply_outside bounded before out).symm.trans applied
    exact holds.outside before out
  · intro binding member
    obtain ⟨key, value⟩ := bounded binding member
    exact ⟨own_possible key, fun kind name used => own_possible (value kind name used)⟩
  · intro id effect recorded
    obtain ⟨result, applied, found⟩ := (SortedMap.get?_mapValues run id).1 effect recorded
    refine ⟨result, applied, found, fun fixed => ?_⟩
    exact Except.ok.inj
      (applied.symm.trans (holds.apply_outside bounded recorded (outside id fixed)))
  · intro id missing _
    exact (SortedMap.get?_mapValues run id).2 missing

end Holds

end Frame

end SpecEffects.Inference
