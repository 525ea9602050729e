import SpecEffects.Proofs.Inference.StateSteps

/-!
For which nodes effects and errors are recorded. Each step of inference is seen through the ids that
it adds to either, whatever the effects are.
-/
namespace SpecEffects

namespace SortedMap

variable {κ ν : Type} [Ord κ] [DecidableEq κ]

theorem isSome_get?_iff {m : SortedMap κ ν} {k : κ} : (m.get? k).isSome ↔ k ∈ m.keys := by
  simp [get?, keys, List.find?_isSome]

theorem isEmpty_iff {m : SortedMap κ ν} : m.isEmpty = true ↔ ∀ k, ¬ (m.get? k).isSome := by
  simp only [isSome_get?_iff, isEmpty, List.isEmpty_iff, keys]
  rw [← List.eq_nil_iff_forall_not_mem, List.map_eq_nil_iff]

theorem get?_of_isEmpty {m : SortedMap κ ν} (none : m.isEmpty = true) (k : κ) : m.get? k = .none :=
  Option.not_isSome_iff_eq_none.mp (isEmpty_iff.mp none k)

theorem isEmpty_insert [Std.TransOrd κ] [Std.LawfulEqOrd κ] (m : SortedMap κ ν) (k : κ) (v : ν) :
    (m.insert k v).isEmpty = false := by
  refine Bool.eq_false_iff.mpr fun empty => isEmpty_iff.mp empty k ?_
  rw [get?_insert, if_pos rfl]
  rfl

end SortedMap

namespace Inference

namespace State

def Known (state : State) (id : NodeId) : Prop := (state.effects.get? id).isSome

def Failed (state : State) (id : NodeId) : Prop := (state.errors.get? id).isSome

end State

/-- From one state to the other, effects have been added for nodes of the first list only and errors
for nodes of the second, and none has been lost. -/
structure Adds (effects errors : List NodeId) (state after : State) : Prop where
  known : ∀ id, state.Known id → after.Known id
  failed : ∀ id, state.Failed id → after.Failed id
  known_from : ∀ id, after.Known id → state.Known id ∨ id ∈ effects
  failed_from : ∀ id, after.Failed id → state.Failed id ∨ id ∈ errors

namespace Adds

variable {effects effects' errors errors' : List NodeId} {state after last : State} {id : NodeId}

theorem of_same (sameEffects : ∀ id, after.Known id ↔ state.Known id)
    (sameErrors : after.errors = state.errors) : Adds effects errors state after := by
  have same : ∀ id, after.Failed id ↔ state.Failed id := fun id => by
    rw [State.Failed, sameErrors]
    rfl
  exact ⟨fun id => (sameEffects id).mpr, fun id => (same id).mpr,
    fun id known => .inl ((sameEffects id).mp known), fun id failed => .inl ((same id).mp failed)⟩

theorem refl (state : State) : Adds effects errors state state :=
  .of_same (fun _ => Iff.rfl) rfl

theorem mono (adds : Adds effects errors state after) (more : effects ⊆ effects')
    (more' : errors ⊆ errors') : Adds effects' errors' state after :=
  ⟨adds.known, adds.failed, fun id known => (adds.known_from id known).imp_right (@more id),
    fun id failed => (adds.failed_from id failed).imp_right (@more' id)⟩

theorem trans (first : Adds effects errors state after) (second : Adds effects errors after last) :
    Adds effects errors state last where
  known id known := second.known id (first.known id known)
  failed id failed := second.failed id (first.failed id failed)
  known_from id known := (second.known_from id known).elim (first.known_from id) .inr
  failed_from id failed := (second.failed_from id failed).elim (first.failed_from id) .inr

theorem known_iff (adds : Adds effects errors state after) (outside : id ∉ effects) :
    after.Known id ↔ state.Known id :=
  ⟨fun known => (adds.known_from id known).resolve_right outside, adds.known id⟩

theorem failed_iff (adds : Adds effects errors state after) (outside : id ∉ errors) :
    after.Failed id ↔ state.Failed id :=
  ⟨fun failed => (adds.failed_from id failed).resolve_right outside, adds.failed id⟩

theorem same (adds : Adds effects errors state after) (part : errors ⊆ effects)
    (outside : id ∉ effects) :
    (after.Known id ↔ state.Known id) ∧ (after.Failed id ↔ state.Failed id) :=
  ⟨adds.known_iff outside, adds.failed_iff fun inside => outside (part inside)⟩

theorem calm (adds : Adds effects errors state after) (calm : after.errors.isEmpty = true) :
    state.errors.isEmpty = true :=
  SortedMap.isEmpty_iff.mpr fun id failed => SortedMap.isEmpty_iff.mp calm id (adds.failed id failed)

theorem exists_failed (adds : Adds effects errors state after)
    (calm : state.errors.isEmpty = true) (failed : after.errors.isEmpty = false) :
    ∃ id ∈ errors, after.Failed id := by
  by_contra none
  refine absurd (SortedMap.isEmpty_iff.mpr fun id wrong => ?_) (Bool.eq_false_iff.mp failed)
  rcases adds.failed_from id wrong with before | new
  · exact SortedMap.isEmpty_iff.mp calm id before
  · exact none ⟨id, new, wrong⟩

end Adds

structure Decides (id : NodeId) (state after : State) : Prop extends Adds [id] [id] state after where
  decided : ¬ state.Known id → ¬ state.Failed id →
    after.Known id ∧ ¬ after.Failed id ∨ ¬ after.Known id ∧ after.Failed id

section Steps

variable {context : Context} {state after last : State} {id : NodeId}

theorem Decides.preceded (first : Adds [] [] state after) (second : Decides id after last) :
    Decides id state last where
  toAdds := (first.mono (List.nil_subset _) (List.nil_subset _)).trans second.toAdds
  decided unknown unfailed :=
    second.decided (fun known => unknown ((first.known_iff List.not_mem_nil).mp known))
      fun failed => unfailed ((first.failed_iff List.not_mem_nil).mp failed)

theorem known_of_recorded {effect : Effect} (recorded : state.effects.get? id = some effect) :
    state.Known id :=
  Option.isSome_iff_exists.mpr ⟨effect, recorded⟩

theorem unknown_of_missing (missing : state.effects.get? id = none) : ¬ state.Known id := by
  rw [State.Known, missing]
  exact Bool.false_ne_true

theorem known_record {other : NodeId} {effect : Effect} :
    (state.record id effect).Known other ↔ other = id ∨ state.Known other := by
  rw [State.Known, get?_record]
  split
  · rename_i same
    simp [same]
  · rename_i different
    simp [State.Known, Ne.symm different]

theorem failed_recordError {other : NodeId} {error : InferenceError} :
    (state.recordError id error).Failed other ↔ other = id ∨ state.Failed other := by
  unfold State.recordError
  split
  · rename_i present
    constructor
    · exact .inr
    · rintro (rfl | failed)
      · exact present
      · exact failed
  · rw [State.Failed, SortedMap.get?_insert]
    split
    · rename_i same
      simp [same]
    · rename_i different
      simp [State.Failed, Ne.symm different]

theorem errors_recordError (state : State) (id : NodeId) (error : InferenceError) :
    (state.recordError id error).errors.isEmpty = false :=
  Bool.eq_false_iff.mpr fun empty =>
    SortedMap.isEmpty_iff.mp empty id (failed_recordError.mpr (.inl rfl))

theorem decides_record (state : State) (id : NodeId) (effect : Effect) :
    Decides id state (state.record id effect) where
  known _ known := known_record.mpr (.inr known)
  failed _ failed := failed
  known_from _ known := (known_record.mp known).symm.imp_right List.mem_singleton.mpr
  failed_from _ failed := .inl failed
  decided _ unfailed := .inl ⟨known_record.mpr (.inl rfl), unfailed⟩

theorem adds_record (state : State) (id : NodeId) (effect : Effect) :
    Adds [id] [] state (state.record id effect) :=
  { decides_record state id effect with failed_from := fun _ failed => .inl failed }

theorem decides_recordError (state : State) (id : NodeId) (error : InferenceError) :
    Decides id state (state.recordError id error) := by
  have same : ∀ other, (state.recordError id error).Known other ↔ state.Known other := fun other => by
    rw [State.Known, effects_recordError]
    rfl
  exact {
    known := fun other => (same other).mpr
    failed := fun other failed => failed_recordError.mpr (.inr failed)
    known_from := fun other known => .inl ((same other).mp known)
    failed_from := fun other failed =>
      (failed_recordError.mp failed).symm.imp_right List.mem_singleton.mpr
    decided := fun unknown _ =>
      .inr ⟨fun known => unknown ((same id).mp known), failed_recordError.mpr (.inl rfl)⟩ }

theorem errors_instantiate {effect : Effect} {result : Except KindClash Effect}
    (run : state.instantiate effect = (result, after)) : after.errors = state.errors := by
  unfold State.instantiate at run
  dsimp only at run
  split at run
  · cases run
    rfl
  · split at run
    · cases run
      rfl
    · split at run <;> cases run <;> rfl

theorem adds_instantiate {effect : Effect} {result : Except KindClash Effect}
    (run : state.instantiate effect = (result, after)) : Adds [] [] state after :=
  .of_same (fun id => by rw [State.Known, (instantiated run).effects]; rfl) (errors_instantiate run)

theorem adds_solve {signature used result effect : Effect}
    (run : state.solve signature used result = .ok (effect, after)) : Adds [] [] state after := by
  obtain ⟨learned, running, effects, _, _, changed, _, rfl⟩ := solve_eq_ok run
  refine .of_same (fun id => ?_) rfl
  obtain ⟨some, none⟩ := SortedMap.get?_mapValues changed id
  unfold State.Known
  cases before : state.effects.get? id with
  | none => simp [none before]
  | some value =>
    obtain ⟨_, _, found⟩ := some value before
    simp [found]

theorem decides_applySignature (state : State) (expr : Expr) (args : List Effect)
    (signature : Effect) : Decides expr.id state (state.applySignature expr args signature) := by
  have moved (opened : State) : Adds [] [] opened (withResult opened) :=
    .of_same (fun _ => Iff.rfl) rfl
  have step := applySignature_step state expr args signature
  generalize state.applySignature expr args signature = after at step ⊢
  cases step with
  | clashed run => exact .preceded (adds_instantiate run) (decides_recordError _ _ _)
  | failed run _ =>
    exact .preceded ((adds_instantiate run).trans (moved _)) (decides_recordError _ _ _)
  | solved run solution =>
    exact .preceded (((adds_instantiate run).trans (moved _)).trans (adds_solve solution))
      (decides_record _ _ _)

theorem decides_inferOperatorRef {name : String} {definition? : Option NameDefinition}
    (run : state.inferOperatorRef context id name definition? = .ok after) :
    Decides id state after := by
  cases inferOperatorRef_step run with
  | unresolved => exact decides_recordError _ _ _
  | copied _ instantiation =>
    exact .preceded (adds_instantiate instantiation) (decides_record _ _ _)
  | clashed _ instantiation =>
    exact .preceded (adds_instantiate instantiation) (decides_recordError _ _ _)

theorem decides_inferRef {name : String} (run : state.inferRef context id name = .ok after) :
    Decides id state after := by
  cases inferRef_step run with
  | parameter => exact decides_record _ _ _
  | constant => exact decides_record _ _ _
  | stateVariable => exact decides_record _ _ _
  | operator _ _ run => exact decides_inferOperatorRef run

theorem inferApplication_cases {operator : String} {args : List Expr}
    (run : state.inferApplication context id operator args = .ok after) :
    (∃ arg ∈ args, ¬ state.Known arg.id) ∧ after = state ∨
      (∀ arg ∈ args, state.Known arg.id) ∧ Decides id state after := by
  have all {inputs : List Effect}
      (known : List.Forall₂ (fun arg input => state.effects.get? arg.id = some input) args inputs) :
      ∀ arg ∈ args, state.Known arg.id := by
    intro arg member
    obtain ⟨input, _, recorded⟩ := forall₂_mem_left known member
    exact known_of_recorded recorded
  cases inferApplication_step run with
  | @skipped arg member missing => exact .inl ⟨⟨arg, member, unknown_of_missing missing⟩, rfl⟩
  | unresolved known => exact .inr ⟨all known, decides_recordError _ _ _⟩
  | applied known =>
    exact .inr ⟨all known, decides_applySignature _ (.app id operator args) _ _⟩

theorem closeLambda_cases (state : State) (id : NodeId) (params : List Param) (body : Expr) :
    ¬ state.Known body.id ∧ state.closeLambda id params body = state ∨
      state.Known body.id ∧ Decides id state (state.closeLambda id params body) := by
  have step := closeLambda_step state id params body
  generalize state.closeLambda id params body = after at step ⊢
  cases step with
  | skipped missing => exact .inl ⟨unknown_of_missing missing, rfl⟩
  | closed recorded => exact .inr ⟨known_of_recorded recorded, decides_record _ _ _⟩
  | clashed recorded => exact .inr ⟨known_of_recorded recorded, decides_recordError _ _ _⟩

theorem closeLet_cases {body : NodeId} (run : state.closeLet id body = .ok after) :
    state.errors.isEmpty = false ∧ after = state ∨
      state.errors.isEmpty = true ∧ state.Known body ∧
        ∃ effect, after = state.record id effect := by
  cases closeLet_step run with
  | closed calm recorded => exact .inr ⟨calm, known_of_recorded recorded, _, rfl⟩
  | skipped failed => exact .inl ⟨failed, rfl⟩

theorem adds_openLambda (state : State) (id : NodeId) (params : List Param) :
    Adds (params.map Param.id) [] state (state.openLambda id params) ∧
      ∀ param ∈ params, (state.openLambda id params).Known param.id := by
  unfold State.openLambda
  induction params generalizing state with
  | nil => exact ⟨.refl state, fun _ absurd => nomatch absurd⟩
  | cons param rest ih =>
    obtain ⟨adds, each⟩ := ih (state.record param.id (.quantified (placeholder param.name id)))
    have first := adds_record state param.id (.quantified (placeholder param.name id))
    refine ⟨(first.mono (by simp) (List.Subset.refl _)).trans
      (adds.mono (by simp) (List.Subset.refl _)), fun other member => ?_⟩
    rcases List.mem_cons.mp member with rfl | later
    · exact adds.known _ (known_record.mpr (.inl rfl))
    · exact each other later

theorem adds_copyEffect (state : State) (id source : NodeId) :
    Adds [id] [] state (state.copyEffect id source) := by
  have step := copyEffect_step state id source
  generalize state.copyEffect id source = after at step ⊢
  cases step with
  | copied => exact adds_record _ _ _
  | skipped => exact .refl state

theorem known_copyEffect {source : NodeId} (missing : ¬ state.Known id) :
    (state.copyEffect id source).Known id ↔ state.Known source := by
  have step := copyEffect_step state id source
  generalize state.copyEffect id source = after at step ⊢
  cases step with
  | copied recorded =>
    exact ⟨fun _ => known_of_recorded recorded, fun _ => known_record.mpr (.inl rfl)⟩
  | skipped absent =>
    exact ⟨fun known => absurd known missing, fun known => absurd known (unknown_of_missing absent)⟩

end Steps

end Inference

end SpecEffects
