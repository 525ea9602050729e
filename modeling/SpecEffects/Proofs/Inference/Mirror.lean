import SpecEffects.Proofs.Inference.Unseen

/-!
Two runs of inference that mirror each other. Nodes of one run are linked to nodes of the other, and
linked nodes have the same effects up to one renaming of names that have been made. What was recorded
in the past and is watched uses other names, and does not change in either run.

Each step of inference is taken by both runs at once. The renaming grows when names are made up, and
nothing else that has been said about it changes.
-/
namespace SpecEffects

inductive ErrorKind where
  | application
  | instantiation
  | unresolvedSignature
  deriving DecidableEq

def InferenceError.kind : InferenceError → ErrorKind
  | .application _ _ => .application
  | .instantiation _ _ => .instantiation
  | .unresolvedSignature _ => .unresolvedSignature

namespace Inference

open Substitution

theorem made_of_numbered {kind : Kind} {name : String} {n : Nat} {lo hi : FreshNames}
    {places : String → Prop} (made_name : made lo hi places kind name)
    (marked : ∀ name, places name → isPlaceholder name = true) (eq : name = numbered kind n) :
    lo.count (stem kind) ≤ n ∧ n < hi.count (stem kind) := by
  subst eq
  rcases made_name with ⟨m, above, below, same⟩ | ⟨_, placed⟩
  · obtain ⟨-, rfl⟩ := numbered_injective same
    exact ⟨above, below⟩
  · have absurd := marked _ placed
    rw [not_isPlaceholder_numbered] at absurd
    cases absurd

/-- What is not to change in a run: the effects and errors that these nodes had in the past, where the
names of the effects are frozen, and what had been learned about the placeholders among the stored
names. -/
structure Watch where
  past : State
  nodes : NodeId → Prop
  frozen : Vocabulary
  stored : Vocabulary

namespace Watch

structure Proper (watch : Watch) : Prop where
  effects : ∀ {id effect}, watch.nodes id → watch.past.effects.get? id = some effect →
    effect.Canonical ∧ effect.Over watch.frozen
  values : ∀ {name value}, watch.stored .effect name → isPlaceholder name = true →
    watch.past.running.get? name = some value → value.Canonical ∧ value.Over watch.stored

def Free (watch : Watch) (kind : Kind) (name : String) : Prop :=
  ¬ watch.frozen kind name ∧ ¬ watch.stored kind name

structure Kept (watch : Watch) (state : State) : Prop where
  old : ∀ {kind name}, watch.frozen kind name ∨ watch.stored kind name →
    made .empty state.fresh (fun name => isPlaceholder name = true) kind name
  effects : ∀ {id}, watch.nodes id → state.effects.get? id = watch.past.effects.get? id
  errors : ∀ {id}, watch.nodes id → state.errors.get? id = watch.past.errors.get? id
  values : ∀ {name}, watch.stored .effect name → isPlaceholder name = true →
    state.running.get? name = watch.past.running.get? name

def none : Watch := ⟨.start, fun _ => False, fun _ _ => False, fun _ _ => False⟩

theorem proper_none : none.Proper := ⟨False.elim, False.elim⟩

theorem kept_none (state : State) : none.Kept state :=
  ⟨fun absurd => absurd.elim False.elim False.elim, False.elim, False.elim, False.elim⟩

variable {watch : Watch} {state : State}

namespace Kept

theorem moved (kept : watch.Kept state) {fresh : FreshNames} (order : state.fresh ≤ fresh) :
    watch.Kept { state with fresh } :=
  ⟨fun watched => made_mono (FreshNames.le_refl _) order (fun _ => id) (kept.old watched),
    kept.effects, kept.errors, kept.values⟩

theorem free (kept : watch.Kept state) {kind : Kind} {n : Nat}
    (unused : state.fresh.count (stem kind) ≤ n) : watch.Free kind (numbered kind n) := by
  refine not_or.mp fun watched => ?_
  have below := (made_of_numbered (kept.old watched) (fun _ marked => marked) rfl).2
  omega

theorem record (kept : watch.Kept state) {id : NodeId} (unwatched : ¬ watch.nodes id)
    (effect : Effect) : watch.Kept (state.record id effect) := by
  refine ⟨kept.old, fun {other} watched => ?_, kept.errors, kept.values⟩
  have different : id ≠ other := fun same => unwatched (same ▸ watched)
  rw [get?_record, if_neg different]
  exact kept.effects watched

theorem recordError (kept : watch.Kept state) {id : NodeId} (unwatched : ¬ watch.nodes id)
    (error : InferenceError) : watch.Kept (state.recordError id error) := by
  have errors : ∀ {other}, watch.nodes other →
      (state.recordError id error).errors.get? other = watch.past.errors.get? other := by
    intro other watched
    have different : id ≠ other := fun same => unwatched (same ▸ watched)
    rw [get?_errors_recordError, if_neg different]
    exact kept.errors watched
  refine ⟨?_, ?_, errors, ?_⟩
  · rw [fresh_recordError]
    exact kept.old
  · rw [effects_recordError]
    exact kept.effects
  · rw [running_recordError]
    exact kept.values

theorem learn (kept : watch.Kept state) (proper : watch.Proper) {learned running : Substitution}
    (apart : ∀ {kind name}, watch.stored kind name → learned.get? name = Option.none)
    (run : learned.compose state.running = .ok running) : watch.Kept { state with running } := by
  refine ⟨kept.old, kept.effects, kept.errors, fun {name} stored marked => ?_⟩
  have before := kept.values stored marked
  rw [← before]
  cases found : state.running.get? name with
  | none => exact (get?_compose_unbound run found).trans (apart stored)
  | some value =>
    obtain ⟨after, applied, found'⟩ := get?_compose_bound run found
    obtain ⟨canonical, spelled⟩ := proper.values stored marked (before.symm.trans found)
    have same := applyToTerm_self canonical fun kind name used =>
      apart (spelled kind name used)
    cases applied.symm.trans same
    exact found'

theorem rewrite (kept : watch.Kept state) (proper : watch.Proper) {learned : Substitution}
    {effects : SortedMap NodeId Effect}
    (apart : ∀ {kind name}, watch.frozen kind name → learned.get? name = Option.none)
    (run : state.effects.mapValues learned.apply = .ok effects) :
    watch.Kept { state with effects } := by
  refine ⟨kept.old, fun {id} watched => ?_, kept.errors, kept.values⟩
  have before := kept.effects watched
  rw [← before]
  cases found : state.effects.get? id with
  | none => exact (SortedMap.get?_mapValues run id).2 found
  | some effect =>
    obtain ⟨after, applied, found'⟩ := (SortedMap.get?_mapValues run id).1 effect found
    obtain ⟨canonical, spelled⟩ := proper.effects watched (before.symm.trans found)
    cases applied.symm.trans (apply_self canonical fun kind name used => apart (spelled kind name used))
    exact found'

end Kept

end Watch

/-- How two runs belong together: which nodes are linked, which placeholders stand for the same
effect, what is watched in each run, and whether it matters that there are errors elsewhere. -/
structure Link where
  nodes : NodeId → NodeId → Prop
  holes : String → String → Prop
  watch : Watch
  watch' : Watch
  alert : Prop := True

namespace Link

structure Proper (link : Link) : Prop where
  left : ∀ {a b b'}, link.nodes a b → link.nodes a b' → b = b'
  right : ∀ {a a' b}, link.nodes a b → link.nodes a' b → a = a'
  marked : ∀ {h h'}, link.holes h h' → isPlaceholder h = true ∧ isPlaceholder h' = true
  holes_left : ∀ {h h' k'}, link.holes h h' → link.holes h k' → h' = k'
  holes_right : ∀ {h h' k}, link.holes h h' → link.holes k h' → h = k
  watch : link.watch.Proper
  watch' : link.watch'.Proper
  free : ∀ {h h'}, link.holes h h' → link.watch.Free .effect h
  free' : ∀ {h h'}, link.holes h h' → link.watch'.Free .effect h'

def keys (link : Link) : Vocabulary := fun kind name => kind = .effect ∧ ∃ h', link.holes name h'

/-- The name was made in both runs under numbers of its kind and is not watched, or it is a hole. -/
def Named (link : Link) (now now' : FreshNames) (kind : Kind) (name name' : String) : Prop :=
  (∃ n n', n < now.count (stem kind) ∧ n' < now'.count (stem kind) ∧ name = numbered kind n ∧
      name' = numbered kind n' ∧ link.watch.Free kind name ∧ link.watch'.Free kind name') ∨
    kind = .effect ∧ link.holes name name'

end Link

/-- Two states mirror each other: on the names of `V`, linked nodes have the same effects up to `ρ`,
and the same has been learned about holes. -/
structure Mirror (link : Link) (ρ : String → String) (V : Vocabulary) (state state' : State) :
    Prop where
  tidy : Tidy (fun name => isPlaceholder name = true) state
  tidy' : Tidy (fun name => isPlaceholder name = true) state'
  kept : link.watch.Kept state
  kept' : link.watch'.Kept state'
  named : ∀ {kind name}, V kind name → link.Named state.fresh state'.fresh kind name (ρ name)
  holes : ∀ {h h'}, link.holes h h' → V .effect h ∧ ρ h = h'
  injective : V.Injective ρ
  effects : ∀ {id id'}, link.nodes id id' →
    state'.effects.get? id' = (state.effects.get? id).map (Effect.rename ρ)
  within : ∀ {id id' effect}, link.nodes id id' → state.effects.get? id = some effect →
    effect.Over V
  running : Matched ρ V link.keys state.running state'.running
  errors : ∀ {id id'}, link.nodes id id' →
    (state'.errors.get? id').map InferenceError.kind = (state.errors.get? id).map InferenceError.kind
  clean : link.alert → state'.errors.isEmpty = state.errors.isEmpty

namespace Link

variable {link : Link} {now now' later later' : FreshNames} {kind : Kind} {name name' : String}

theorem Named.mono (named : link.Named now now' kind name name') (order : now ≤ later)
    (order' : now' ≤ later') : link.Named later later' kind name name' := by
  rcases named with ⟨n, n', below, below', rest⟩ | hole
  · exact Or.inl ⟨n, n', Nat.lt_of_lt_of_le below (order _), Nat.lt_of_lt_of_le below' (order' _), rest⟩
  · exact Or.inr hole

variable (proper : link.Proper) (named : link.Named now now' kind name name')

include proper named

theorem Named.made_left : made .empty now (fun name => isPlaceholder name = true) kind name := by
  rcases named with ⟨n, _, below, _, eq, _⟩ | ⟨at_effect, hole⟩
  · exact Or.inl ⟨n, Nat.zero_le _, below, eq⟩
  · exact Or.inr ⟨at_effect, (proper.marked hole).1⟩

theorem Named.made_right : made .empty now' (fun name => isPlaceholder name = true) kind name' := by
  rcases named with ⟨_, n', _, below, _, eq, _⟩ | ⟨at_effect, hole⟩
  · exact Or.inl ⟨n', Nat.zero_le _, below, eq⟩
  · exact Or.inr ⟨at_effect, (proper.marked hole).2⟩

theorem Named.free : link.watch.Free kind name := by
  rcases named with ⟨_, _, _, _, _, _, free, _⟩ | ⟨rfl, hole⟩
  · exact free
  · exact proper.free hole

theorem Named.free' : link.watch'.Free kind name' := by
  rcases named with ⟨_, _, _, _, _, _, _, free'⟩ | ⟨rfl, hole⟩
  · exact free'
  · exact proper.free' hole

end Link

namespace Mirror

variable {link : Link} {ρ : String → String} {V : Vocabulary} {state state' : State}
  (proper : link.Proper) (mirror : Mirror link ρ V state state')

include proper mirror

theorem made_left {kind : Kind} {name : String} (used : V kind name) :
    made .empty state.fresh (fun name => isPlaceholder name = true) kind name :=
  (mirror.named used).made_left proper

theorem made_right {kind : Kind} {name : String} (used : (V.image ρ) kind name) :
    made .empty state'.fresh (fun name => isPlaceholder name = true) kind name := by
  obtain ⟨old, used, rfl⟩ := used
  exact (mirror.named used).made_right proper

theorem separate : V.Separate := fun name used used' =>
  made_separate (fun _ marked => marked) .empty state.fresh name (mirror.made_left proper used)
    (mirror.made_left proper used')

theorem spelled' {effect : Effect} (spelled : effect.Over V) : (effect.rename ρ).Over
    (made .empty state'.fresh fun name => isPlaceholder name = true) := by
  intro kind name used
  obtain ⟨old, before, rfl⟩ := Effect.uses_rename.mp used
  exact (mirror.named (spelled kind old before)).made_right proper

omit proper in
theorem keys_part (kind : Kind) (name : String) (key : link.keys kind name) : V kind name := by
  obtain ⟨rfl, h', hole⟩ := key
  exact (mirror.holes hole).1

omit proper in
theorem hole_of_marked {kind : Kind} {name : String} (used : V kind name)
    (marked : isPlaceholder name = true ∨ isPlaceholder (ρ name) = true) :
    kind = .effect ∧ link.holes name (ρ name) := by
  rcases mirror.named used with ⟨n, n', _, _, eq, eq', _⟩ | hole
  · rw [eq', eq, not_isPlaceholder_numbered, not_isPlaceholder_numbered] at marked
    rcases marked with absurd | absurd <;> cases absurd
  · exact hole

omit proper in
theorem failed {id id' : NodeId} (linked : link.nodes id id') :
    state'.errors.contains id' = state.errors.contains id := by
  have image := congrArg Option.isSome (mirror.errors linked)
  rwa [Option.isSome_map, Option.isSome_map] at image

theorem extend (news : Vocabulary) (new : String → String) {later later' : FreshNames}
    (order : state.fresh ≤ later) (order' : state'.fresh ≤ later')
    (numbers : ∀ {kind name}, news kind name → ∃ n n',
      state.fresh.count (stem kind) ≤ n ∧ n < later.count (stem kind) ∧
      state'.fresh.count (stem kind) ≤ n' ∧ n' < later'.count (stem kind) ∧
      name = numbered kind n ∧ new name = numbered kind n')
    (injective : news.Injective new) :
    ∃ ρ', (∀ {kind name}, V kind name → ρ' name = ρ name) ∧
      (∀ {kind name}, news kind name → ρ' name = new name) ∧
      Mirror link ρ' (fun kind name => V kind name ∨ news kind name)
        { state with fresh := later } { state' with fresh := later' } := by
  classical
  let ρ' : String → String := fun name => if ∃ kind, news kind name then new name else ρ name
  have same_new : ∀ {kind name}, news kind name → ρ' name = new name := fun used =>
    if_pos ⟨_, used⟩
  have same_old : ∀ {kind name}, V kind name → ρ' name = ρ name := by
    intro kind name used
    refine if_neg ?_
    rintro ⟨kind', new_name⟩
    obtain ⟨n, _, above, _, _, _, rfl, _⟩ := numbers new_name
    have old := mirror.made_left proper used
    cases possible_separate.kind_eq (possible_of_made (fun _ marked => marked) old) (Or.inl ⟨n, rfl⟩)
    have := (made_of_numbered old (fun _ marked => marked) rfl).2
    omega
  have both : ∀ {kind kind' name name'}, V kind name → news kind' name' → ρ name ≠ new name' := by
    intro kind kind' name name' used new_name same
    obtain ⟨_, n', _, _, above, _, _, eq⟩ := numbers new_name
    have old := (mirror.named used).made_right proper
    rw [same] at old
    cases possible_separate.kind_eq (possible_of_made (fun _ marked => marked) old) (Or.inl ⟨n', eq⟩)
    have := (made_of_numbered old (fun _ marked => marked) eq).2
    omega
  have renamed : ∀ {effect : Effect}, effect.Over V → effect.rename ρ' = effect.rename ρ :=
    fun spelled => Effect.rename_congr fun kind name used => same_old (spelled kind name used)
  refine ⟨ρ', same_old, same_new, mirror.tidy.later order, mirror.tidy'.later order',
    mirror.kept.moved order, mirror.kept'.moved order', ?_, ?_, ?_, ?_, ?_, ?_, mirror.errors,
    mirror.clean⟩
  · rintro kind name (used | used)
    · rw [same_old used]
      exact (mirror.named used).mono order order'
    · obtain ⟨n, n', above, below, above', below', eq, eq'⟩ := numbers used
      rw [same_new used]
      exact Or.inl ⟨n, n', below, below', eq, eq', eq ▸ mirror.kept.free above,
        eq' ▸ mirror.kept'.free above'⟩
  · intro h h' hole
    obtain ⟨used, same⟩ := mirror.holes hole
    exact ⟨Or.inl used, (same_old used).trans same⟩
  · rintro kind kind' name name' (used | used) (used' | used') same
    · rw [same_old used, same_old used'] at same
      exact mirror.injective used used' same
    · rw [same_old used, same_new used'] at same
      exact absurd same (both used used')
    · rw [same_new used, same_old used'] at same
      exact absurd same.symm (both used' used)
    · rw [same_new used, same_new used'] at same
      exact injective used used' same
  · intro id id' linked
    have image := mirror.effects linked
    show state'.effects.get? id' = _
    rw [image]
    cases found : state.effects.get? id with
    | none => rfl
    | some effect => exact congrArg some (renamed (mirror.within linked found)).symm
  · intro id id' effect linked found kind name used
    exact Or.inl (mirror.within linked found kind name used)
  · refine ⟨mirror.running.canonical, mirror.running.canonical', ?_, ?_⟩
    · intro kind name value key found
      obtain ⟨at_kind, spelled⟩ := mirror.running.within key found
      exact ⟨at_kind, fun kind name used => Or.inl (spelled kind name used)⟩
    · intro kind name key
      rw [same_old (mirror.keys_part kind name key)]
      refine (mirror.running.image key).trans ?_
      cases found : state.running.get? name with
      | none => rfl
      | some value =>
        refine congrArg some (Term.rename_congr fun kind name used => ?_)
        exact (same_old ((mirror.running.within key found).2 kind name used)).symm

theorem learn {learned learned' running running' : Substitution}
    (news : Matched ρ V V learned learned') (run : learned.compose state.running = .ok running)
    (run' : learned'.compose state'.running = .ok running')
    (apart : ∀ {kind name}, link.watch.stored kind name → learned.get? name = none)
    (apart' : ∀ {kind name}, link.watch'.stored kind name → learned'.get? name = none)
    (tidy : Tidy (fun name => isPlaceholder name = true) { state with running })
    (tidy' : Tidy (fun name => isPlaceholder name = true) { state' with running := running' }) :
    Mirror link ρ V { state with running } { state' with running := running' } :=
  ⟨tidy, tidy', mirror.kept.learn proper.watch apart run, mirror.kept'.learn proper.watch' apart' run',
    mirror.named, mirror.holes, mirror.injective, mirror.effects, mirror.within,
    news.compose (mirror.keys_part) mirror.running run run', mirror.errors, mirror.clean⟩

theorem record {id id' : NodeId} (linked : link.nodes id id') (unwatched : ¬ link.watch.nodes id)
    (unwatched' : ¬ link.watch'.nodes id') {effect : Effect} (canonical : effect.Canonical)
    (spelled : effect.Over V) :
    Mirror link ρ V (state.record id effect) (state'.record id' (effect.rename ρ)) := by
  refine ⟨mirror.tidy.record id canonical fun kind name used =>
      mirror.made_left proper (spelled kind name used),
    mirror.tidy'.record id' (effect.canonical_rename ρ) (mirror.spelled' proper spelled),
    mirror.kept.record unwatched effect, mirror.kept'.record unwatched' _, mirror.named, mirror.holes,
    mirror.injective, ?_, ?_, mirror.running, mirror.errors, mirror.clean⟩
  · intro other other' linked'
    rw [get?_record, get?_record]
    by_cases same : id = other
    · subst same
      rw [if_pos rfl, if_pos (proper.left linked linked')]
      rfl
    · have different : id' ≠ other' := fun same' => same (proper.right linked (same' ▸ linked'))
      rw [if_neg same, if_neg different]
      exact mirror.effects linked'
  · intro other other' found linked' recorded
    rw [get?_record] at recorded
    split at recorded
    · cases recorded
      exact spelled
    · exact mirror.within linked' recorded

theorem recordError {id id' : NodeId} (linked : link.nodes id id') (unwatched : ¬ link.watch.nodes id)
    (unwatched' : ¬ link.watch'.nodes id') {error error' : InferenceError}
    (same : error'.kind = error.kind) :
    Mirror link ρ V (state.recordError id error) (state'.recordError id' error') := by
  refine ⟨mirror.tidy.recordError _ _, mirror.tidy'.recordError _ _,
    mirror.kept.recordError unwatched _, mirror.kept'.recordError unwatched' _, ?_, mirror.holes,
    mirror.injective, ?_, ?_, ?_, ?_, ?_⟩
  · rw [fresh_recordError, fresh_recordError]
    exact mirror.named
  · rw [effects_recordError, effects_recordError]
    exact mirror.effects
  · rw [effects_recordError]
    exact mirror.within
  · rw [running_recordError, running_recordError]
    exact mirror.running
  · intro other other' linked'
    have image := mirror.errors linked'
    rw [get?_errors_recordError, get?_errors_recordError]
    by_cases here : id = other
    · subst here
      obtain rfl := proper.left linked linked'
      rw [if_pos rfl, if_pos rfl, Option.map_or, Option.map_or, image, Option.map_some, Option.map_some,
        same]
    · have elsewhere : id' ≠ other' := fun here' => here (proper.right linked (here' ▸ linked'))
      rw [if_neg here, if_neg elsewhere]
      exact image
  · intro _
    rw [errors_recordError, errors_recordError]

end Mirror

end Inference

end SpecEffects
