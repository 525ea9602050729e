import SpecEffects.Proofs.Inference.Standalone

/-!
Runs that mirror each other up to parts that they go through in different ways. Of such parts only the
roots are linked. Inside of them other nodes can be linked, and more can be watched: what has been
found out at names that are bound there. When the runs have come to the end of the parts they mirror
each other as before.
-/
namespace SpecEffects.Inference

open Substitution

variable {link : Link} {ρ : String → String} {V : Vocabulary} {state state' after after' : State}
  {heads : NodeId → Prop}

/-- Runs still mirror each other when one of them has gone on, also with other linked nodes, if
nothing has been learned about holes and there are no errors. -/
theorem Mirror.relink {other : Link} (mirror : Mirror link ρ V state state')
    (holes : ∀ {h h'}, other.holes h h' ↔ link.holes h h')
    (tidy : Tidy (fun name => isPlaceholder name = true) after)
    (tidy' : Tidy (fun name => isPlaceholder name = true) after')
    (kept : other.watch.Kept after) (kept' : other.watch'.Kept after')
    (order : state.fresh ≤ after.fresh) (order' : state'.fresh ≤ after'.fresh)
    (free : ∀ {kind name}, V kind name → link.watch.Free kind name → other.watch.Free kind name)
    (free' : ∀ {kind name}, V kind name → link.watch'.Free kind (ρ name) →
      other.watch'.Free kind (ρ name))
    (effects : ∀ {a b}, other.nodes a b →
      after'.effects.get? b = (after.effects.get? a).map (Effect.rename ρ))
    (within : ∀ {a b effect}, other.nodes a b → after.effects.get? a = some effect → effect.Over V)
    (running : ∀ {h h'}, link.holes h h' → after.running.get? h = state.running.get? h)
    (running' : ∀ {h h'}, link.holes h h' → after'.running.get? h' = state'.running.get? h')
    (clean : after.errors.isEmpty = true) (clean' : after'.errors.isEmpty = true) :
    Mirror other ρ V after after' := by
  have keys : ∀ {kind name}, other.keys kind name → link.keys kind name :=
    fun ⟨at_effect, h', hole⟩ => ⟨at_effect, h', holes.mp hole⟩
  refine ⟨tidy, tidy', kept, kept', fun {kind name} used => ?_,
    fun hole => mirror.holes (holes.mp hole), mirror.injective, effects, within,
    ⟨tidy.values, tidy'.values, ?_, ?_⟩, fun _ => by
      rw [SortedMap.get?_of_isEmpty clean', SortedMap.get?_of_isEmpty clean],
    fun _ => clean'.trans clean.symm⟩
  · rcases mirror.named used with ⟨n, n', below, below', eq, eq', unused, unused'⟩ | ⟨rfl, hole⟩
    · exact Or.inl ⟨n, n', Nat.lt_of_lt_of_le below (order _), Nat.lt_of_lt_of_le below' (order' _),
        eq, eq', free used unused, free' used unused'⟩
    · exact Or.inr ⟨rfl, holes.mpr hole⟩
  · intro kind name value key found
    obtain ⟨_, h', hole⟩ := keys key
    exact mirror.running.within (keys key) (running hole ▸ found)
  · intro kind name key
    obtain ⟨_, h', hole⟩ := keys key
    rw [running hole, (mirror.holes hole).2, running' hole, ← (mirror.holes hole).2]
    exact mirror.running.image (keys key)

section Holes

variable (mirror : Mirror link ρ V state state')

include mirror

theorem Mirror.steady {ids : List NodeId}
    (spares : ∀ {h h'}, link.holes h h' → Elsewhere ids h) : Steady ids state V where
  old used := by
    rcases mirror.named used with ⟨n, _, below, _, eq, _⟩ | ⟨at_effect, hole⟩
    · exact Or.inl ⟨n, Nat.zero_le _, below, eq⟩
    · exact Or.inr ⟨at_effect, spares hole⟩
  values used marked found := by
    obtain ⟨_, hole⟩ := mirror.hole_of_marked used (Or.inl marked)
    exact (mirror.running.within ⟨rfl, _, hole⟩ found).2

theorem Mirror.steady' {ids : List NodeId}
    (spares : ∀ {h h'}, link.holes h h' → Elsewhere ids h') : Steady ids state' (V.image ρ) where
  old := by
    rintro kind _ ⟨name, used, rfl⟩
    rcases mirror.named used with ⟨_, n, _, below, _, eq, _⟩ | ⟨at_effect, hole⟩
    · exact Or.inl ⟨n, Nat.zero_le _, below, eq⟩
    · exact Or.inr ⟨at_effect, spares hole⟩
  values := by
    rintro _ value' ⟨name, used, rfl⟩ marked found
    obtain ⟨_, hole⟩ := mirror.hole_of_marked used (Or.inr marked)
    have key : link.keys .effect name := ⟨rfl, _, hole⟩
    rw [mirror.running.image key] at found
    obtain ⟨value, learned, rfl⟩ := Option.map_eq_some_iff.mp found
    intro kind other inside
    obtain ⟨old, before, same⟩ := Term.uses_rename.mp inside
    exact ⟨old, (mirror.running.within key learned).2 kind old before, same⟩

theorem HeadsMatch.spare (matched : HeadsMatch link heads) : HeadsSpare heads state V := by
  intro site head effect found name used marked stored
  obtain ⟨_, hole⟩ := mirror.hole_of_marked stored (Or.inl marked)
  rw [mirror.kept.effects (matched.watched head).1] at found
  exact matched.apart head found used marked (Or.inl ⟨_, hole⟩)

theorem HeadsMatch.spare' (matched : HeadsMatch link heads) :
    HeadsSpare heads state' (V.image ρ) := by
  rintro site head effect found _ used marked ⟨name, stored, rfl⟩
  obtain ⟨_, hole⟩ := mirror.hole_of_marked stored (Or.inr marked)
  rw [mirror.kept'.effects (matched.watched head).2] at found
  exact matched.apart' head found used marked (Or.inl ⟨_, hole⟩)

end Holes

/-- Of the nodes of two parts only the roots are linked, and none of them is watched. -/
structure Link.Surrounds (link : Link) (old new : Expr) : Prop where
  root : link.nodes old.id new.id
  alone : ∀ {a b}, link.nodes a b → a ∈ old.ids ∨ b ∈ new.ids → a = old.id ∧ b = new.id
  unwatched : ∀ {id}, id ∈ old.ids → ¬ link.watch.nodes id
  unwatched' : ∀ {id}, id ∈ new.ids → ¬ link.watch'.nodes id

section Watching

variable {watch later : Watch} {holes : String → Prop} {part : List NodeId}

structure Watch.Grows (watch later : Watch) : Prop where
  nodes : ∀ {id}, watch.nodes id → later.nodes id
  frozen : ∀ {kind name}, watch.frozen kind name → later.frozen kind name
  stored : ∀ {kind name}, later.stored kind name ↔ watch.stored kind name
  kept : watch.Kept later.past

theorem Watch.Grows.kept_of (grows : watch.Grows later) (kept : later.Kept state) :
    watch.Kept state where
  old held := kept.old (held.imp grows.frozen grows.stored.mpr)
  effects held := (kept.effects (grows.nodes held)).trans (grows.kept.effects held)
  errors held := (kept.errors (grows.nodes held)).trans (grows.kept.errors held)
  values stored marked :=
    (kept.values (grows.stored.mpr stored) marked).trans (grows.kept.values stored marked)

def Watch.since (watch : Watch) (past : State) : Watch := { watch with past }

def Watch.add (watch : Watch) (past : State) (site : NodeId) (effect : Effect) : Watch where
  past := past
  nodes id := watch.nodes id ∨ id = site
  frozen kind name := watch.frozen kind name ∨ effect.Uses kind name
  stored := watch.stored

/-- One run has come to the inside of a part. What it has found out on the way is about the part, and
says nothing about holes. -/
structure StepsIn (holes : String → Prop) (part : List NodeId) (watch later : Watch)
    (state after : State) : Prop where
  grows : watch.Grows later
  proper : later.Proper
  tidy : Tidy (fun name => isPlaceholder name = true) after
  kept : later.Kept after
  order : state.fresh ≤ after.fresh
  outside : ∀ {id}, id ∉ part → after.effects.get? id = state.effects.get? id
  free : ∀ {kind name}, made .empty state.fresh (fun name => isPlaceholder name = true) kind name →
    watch.Free kind name → later.Free kind name
  running : ∀ {h}, holes h → after.running.get? h = state.running.get? h
  clean : after.errors.isEmpty = true

theorem stepsIn_here (proper : watch.Proper) (kept : watch.Kept state)
    (tidy : Tidy (fun name => isPlaceholder name = true) state)
    (clean : state.errors.isEmpty = true) :
    StepsIn holes part watch (watch.since state) state state where
  grows := ⟨fun held => held, fun frozen => frozen, Iff.rfl, kept⟩
  proper := ⟨fun held found => proper.effects held ((kept.effects held).symm.trans found),
    fun stored marked found =>
      proper.values stored marked ((kept.values stored marked).symm.trans found)⟩
  tidy := tidy
  kept := ⟨kept.old, fun _ => rfl, fun _ => rfl, fun _ _ => rfl⟩
  order := FreshNames.le_refl _
  outside _ := rfl
  free _ free := free
  running _ := rfl
  clean := clean

variable {value : Expr} {effect : Effect} {τ : String → String} {site : NodeId}

theorem Renders.stepsIn (renders : Renders value state V effect τ after) (proper : watch.Proper)
    (kept : watch.Kept state) (clean : state.errors.isEmpty = true)
    (still : ∀ {kind name}, ¬ watch.stored kind name)
    (apart : ∀ {id}, id ∈ part → ¬ watch.nodes id) (values : value.ids ⊆ part) (own : site ∈ part)
    (stores : ∀ {h}, holes h → V .effect h ∧ isPlaceholder h = true) :
    StepsIn holes part watch
      (watch.add (after.record site (effect.rename τ)) site (effect.rename τ)) state
      (after.record site (effect.rename τ)) := by
  have canonical := renders.tidy.canonical renders.found
  have spelled := renders.tidy.spelled renders.found
  have outside : ∀ {id}, id ∉ part →
      (after.record site (effect.rename τ)).effects.get? id = state.effects.get? id := by
    intro id other
    rw [get?_record, if_neg fun here : site = id => other (here ▸ own)]
    exact renders.kept.effects fun inside => other (values inside)
  have early : watch.Kept (after.record site (effect.rename τ)) := by
    refine Watch.Kept.record ⟨fun held => ?_, fun held => ?_, fun held => ?_,
      fun stored => (still stored).elim⟩ (apart own) _
    · exact made_mono (FreshNames.le_refl _) renders.order (fun _ => id) (kept.old held)
    · exact (renders.kept.effects fun inside => apart (values inside) held).trans (kept.effects held)
    · rw [← kept.errors held, SortedMap.get?_of_isEmpty renders.clean, SortedMap.get?_of_isEmpty clean]
  refine ⟨⟨Or.inl, Or.inl, Iff.rfl, early⟩, ⟨?_, fun stored => (still stored).elim⟩,
    renders.tidy.record site canonical spelled, ⟨?_, fun _ => rfl, fun _ => rfl, fun _ _ => rfl⟩,
    renders.order, outside, ?_, fun hole => ?_, renders.clean⟩
  · rintro id other (held | rfl) known
    · obtain ⟨canonical, within⟩ := proper.effects held ((early.effects held).symm.trans known)
      exact ⟨canonical, fun kind name used => Or.inl (within kind name used)⟩
    · cases (get?_record_self after id (effect.rename τ)).symm.trans known
      exact ⟨canonical, fun kind name used => Or.inr used⟩
  · rintro kind name ((frozen | used) | stored)
    · exact early.old (Or.inl frozen)
    · exact spelled kind name used
    · exact (still stored).elim
  · intro kind name before free
    refine ⟨?_, free.2⟩
    rintro (frozen | used)
    · exact free.1 frozen
    · exact renders.unmade used before
  · exact renders.kept.values (stores hole).1 (stores hole).2

end Watching

def Link.inside (link : Link) (root : NodeId) (kept roots : NodeId → NodeId → Prop)
    (watch watch' : Watch) : Link where
  nodes a b := link.nodes a b ∧ a ≠ root ∨ kept a b ∨ roots a b
  holes := link.holes
  watch := watch
  watch' := watch'

section Inside

variable {old new : Expr} {ids ids' : List NodeId} {kept roots : NodeId → NodeId → Prop}
  {watch watch' : Watch} (proper : link.Proper) (surrounds : link.Surrounds old new)
  (pairing : Expr.Pairing kept roots ids ids') (part : ids ⊆ old.ids) (part' : ids' ⊆ new.ids)
  (enters : StepsIn (fun h => ∃ h', link.holes h h') old.ids link.watch watch state after)
  (enters' : StepsIn (fun h' => ∃ h, link.holes h h') new.ids link.watch' watch' state' after')

include surrounds in
theorem Link.Surrounds.outside {a b : NodeId} (linked : link.nodes a b) (different : a ≠ old.id) :
    a ∉ old.ids ∧ b ∉ new.ids :=
  ⟨fun inside => different (surrounds.alone linked (Or.inl inside)).1,
    fun inside => different (surrounds.alone linked (Or.inr inside)).1⟩

include surrounds in
theorem Link.Surrounds.linked_inside {a b : NodeId} (member : a ∈ old.ids)
    (linked : (link.inside old.id kept roots watch watch').nodes a b) : kept a b ∨ roots a b := by
  rcases linked with ⟨outer, other⟩ | pair
  · exact ((surrounds.outside outer other).1 member).elim
  · exact pair

include surrounds part part' in
theorem Link.Surrounds.inside (unwatched : ∀ {id}, id ∈ ids → ¬ watch.nodes id)
    (unwatched' : ∀ {id}, id ∈ ids' → ¬ watch'.nodes id) {first second : Expr}
    (rooted : Expr.Rooted kept roots ids ids' first second) :
    (link.inside old.id kept roots watch watch').Surrounds first second where
  root := Or.inr (Or.inr rooted.root)
  alone := by
    rintro a b (⟨linked, other⟩ | pair | pair) member
    · obtain ⟨outer, outer'⟩ := surrounds.outside linked other
      exact member.elim (fun member => (outer (part (rooted.inside member))).elim)
        fun member => (outer' (part' (rooted.inside' member))).elim
    · exact member.elim (fun member => ((rooted.apart pair).1 member).elim)
        fun member => ((rooted.apart pair).2 member).elim
    · exact rooted.alone pair member
  unwatched member := unwatched (rooted.inside member)
  unwatched' member := unwatched' (rooted.inside' member)

include proper surrounds pairing part part' enters enters' in
theorem Link.Proper.inside :
    (link.inside old.id kept roots watch watch').Proper where
  left := by
    rintro a b b' (⟨linked, other⟩ | pair) (⟨linked', other'⟩ | pair')
    · exact proper.left linked linked'
    · exact ((surrounds.outside linked other).1 (part (pairing.inside pair').1)).elim
    · exact ((surrounds.outside linked' other').1 (part (pairing.inside pair).1)).elim
    · exact pairing.left pair pair'
  right := by
    rintro a a' b (⟨linked, other⟩ | pair) (⟨linked', other'⟩ | pair')
    · exact proper.right linked linked'
    · exact ((surrounds.outside linked other).2 (part' (pairing.inside pair').2)).elim
    · exact ((surrounds.outside linked' other').2 (part' (pairing.inside pair).2)).elim
    · exact pairing.right pair pair'
  marked := proper.marked
  holes_left := proper.holes_left
  holes_right := proper.holes_right
  watch := enters.proper
  watch' := enters'.proper
  free hole := enters.free (Or.inr ⟨rfl, (proper.marked hole).1⟩) (proper.free hole)
  free' hole := enters'.free (Or.inr ⟨rfl, (proper.marked hole).2⟩) (proper.free' hole)

theorem HeadsMatch.inside (matched : HeadsMatch link heads) (root : NodeId)
    (kept roots : NodeId → NodeId → Prop) (grows : link.watch.Grows watch)
    (grows' : link.watch'.Grows watch') :
    HeadsMatch (link.inside root kept roots watch watch') heads where
  watched head := (matched.watched head).imp grows.nodes grows'.nodes
  same head := by
    show Matching (watch.past.effects.get? _) (watch'.past.effects.get? _)
    rw [grows.kept.effects (matched.watched head).1, grows'.kept.effects (matched.watched head).2]
    exact matched.same head
  apart head := by
    show Spares (watch.past.effects.get? _) _
    rw [grows.kept.effects (matched.watched head).1]
    exact fun _ found _ used marked held =>
      matched.apart head found used marked (held.imp_right grows.stored.mp)
  apart' head := by
    show Spares (watch'.past.effects.get? _) _
    rw [grows'.kept.effects (matched.watched head).2]
    exact fun _ found _ used marked held =>
      matched.apart' head found used marked (held.imp_right grows'.stored.mp)

include proper surrounds pairing enters enters' in
theorem Mirror.enter (mirror : Mirror link ρ V state state') (unseen : Unseen ids after)
    (unseen' : Unseen ids' after') :
    Mirror (link.inside old.id kept roots watch watch') ρ V after after' := by
  refine mirror.relink Iff.rfl enters.tidy enters'.tidy enters.kept enters'.kept enters.order
    enters'.order (fun used free => enters.free (mirror.made_left proper used) free)
    (fun used free => enters'.free ((mirror.named used).made_right proper) free) ?_ ?_
    (fun hole => enters.running ⟨_, hole⟩) (fun hole => enters'.running ⟨_, hole⟩) enters.clean
    enters'.clean
  · rintro a b (⟨linked, other⟩ | pair)
    · obtain ⟨outer, outer'⟩ := surrounds.outside linked other
      rw [enters.outside outer, enters'.outside outer']
      exact mirror.effects linked
    · rw [unseen.effects a (pairing.inside pair).1, unseen'.effects b (pairing.inside pair).2]
      rfl
  · rintro a b effect (⟨linked, other⟩ | pair) recorded
    · exact mirror.within linked (enters.outside (surrounds.outside linked other).1 ▸ recorded)
    · cases (unseen.effects a (pairing.inside pair).1).symm.trans recorded

include surrounds in
/-- Both runs have come to the end of the parts, and the roots have effects that correspond. -/
theorem Mirror.leave {body body' : NodeId} {result : Effect}
    (mirror : Mirror (link.inside old.id kept roots watch watch') ρ V
      state state') (grows : link.watch.Grows watch) (linked : kept body body' ∨ roots body body')
    (found : state.effects.get? body = some result) (clean : state.errors.isEmpty = true)
    (ends : after'.effects.get? new.id = some (result.rename ρ))
    (others : ∀ {b}, b ≠ new.id → after'.effects.get? b = state'.effects.get? b)
    (tidy' : Tidy (fun name => isPlaceholder name = true) after') (kept' : link.watch'.Kept after')
    (order' : state'.fresh ≤ after'.fresh) (grows' : link.watch'.Grows watch')
    (running' : after'.running = state'.running) (errors' : after'.errors = state'.errors) :
    Mirror link ρ V (state.record old.id result) after' := by
  have spelled := mirror.within (Or.inr linked) found
  refine mirror.relink Iff.rfl (mirror.tidy.record old.id (mirror.tidy.canonical found)
      (mirror.tidy.spelled found)) tidy'
    ((grows.kept_of mirror.kept).record (surrounds.unwatched old.id_mem_ids) result) kept'
    (FreshNames.le_refl _) order'
    (fun _ free => ⟨fun frozen => free.1 (grows.frozen frozen),
      fun stored => free.2 (grows.stored.mpr stored)⟩)
    (fun _ free => ⟨fun frozen => free.1 (grows'.frozen frozen),
      fun stored => free.2 (grows'.stored.mpr stored)⟩)
    (fun {a b} pair => ?_) (fun {a b effect} pair recorded => ?_) (fun _ => rfl)
    (fun _ => by rw [running']) clean ?_
  · rw [get?_record]
    by_cases here : old.id = a
    · subst here
      rw [if_pos rfl, (surrounds.alone pair (Or.inl old.id_mem_ids)).2, ends]
      rfl
    · have elsewhere : b ≠ new.id := fun same =>
        here (surrounds.alone pair (Or.inr (same ▸ new.id_mem_ids))).1.symm
      rw [if_neg here, others elsewhere]
      exact mirror.effects (Or.inl ⟨pair, Ne.symm here⟩)
  · rw [get?_record] at recorded
    split at recorded
    · cases recorded
      exact spelled
    · rename_i here
      exact mirror.within (Or.inl ⟨pair, Ne.symm here⟩) recorded
  · rw [errors']
    exact (mirror.clean trivial).trans clean

end Inside

end SpecEffects.Inference
