import SpecEffects.Proofs.Inference.Alike

/-!
States that are similar: the operators of modules have the same effects up to renamings, a renaming
for each of them. Nothing else is said about what has been found out, so two runs can be compared one
declaration after the other, whatever names they have made up.

An expression that has not been met is inferred alike from similar states, and changes nothing that
has been recorded for other nodes.
-/
namespace SpecEffects.Inference

open Substitution

theorem placeholder_param {param param' : String} {lambda : NodeId}
    (same : placeholder param lambda = placeholder param' lambda) : param = param' := by
  have chars := congrArg String.toList same
  rw [toList_placeholder, toList_placeholder] at chars
  have inner := List.append_cancel_right chars
  simp only [List.cons.injEq, true_and] at inner
  exact String.ext inner

structure Steady (ids : List NodeId) (state : State) (stored : Vocabulary) : Prop where
  old : ∀ {kind name}, stored kind name → made .empty state.fresh (Elsewhere ids) kind name
  values : ∀ {name value}, stored .effect name → isPlaceholder name = true →
    state.running.get? name = some value → value.Over stored

theorem steady_none (ids : List NodeId) (state : State) : Steady ids state fun _ _ => False :=
  ⟨False.elim, False.elim⟩

/-- From here on only these nodes are inferred. What is recorded for all others is watched. -/
def watchFrom (ids : List NodeId) (state : State) (stored : Vocabulary) : Watch where
  past := state
  nodes id := id ∉ ids
  frozen := made .empty state.fresh (Elsewhere ids)
  stored := stored

section Watching

variable {ids : List NodeId} {state : State} {stored : Vocabulary} (unseen : Unseen ids state)
  (steady : Steady ids state stored)

include unseen steady

theorem watchFrom_proper : (watchFrom ids state stored).Proper where
  effects _ found := ⟨unseen.tidy.canonical found, unseen.tidy.spelled found⟩
  values marked_stored marked found :=
    ⟨unseen.tidy.values _ (mem_of_get? found), steady.values marked_stored marked found⟩

omit unseen in
theorem watchFrom_kept : (watchFrom ids state stored).Kept state where
  old watched := made_mono (FreshNames.le_refl _) (FreshNames.le_refl _) (marked_of_elsewhere ids)
    (watched.elim id steady.old)
  effects _ := rfl
  errors _ := rfl
  values _ _ := rfl

omit unseen in
theorem watchFrom_free {id : NodeId} (inside : id ∈ ids) (param : String) :
    (watchFrom ids state stored).Free .effect (placeholder param id) := by
  have unmade : ¬ made .empty state.fresh (Elsewhere ids) .effect (placeholder param id) := by
    rintro (⟨n, _, _, same⟩ | ⟨_, elsewhere⟩)
    · have marked := isPlaceholder_placeholder param id
      rw [same, not_isPlaceholder_numbered] at marked
      cases marked
    · exact elsewhere.2 ⟨param, id, inside, rfl⟩
  exact ⟨unmade, fun held => unmade (steady.old held)⟩

omit steady in
theorem running_unseen {id : NodeId} (inside : id ∈ ids) (param : String) :
    state.running.get? (placeholder param id) = none := by
  cases found : state.running.get? (placeholder param id) with
  | none => rfl
  | some value =>
    rcases (unseen.tidy.running _ (mem_of_get? found)).1 with ⟨n, _, _, same⟩ | ⟨_, elsewhere⟩
    · have marked := isPlaceholder_placeholder param id
      have numbered_name : placeholder param id = numbered value.kind n := same
      rw [numbered_name, not_isPlaceholder_numbered] at marked
      cases marked
    · exact (elsewhere.2 ⟨param, id, inside, rfl⟩).elim

end Watching

/-- Two expressions with these nodes are inferred from here on. Errors elsewhere matter if both
states have errors or neither has. -/
def between (kept roots tied : NodeId → NodeId → Prop) (ids ids' : List NodeId) (state state' : State)
    (stored stored' : Vocabulary) : Link where
  nodes a b := kept a b ∨ roots a b
  holes h h' := ∃ param a b, tied a b ∧ h = placeholder param a ∧ h' = placeholder param b
  watch := watchFrom ids state stored
  watch' := watchFrom ids' state' stored'
  alert := state'.errors.isEmpty = state.errors.isEmpty

section Between

variable {kept roots tied : NodeId → NodeId → Prop} {ids ids' : List NodeId} {state state' : State}
  {stored stored' : Vocabulary} (pairing : Expr.Pairing kept roots ids ids')
  (ties : Expr.Ties kept tied ids ids')

include pairing ties

theorem between_covers :
    Covers (between kept roots tied ids ids' state state' stored stored') kept kept where
  joins linked := ⟨Or.inl linked, fun outside => outside (pairing.inside (Or.inl linked)).1,
    fun outside => outside (pairing.inside (Or.inl linked)).2⟩
  holes param linked := ⟨param, _, _, ties.part linked, rfl, rfl⟩
  firm := id
  part := Or.inl

variable (unseen : Unseen ids state) (unseen' : Unseen ids' state')
  (steady : Steady ids state stored) (steady' : Steady ids' state' stored')

include unseen unseen' steady steady'

theorem between_proper : (between kept roots tied ids ids' state state' stored stored').Proper where
  left := pairing.left
  right := pairing.right
  marked := by
    rintro h h' ⟨param, a, b, _, rfl, rfl⟩
    exact ⟨isPlaceholder_placeholder param a, isPlaceholder_placeholder param b⟩
  holes_left := by
    rintro h h' k' ⟨param, a, b, linked, rfl, rfl⟩ ⟨param', a', b', linked', same, rfl⟩
    cases placeholder_injective same
    cases placeholder_param same
    rw [ties.left linked linked']
  holes_right := by
    rintro h h' k ⟨param, a, b, linked, rfl, rfl⟩ ⟨param', a', b', linked', rfl, same⟩
    cases placeholder_injective same
    cases placeholder_param same
    rw [ties.right linked linked']
  watch := watchFrom_proper unseen steady
  watch' := watchFrom_proper unseen' steady'
  free := by
    rintro h h' ⟨param, a, b, linked, rfl, rfl⟩
    exact watchFrom_free steady (ties.inside linked).1 param
  free' := by
    rintro h h' ⟨param, a, b, linked, rfl, rfl⟩
    exact watchFrom_free steady' (ties.inside linked).2 param

theorem between_start :
    ∃ ρ, Mirror (between kept roots tied ids ids' state state' stored stored') ρ
      (between kept roots tied ids ids' state state' stored stored').keys state state' := by
  classical
  let link := between kept roots tied ids ids' state state' stored stored'
  have proper : link.Proper := between_proper pairing ties unseen unseen' steady steady'
  let ρ : String → String := fun h => if hole : ∃ h', link.holes h h' then hole.choose else h
  have image : ∀ {h h'}, link.holes h h' → ρ h = h' := by
    intro h h' hole
    have some_hole : ∃ h', link.holes h h' := ⟨h', hole⟩
    show (if hole : ∃ h', link.holes h h' then hole.choose else h) = h'
    rw [dif_pos some_hole]
    exact proper.holes_left some_hole.choose_spec hole
  have loose : ∀ {ids : List NodeId} {state : State}, Unseen ids state →
      Tidy (fun name => isPlaceholder name = true) state := fun unseen =>
    unseen.tidy.mono (marked_of_elsewhere _)
  have missing : ∀ {a b}, link.nodes a b →
      state.effects.get? a = none ∧ state'.effects.get? b = none ∧
        state.errors.get? a = none ∧ state'.errors.get? b = none := by
    intro a b linked
    obtain ⟨inside, inside'⟩ := pairing.inside linked
    exact ⟨unseen.effects a inside, unseen'.effects b inside', unseen.errors a inside,
      unseen'.errors b inside'⟩
  refine ⟨ρ, loose unseen, loose unseen', watchFrom_kept steady, watchFrom_kept steady', ?_, ?_, ?_,
    ?_, ?_, ⟨unseen.tidy.values, unseen'.tidy.values, ?_, ?_⟩, ?_, id⟩
  · rintro kind name ⟨rfl, h', hole⟩
    exact Or.inr ⟨rfl, (image hole).symm ▸ hole⟩
  · intro h h' hole
    exact ⟨⟨rfl, h', hole⟩, image hole⟩
  · rintro kind kind' name name' ⟨_, h, hole⟩ ⟨_, h', hole'⟩ same
    rw [image hole, image hole'] at same
    subst same
    exact proper.holes_right hole hole'
  · intro a b linked
    rw [(missing linked).1, (missing linked).2.1]
    rfl
  · intro a b effect linked found
    cases (missing linked).1.symm.trans found
  · rintro kind name value ⟨rfl, h', hole⟩ found
    obtain ⟨param, a, b, linked, rfl, rfl⟩ := hole
    cases (running_unseen unseen (ties.inside linked).1 param).symm.trans found
  · rintro kind name ⟨rfl, h', hole⟩
    rw [image hole]
    obtain ⟨param, a, b, linked, rfl, rfl⟩ := hole
    rw [running_unseen unseen (ties.inside linked).1,
      running_unseen unseen' (ties.inside linked).2]
    rfl
  · intro a b linked
    rw [(missing linked).2.2.1, (missing linked).2.2.2]

end Between

/-- Nodes that are yet to come are new to both states, and operators have the same effects. -/
structure Similar (heads : NodeId → Prop) (ids ids' : List NodeId) (state state' : State) : Prop where
  unseen : Unseen ids state
  unseen' : Unseen ids' state'
  heads : ∀ {site}, heads site → Matching (state.effects.get? site) (state'.effects.get? site)
  clean : state'.errors.isEmpty = state.errors.isEmpty

variable {heads : NodeId → Prop} {ids ids' : List NodeId} {state state' : State}

theorem Similar.mono (similar : Similar heads ids ids' state state') {fewer fewer' : List NodeId}
    (part : fewer ⊆ ids) (part' : fewer' ⊆ ids') : Similar heads fewer fewer' state state' :=
  ⟨similar.unseen.mono part, similar.unseen'.mono part', similar.heads, similar.clean⟩

def HeadsSpare (heads : NodeId → Prop) (state : State) (stored : Vocabulary) : Prop :=
  ∀ {site}, heads site → Spares (state.effects.get? site) (stored .effect)

theorem spares_unseen (unseen : Unseen ids state) {site : NodeId} {names : String → Prop}
    (spares : Spares (state.effects.get? site) names) :
    Spares (state.effects.get? site) fun name =>
      (∃ param, ∃ a ∈ ids, name = placeholder param a) ∨ names name := by
  rintro effect found name used marked (⟨param, a, inside, rfl⟩ | held)
  · rcases unseen.tidy.spelled found .effect _ used with ⟨n, _, _, same⟩ | ⟨_, elsewhere⟩
    · rw [same, not_isPlaceholder_numbered] at marked
      cases marked
    · exact elsewhere.2 ⟨param, a, inside, rfl⟩
  · exact spares found used marked held

section Tandem

variable {stored stored' : Vocabulary} {expr expr' : Expr}
  (similar : Similar heads expr.ids expr'.ids state state')
  (steady : Steady expr.ids state stored) (steady' : Steady expr'.ids state' stored')
  (spare : HeadsSpare heads state stored) (spare' : HeadsSpare heads state' stored')
  (outside : ∀ {site}, heads site → site ∉ expr.ids ∧ site ∉ expr'.ids)

include similar spare spare' outside in
theorem between_heads {kept roots tied : NodeId → NodeId → Prop}
    (ties : Expr.Ties kept tied expr.ids expr'.ids) :
    HeadsMatch (between kept roots tied expr.ids expr'.ids state state' stored stored') heads where
  watched := outside
  same := similar.heads
  apart head effect found name used marked := by
    rintro (⟨h', param, a, b, linked, rfl, rfl⟩ | held)
    · exact spares_unseen similar.unseen (spare head) found used marked
        (Or.inl ⟨param, a, (ties.inside linked).1, rfl⟩)
    · exact spare head found used marked held
  apart' head effect found name used marked := by
    rintro (⟨h, param, a, b, linked, rfl, rfl⟩ | held)
    · exact spares_unseen similar.unseen' (spare' head) found used marked
        (Or.inl ⟨param, b, (ties.inside linked).2, rfl⟩)
    · exact spare' head found used marked held

variable {context context' : Context} {keeps : List String → String → Prop}
  {swaps : List String → Expr → Expr → Prop} {visible visible' : List NameDefinition}
  {locals : Expr → List NameDefinition} {after : State}
  (views : ∀ {link : Link} {sites : NodeId → NodeId → Prop}, link.Proper → HeadsMatch link heads →
    (∀ {a b}, sites a b → link.nodes a b) →
    Views link sites context context' keeps visible visible' [] visible visible')
  (opens : ∀ (link : Link) (sites : NodeId → NodeId → Prop),
    Opens link sites context context' keeps visible visible' locals)
  (placed : Placed locals context visible expr) (placed' : Placed locals context' visible' expr')
  (tractable : Tractable context context' expr.ids expr'.ids)
  (run : inferExpr context state expr = .ok after)

include similar steady steady' spare spare' outside views opens placed placed' tractable run

theorem infer_paired {close : Prop} (closely : close → after.errors.isEmpty = true)
    {kept roots tied : NodeId → NodeId → Prop}
    (pairing : Expr.Pairing kept roots expr.ids expr'.ids)
    (ties : Expr.Ties kept tied expr.ids expr'.ids)
    (paired : Expr.Paired keeps swaps kept roots expr.ids expr'.ids [] expr expr')
    (handles : Handles (between kept roots tied expr.ids expr'.ids state state' stored stored') kept
      close context context' keeps (fun bound old new => swaps bound old new ∧
        Expr.Rooted kept roots expr.ids expr'.ids old new) visible visible' locals) :
    (kept expr.id expr'.id ∨ roots expr.id expr'.id) ∧
      ∃ ρ V after', inferExpr context' state' expr' = .ok after' ∧
        Mirror (between kept roots tied expr.ids expr'.ids state state' stored stored') ρ V
          after after' := by
  have proper := between_proper pairing ties similar.unseen similar.unseen' steady steady'
  obtain ⟨linked, simulates⟩ := simulates_alike proper similar.clean (between_covers pairing ties)
    (opens _ _) handles paired
    (views proper (between_heads similar spare spare' outside ties) Or.inl) placed placed'
    fun _ => tractable
  obtain ⟨ρ, start⟩ := between_start pairing ties similar.unseen similar.unseen' steady steady'
  exact ⟨linked, simulates start (fun h => ⟨similar.unseen, similar.unseen', closely h⟩) run⟩

theorem infer_alike (alike : Expr.Alike (fun _ _ => True) keeps (fun _ _ _ => False) [] expr expr') :
    ∃ kept roots ρ V after', Expr.Pairing kept roots expr.ids expr'.ids ∧
      (kept expr.id expr'.id ∨ roots expr.id expr'.id) ∧
      inferExpr context' state' expr' = .ok after' ∧
      Mirror (between kept roots kept expr.ids expr'.ids state state' stored stored') ρ V
        after after' := by
  obtain ⟨kept, roots, pairing, paired⟩ := alike.paired tractable.nodup tractable.nodup'
  obtain ⟨linked, ρ, V, after', run', mirror⟩ := infer_paired similar steady steady' spare spare'
    outside views opens placed placed' tractable run False.elim pairing pairing.ties paired
    fun _ _ _ _ _ swapped => swapped.1.elim
  exact ⟨kept, roots, ρ, V, after', pairing, linked, run', mirror⟩

end Tandem

theorem Mirror.matching {link : Link} {ρ : String → String} {V : Vocabulary} (proper : link.Proper)
    (mirror : Mirror link ρ V state state') {id id' : NodeId} (linked : link.nodes id id') :
    Matching (state.effects.get? id) (state'.effects.get? id') := by
  have image := mirror.effects linked
  cases found : state.effects.get? id with
  | none =>
    rw [found] at image
    rw [image]
    exact .none
  | some effect =>
    obtain ⟨found', variant⟩ := mirror.variant_of_linked proper linked found
    rw [found']
    exact .some variant.canonical variant.separate variant.injective

theorem Matching.refl {ids : List NodeId} (unseen : Unseen ids state) (site : NodeId) :
    Matching (state.effects.get? site) (state.effects.get? site) := by
  cases found : state.effects.get? site with
  | none => exact .none
  | some effect =>
    have canonical := unseen.tidy.canonical found
    have same := Matching.some canonical (unseen.tidy.separate (marked_of_elsewhere ids) found)
      (Vocabulary.injective_id _)
    rwa [Effect.rename_id canonical] at same

theorem SameGlobals.views {context context' : Context} {keeps : List String → String → Prop}
    {start visible visible' : List NameDefinition} (globals : SameGlobals context context' start heads)
    (absent : ∀ {name}, keeps [] name →
      context.table.meaning visible name = context.table.meaning start name)
    (absent' : ∀ {name}, keeps [] name →
      context'.table.meaning visible' name = context'.table.meaning start name)
    {link : Link} {sites : NodeId → NodeId → Prop} (proper : link.Proper)
    (matched : HeadsMatch link heads) (part : ∀ {a b}, sites a b → link.nodes a b) :
    Views link sites context context' keeps visible visible' [] visible visible' where
  sees {name} kept := by
    have within : HeadsMatch (link.within sites) heads :=
      ⟨matched.watched, matched.same, matched.apart, matched.apart'⟩
    rw [absent kept, absent' kept]
    exact globals.agree (proper.within part) within name
  outer _ := rfl
  outer' _ := rfl

end SpecEffects.Inference
