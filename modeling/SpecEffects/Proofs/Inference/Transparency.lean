import SpecEffects.Proofs.Inference.Detours

/-!
Lets and copies of what they bind. The one run infers the bound expression once and gives each
reference an instance of its effect. The other run infers a copy of the expression in the place of
each reference. If the bound expression depends on definitions without a scope only, or on lets of
which the same is known, and if no effect of these uses placeholders, then both runs mirror each other.
-/
namespace SpecEffects.Inference

open Substitution

variable {link : Link} {ρ : String → String} {V : Vocabulary} {state state' after after' : State}
  {heads : NodeId → Prop} {context context' : Context}

section References

variable {id site : NodeId} {name : String} {definition : NameDefinition} {value copy : Expr}
  {start visible visible' : List NameDefinition} {base : State} {effect : Effect}

theorem inferExpr_reference (resolved : context.resolve name id = .ok (some definition))
    (kind : definition.kind = .operator) (reference : definition.reference = some site)
    (tidy : Tidy (fun name => isPlaceholder name = true) state)
    (found : state.effects.get? site = some effect)
    (unmarked : ∀ {name}, effect.Uses .effect name → isPlaceholder name = false)
    (run : inferExpr context state (.ref id name) = .ok after) :
    after = State.record { state with fresh := (variableBindings effect state.fresh).2 } id
      (effect.rename (freshName effect state.fresh)) := by
  have separate := tidy.separate (fun _ marked => marked) found
  obtain ⟨opened, copied, _⟩ := tidy.instantiate (fun _ marked => marked) (tidy.canonical found)
    separate fun _ _ marked => marked
  have same : opened = { state with fresh := (variableBindings effect state.fresh).2 } := by
    have effects := copied.effects
    have errors := copied.errors
    have fresh := copied.fresh
    have running := copied.running_eq (fun _ => unmarked) tidy.values
    cases opened
    subst effects errors fresh running
    rfl
  rw [inferExpr, inferRef_of_operator resolved kind] at run
  have here := signature?_operator kind reference state context name referenceArity
  rw [found] at here
  rw [inferOperatorRef_of_copy here copied.run] at run
  cases run
  rw [same]

theorem Mirror.number_copy {stored : Vocabulary} {τ : String → String} (proper : link.Proper)
    (mirror : Mirror link ρ V state state')
    (separate : (Vocabulary.usedIn [effect]).Separate)
    (renders : Renders copy state' stored effect τ after') :
    ∃ ρ' V', (∀ {kind name}, V kind name → V' kind name ∧ ρ' name = ρ name) ∧
      (effect.rename (freshName effect state.fresh)).Over V' ∧
      (effect.rename (freshName effect state.fresh)).rename ρ' = effect.rename τ ∧
      Mirror link ρ' V' { state with fresh := (variableBindings effect state.fresh).2 }
        { state' with fresh := after'.fresh } := by
  have injective : (Vocabulary.usedIn [effect]).Injective (freshName effect state.fresh) :=
    freshName_injective state.fresh separate
  obtain ⟨back, inverse⟩ := injective.exists_inverse
  have back_eq : ∀ {kind old}, effect.Uses kind old →
      τ (back (freshName effect state.fresh old)) = τ old := fun used => by
    rw [inverse _ _ (usedIn_singleton.mpr used)]
  obtain ⟨ρ', old_eq, new_eq, moved⟩ := mirror.extend proper
    (fun kind name => ∃ old, effect.Uses kind old ∧ freshName effect state.fresh old = name)
    (fun name => τ (back name)) (le_variableBindings effect state.fresh) renders.order
    (by
      rintro kind _ ⟨old, used, rfl⟩
      obtain ⟨n, above, below, eq⟩ := freshName_named state.fresh separate used
      obtain ⟨n', above', below', eq'⟩ := renders.numbers used
      exact ⟨n, n', above, below, above', below', eq, (back_eq used).trans eq'⟩)
    (by
      rintro kind kind' _ _ ⟨old, used, rfl⟩ ⟨old', used', rfl⟩ same
      have images := (back_eq used).symm.trans (same.trans (back_eq used'))
      rw [renders.injective (usedIn_singleton.mpr used) (usedIn_singleton.mpr used') images])
  refine ⟨ρ', _, fun used => ⟨Or.inl used, old_eq used⟩, fun kind name used => ?_, ?_, moved⟩
  · obtain ⟨old, before, same⟩ := Effect.uses_rename.mp used
    exact Or.inr ⟨old, before, same⟩
  · rw [Effect.rename_rename]
    exact Effect.rename_congr fun kind old used => (new_eq ⟨old, used, rfl⟩).trans (back_eq used)

theorem simulates_reference (proper : link.Proper) (alert : link.alert)
    (matched : HeadsMatch link heads) (surrounds : link.Surrounds (.ref id name) copy)
    (spares : ∀ {h h'}, link.holes h h' → Elsewhere copy.ids h')
    (bare : ∀ {kind name}, ¬ link.watch'.stored kind name)
    (resolved : context.resolve name id = .ok (some definition))
    (kind : definition.kind = .operator) (reference : definition.reference = some site)
    (watched : link.watch.nodes site) (known : link.watch.past.effects.get? site = some effect)
    (sample : Sample heads context start visible base value effect)
    (early : ∀ {site}, heads site →
      base.effects.get? site = link.watch.past.effects.get? site)
    (globals : SameGlobals context context' start heads) (copied : value.Copy copy)
    (standalone : Standalone heads context' start visible' value.freeNames copy) :
    Simulates link True context context' (.ref id name) copy := by
  intro ρ V state state' after mirror closely run
  obtain ⟨_, unseen, clean⟩ := closely trivial
  have found := (mirror.kept.effects watched).trans known
  obtain rfl := inferExpr_reference resolved kind reference mirror.tidy found sample.unmarked run
  have clean' : state'.errors.isEmpty = true := (mirror.clean alert).trans clean
  obtain ⟨τ, after', run', renders⟩ := sample.infer globals (fun head => by
    rw [early head, mirror.kept'.effects (matched.watched head).2]
    exact matched.same head) copied standalone unseen clean' (mirror.steady' spares)
    (matched.spare' mirror)
  obtain ⟨ρ', V', old, spelled, same, moved⟩ := mirror.number_copy proper
    (mirror.tidy.separate (fun _ marked => marked) found) renders
  refine ⟨ρ', V', after', run', ?_⟩
  have unwatched : ¬ link.watch.nodes id := surrounds.unwatched (Expr.id_mem_ids (.ref id name))
  have elsewhere : ∀ {a b}, link.nodes a b → a ≠ id → b ∉ copy.ids := fun linked different inside =>
    different (surrounds.alone linked (Or.inr inside)).1
  have whole : ∀ {b}, link.nodes id b → b = copy.id := fun linked =>
    (surrounds.alone linked (Or.inl (Expr.id_mem_ids (.ref id name)))).2
  refine moved.relink Iff.rfl
    (moved.tidy.record id (Effect.canonical_rename _ _) fun kind name used =>
      moved.made_left proper (spelled kind name used))
    renders.tidy (moved.kept.record unwatched _) ⟨moved.kept'.old, fun {b} watched => ?_,
      fun {b} watched => ?_, fun stored => (bare stored).elim⟩ (FreshNames.le_refl _) (FreshNames.le_refl _)
    (fun _ free => free) (fun _ free => free) (fun {a b} linked => ?_) (fun {a b found} linked recorded => ?_)
    (fun _ => rfl) (fun {h h'} hole => ?_) clean renders.clean
  · have outside : b ∉ copy.ids := fun inside => surrounds.unwatched' inside watched
    exact (renders.kept.effects outside).trans (mirror.kept'.effects watched)
  · rw [← mirror.kept'.errors watched, SortedMap.get?_of_isEmpty renders.clean,
      SortedMap.get?_of_isEmpty clean']
  · rw [get?_record]
    by_cases here : id = a
    · subst here
      rw [if_pos rfl, whole linked, renders.found, ← same]
      rfl
    · rw [if_neg here, renders.kept.effects (elsewhere linked (Ne.symm here))]
      exact moved.effects linked
  · rw [get?_record] at recorded
    split at recorded
    · cases recorded
      exact spelled
    · exact moved.within linked recorded
  · obtain ⟨used, same⟩ := mirror.holes hole
    exact renders.kept.values ⟨h, used, same⟩ (proper.marked hole).2

end References

section Parts

variable {letId site : NodeId} {name : String} {value body : Expr}

theorem ids_subset_let : value.ids ⊆ (Expr.letIn letId site name value body).ids ∧
    body.ids ⊆ (Expr.letIn letId site name value body).ids ∧
    site ∈ (Expr.letIn letId site name value body).ids := by
  rw [Expr.ids_letIn]
  exact ⟨List.subset_cons_of_subset _ (List.subset_cons_of_subset _ (List.subset_append_left _ _)),
    List.subset_cons_of_subset _ (List.subset_cons_of_subset _ (List.subset_append_right _ _)),
    List.mem_cons_of_mem _ List.mem_cons_self⟩

theorem nodup_of_let (nodup : (Expr.letIn letId site name value body).ids.Nodup) :
    value.ids.Nodup ∧ body.ids.Nodup ∧ value.ids.Disjoint body.ids ∧ site ∉ body.ids := by
  rw [Expr.ids_letIn] at nodup
  obtain ⟨different, nodup⟩ := List.nodup_cons.mp (List.nodup_cons.mp nodup).2
  obtain ⟨values, bodies, apart⟩ := List.nodup_append'.mp nodup
  exact ⟨values, bodies, apart, fun inside => different (List.mem_append_right _ inside)⟩

theorem unseen_let_body {defined : State} (plain : Plain context.signatures)
    (nodup : (Expr.letIn letId site name value body).ids.Nodup)
    (unseen : Unseen (Expr.letIn letId site name value body).ids state)
    (run : inferExpr context state value = .ok defined) :
    Unseen body.ids (defined.copyEffect site value.id) := by
  rw [Expr.ids_letIn] at nodup unseen
  exact unseen_body plain nodup unseen run

theorem stages_of_let (plain : Plain context.signatures)
    (nodup : (Expr.letIn letId site name value body).ids.Nodup)
    (unseen : Unseen (Expr.letIn letId site name value body).ids state)
    (run : inferExpr context state (.letIn letId site name value body) = .ok after)
    (clean : after.errors.isEmpty = true) :
    ∃ defined last result, inferExpr context state value = .ok defined ∧
      Unseen body.ids (defined.copyEffect site value.id) ∧
      inferExpr context (defined.copyEffect site value.id) body = .ok last ∧
      last.errors.isEmpty = true ∧ last.effects.get? body.id = some result ∧
      after = last.record letId result := by
  simp only [inferExpr, bind_eq_ok] at run
  obtain ⟨defined, first, last, second, closing⟩ := run
  have ready := unseen_let_body plain nodup unseen first
  have leaves := inferExpr_leaves plain (ready.mono (List.nil_subset _))
    (fun _ _ => List.not_mem_nil) second
  have calm := (leaves_closeLet leaves.unseen List.not_mem_nil closing).clean clean
  cases closeLet_step closing with
  | @closed result _ found =>
    exact ⟨defined, last, result, first, ready, second, calm, found, rfl⟩
  | skipped failed => cases calm.symm.trans failed

end Parts

/-- Two runs come to a part, which is `old` in the one and `new` in the other. Names that are not in
the way mean what they mean at the start, where operators have the same effects up to renamings. The
placeholders of tied nodes are holes, and there are no other holes inside of the part. -/
structure Meets (link : Link) (heads : NodeId → Prop) (tied sites : NodeId → NodeId → Prop)
    (context context' : Context) (start : List NameDefinition) (names : List String)
    (visible visible' : List NameDefinition) (old new : Expr) : Prop where
  proper : link.Proper
  alert : link.alert
  surrounds : link.Surrounds old new
  still : ∀ {kind name}, ¬ link.watch.stored kind name
  still' : ∀ {kind name}, ¬ link.watch'.stored kind name
  ties : ∀ {a b} (param : String), tied a b → link.holes (placeholder param a) (placeholder param b)
  holes : ∀ {h h'}, link.holes h h' → ∃ param a b, (tied a b ∨ a ∉ old.ids ∧ b ∉ new.ids) ∧
    h = placeholder param a ∧ h' = placeholder param b
  globals : SameGlobals context context' start heads
  matched : HeadsMatch link heads
  outside : ∀ {head}, heads head → head ∉ old.ids ∧ head ∉ new.ids
  known : ∀ {name}, name ∉ names →
    context.table.meaning visible name = context.table.meaning start name
  known' : ∀ {name}, name ∉ names →
    context'.table.meaning visible' name = context'.table.meaning start name
  sees : ∀ name, Agree (link.within sites) context context' name
    (context.table.meaning visible name) (context'.table.meaning visible' name)
  firm : ∀ {a b}, sites a b → link.nodes a b ∧ a ≠ old.id
  placed : Placed Expr.binders context visible old
  placed' : Placed Expr.binders context' visible' new
  nodup : old.ids.Nodup
  nodup' : new.ids.Nodup

structure Prepared (link : Link) (heads : NodeId → Prop) (part : Expr) (base : State) : Prop where
  unseen : Unseen part.ids base
  clean : base.errors.isEmpty = true
  same : ∀ {head}, heads head →
    Matching (base.effects.get? head) (link.watch.past.effects.get? head)

section Lets

variable {letId site : NodeId} {name : String} {value body new : Expr} {names : List String}
  {tied sites kept roots : NodeId → NodeId → Prop} {start visible visible' : List NameDefinition}
  {base late : State} {effect : Effect} {watch watch' : Watch}

theorem meaning_binders (table : NameTable) (letId site : NodeId) {name other : String}
    (value body : Expr) (different : other ≠ name) (visible : List NameDefinition) :
    table.meaning ((Expr.letIn letId site name value body).binders ++ visible) other =
      table.meaning visible other :=
  table.meaning_append (by simpa [Expr.binders] using Ne.symm different) visible

theorem standalone_of_let
    (placed : Placed Expr.binders context visible (.letIn letId site name value body))
    (known : ∀ {name}, name ∉ names →
      context.table.meaning visible name = context.table.meaning start name)
    (free : ∀ used ∈ value.freeNames, used ∉ name :: names)
    (outside : ∀ {head}, heads head → head ∉ (Expr.letIn letId site name value body).ids)
    (nodup : (Expr.letIn letId site name value body).ids.Nodup) :
    Standalone heads context start ((Expr.letIn letId site name value body).binders ++ visible)
      value.freeNames value := by
  refine ⟨placed.let_parts.1, fun {used} member => ?_,
    fun head inside => outside head (ids_subset_let.1 inside), (nodup_of_let nodup).1⟩
  obtain ⟨different, unbound⟩ := not_or.mp (List.mem_cons.not.mp (free used member))
  rw [meaning_binders context.table letId site value body different]
  exact known unbound

section Holes

variable {old : Expr} {ids : List NodeId} {h h' : String}
  (meets : Meets link heads tied sites context context' start names visible visible' old new)
  (hole : link.holes h h')

include meets hole

theorem Meets.elsewhere (part : ids ⊆ old.ids) (apart : ∀ {a b}, tied a b → a ∉ ids) :
    Elsewhere ids h := by
  obtain ⟨param, a, b, pair | ⟨outer, _⟩, rfl, rfl⟩ := meets.holes hole
  · exact elsewhere_placeholder (apart pair) param
  · exact elsewhere_placeholder (fun inside => outer (part inside)) param

theorem Meets.elsewhere' (part : ids ⊆ new.ids) (apart : ∀ {a b}, tied a b → b ∉ ids) :
    Elsewhere ids h' := by
  obtain ⟨param, a, b, pair | ⟨_, outer⟩, rfl, rfl⟩ := meets.holes hole
  · exact elsewhere_placeholder (apart pair) param
  · exact elsewhere_placeholder (fun inside => outer (part inside)) param

end Holes

section Bound

variable (meets : Meets link heads tied sites context context' start names visible visible'
    (.letIn letId site name value body) new)
  (free : ∀ used ∈ value.freeNames, used ∉ name :: names)
  (inside : ∀ {a b}, tied a b → a ∈ body.ids)

include meets

include inside in
theorem Meets.infer_bound
    (sample : Sample heads context start ((Expr.letIn letId site name value body).binders ++ visible)
      base value effect)
    (same : ∀ {head}, heads head →
      Matching (base.effects.get? head) (link.watch.past.effects.get? head))
    (mirror : Mirror link ρ V state state') (unseen : Unseen value.ids state)
    (clean : state.errors.isEmpty = true) {defined : State}
    (run : inferExpr context state value = .ok defined) :
    ∃ τ, Renders value state V effect τ defined := by
  obtain ⟨τ, other, run', renders⟩ := sample.infer meets.globals.self
    (fun head => by
      rw [mirror.kept.effects (meets.matched.watched head).1]
      exact same head)
    (.refl (fun _ => trivial) (fun _ _ => trivial) [] value) sample.standalone unseen clean
    (mirror.steady fun hole => meets.elsewhere hole ids_subset_let.1 fun pair early =>
      (nodup_of_let meets.nodup).2.2.1 early (inside pair))
    (meets.matched.spare mirror)
  cases run.symm.trans run'
  exact ⟨τ, renders⟩

include free in
theorem Meets.sample (unseen : Unseen value.ids state) (clean : state.errors.isEmpty = true)
    (run : inferExpr context state value = .ok after)
    (found : after.effects.get? value.id = some effect)
    (unmarked : ∀ {name}, effect.Uses .effect name → isPlaceholder name = false) :
    Sample heads context start ((Expr.letIn letId site name value body).binders ++ visible) state value
      effect :=
  ⟨standalone_of_let meets.placed meets.known free (fun head => (meets.outside head).1) meets.nodup,
    unseen, clean, ⟨after, run, found⟩, unmarked⟩

include free inside in
/-- How the let is inferred where there are no errors in the end: first its bound expression, with the
effect that it has in the prepared state under new names, and then its body. -/
theorem Meets.stages (prepared : Prepared link heads (.letIn letId site name value body) base)
    (given : inferExpr context base value = .ok late)
    (found : late.effects.get? value.id = some effect)
    (unmarked : ∀ {name}, effect.Uses .effect name → isPlaceholder name = false)
    (mirror : Mirror link ρ V state state')
    (unseen : Unseen (Expr.letIn letId site name value body).ids state)
    (run : inferExpr context state (.letIn letId site name value body) = .ok after)
    (clean : after.errors.isEmpty = true) :
    ∃ τ defined last result, Renders value state V effect τ defined ∧
      Sample heads context start ((Expr.letIn letId site name value body).binders ++ visible) state
        value (effect.rename τ) ∧
      Unseen body.ids (defined.record site (effect.rename τ)) ∧
      inferExpr context (defined.record site (effect.rename τ)) body = .ok last ∧
      last.errors.isEmpty = true ∧ last.effects.get? body.id = some result ∧
      after = last.record letId result := by
  have plain : Plain context.signatures := meets.globals.plain
  have calm := inferExpr_clean plain unseen run clean
  obtain ⟨defined, last, result, first, ready, second, clean_body, closed, rfl⟩ :=
    stages_of_let plain meets.nodup unseen run clean
  have early := unseen.mono (@ids_subset_let letId site name value body).1
  have sample := meets.sample free (prepared.unseen.mono ids_subset_let.1) prepared.clean given found
    unmarked
  obtain ⟨τ, renders⟩ := meets.infer_bound inside sample prepared.same mirror early calm first
  rw [renders.copyEffect] at ready second
  exact ⟨τ, defined, last, result, renders,
    meets.sample free early calm first renders.found renders.unmarked, ready, second, clean_body, closed,
    rfl⟩

theorem Meets.stepsIn {τ : String → String} {defined : State} (mirror : Mirror link ρ V state state')
    (clean : state.errors.isEmpty = true) (renders : Renders value state V effect τ defined) :
    StepsIn (fun h => ∃ h', link.holes h h') (Expr.letIn letId site name value body).ids link.watch
      (link.watch.add (defined.record site (effect.rename τ)) site (effect.rename τ)) state
      (defined.record site (effect.rename τ)) := by
  refine renders.stepsIn meets.proper.watch mirror.kept clean meets.still meets.surrounds.unwatched
    ids_subset_let.1 ids_subset_let.2.2 ?_
  rintro h ⟨h', hole⟩
  exact ⟨(mirror.holes hole).1, (meets.proper.marked hole).1⟩

theorem Meets.covers {ids' : List NodeId} (pairing : Expr.Pairing kept roots body.ids ids')
    (ties : ∀ {a b}, kept a b → tied a b)
    (unwatched : ∀ {id}, id ∈ body.ids → ¬ watch.nodes id)
    (unwatched' : ∀ {id}, id ∈ ids' → ¬ watch'.nodes id) :
    Covers (link.inside letId kept roots watch watch') (fun a b => sites a b ∨ kept a b) kept := by
  refine ⟨fun pair => ⟨Or.inr (Or.inl pair), unwatched (pairing.inside (Or.inl pair)).1,
    unwatched' (pairing.inside (Or.inl pair)).2⟩, fun param pair => meets.ties param (ties pair),
    Or.inr, ?_⟩
  rintro a b (outer | pair)
  · exact Or.inl (meets.firm outer)
  · exact Or.inr (Or.inl pair)

theorem Meets.sees_inside (kept roots : NodeId → NodeId → Prop) (grows : link.watch.Grows watch)
    (grows' : link.watch'.Grows watch') (other : String) :
    Agree ((link.inside letId kept roots watch watch').within fun a b => sites a b ∨ kept a b) context
      context' other (context.table.meaning visible other) (context'.table.meaning visible' other) := by
  have refines : (link.within sites).Refines
      ((link.inside letId kept roots watch watch').within fun a b => sites a b ∨ kept a b) :=
    ⟨Or.inl, Iff.rfl, grows.stored.mp, grows'.stored.mp,
      fun held => ⟨grows.nodes held, grows.kept.effects held⟩,
      fun held => ⟨grows'.nodes held, grows'.kept.effects held⟩⟩
  exact refines.agree (meets.sees other)

end Bound

theorem unwatched_body {past : State}
    (nodup : (Expr.letIn letId site name value body).ids.Nodup)
    (unwatched : ∀ {id}, id ∈ (Expr.letIn letId site name value body).ids → ¬ watch.nodes id)
    {id : NodeId} (inside : id ∈ body.ids) : ¬ (watch.add past site effect).nodes id := by
  rintro (held | rfl)
  · exact unwatched (ids_subset_let.2.1 inside) held
  · exact (nodup_of_let nodup).2.2.2 inside

theorem Meets.handles_inlined
    (meets : Meets link heads kept sites context context' start names visible visible'
      (.letIn letId site name value body) new)
    (free : ∀ used ∈ value.freeNames, used ∉ name :: names)
    (proper : (link.inside letId kept roots watch watch').Proper)
    (matched : HeadsMatch (link.inside letId kept roots watch watch') heads)
    (unwatched : ∀ {id}, id ∈ body.ids → ¬ watch.nodes id)
    (unwatched' : ∀ {id}, id ∈ new.ids → ¬ watch'.nodes id)
    (bare : ∀ {kind name}, ¬ watch'.stored kind name)
    (watched : watch.nodes site) (recorded : watch.past.effects.get? site = some effect)
    (sample : Sample heads context start ((Expr.letIn letId site name value body).binders ++ visible)
      state value effect)
    (early : ∀ {head}, heads head → state.effects.get? head = watch.past.effects.get? head)
    (inner : NodeId → NodeId → Prop) :
    Handles (link.inside letId kept roots watch watch') inner True context context'
      (Expr.Spares name)
      (fun bound part copy => Expr.Inlines name value bound part copy ∧
        Expr.Rooted kept roots body.ids new.ids part copy)
      ((Expr.letIn letId site name value body).binders ++ visible) visible' Expr.binders := by
  rintro bound seen seen' _ copy ⟨⟨⟨id, rfl⟩, unbound, copied, uncaptured⟩, rooted⟩ views placed
    placed' tractable
  have around := meets.surrounds.inside ids_subset_let.2.1 (List.Subset.refl new.ids) unwatched
    unwatched' rooted
  have means : context.table.meaning seen name =
      some ⟨.operator, name, some site, some letId⟩ := by
    rw [views.outer unbound]
    exact context.table.meaning_of_found (by simp [Expr.binders]) visible
  have spares : ∀ {h h'}, link.holes h h' → Elsewhere copy.ids h' := fun hole =>
    meets.elsewhere' hole rooted.inside' fun pair => (rooted.apart pair).2
  refine ⟨around.root, simulates_reference proper trivial matched around spares bare
    (means ▸ placed.resolve_ref) rfl rfl watched recorded sample early meets.globals copied
    ⟨placed', fun {used} member => ?_, fun head inside => (meets.outside head).2 (rooted.inside' inside),
      (tractable trivial).nodup'⟩⟩
  rw [views.outer' (uncaptured _ member)]
  exact meets.known' fun bound => free used member (List.mem_cons_of_mem _ bound)

theorem Meets.simulates_inlined {entered entered' : State}
    (meets : Meets link heads kept sites context context' start names visible visible'
      (.letIn letId site name value body) new)
    (free : ∀ used ∈ value.freeNames, used ∉ name :: names)
    (pairing : Expr.Pairing kept roots body.ids new.ids)
    (inlined : Expr.Paired (Expr.Spares name) (Expr.Inlines name value) kept roots body.ids new.ids []
      body new)
    (steps : StepsIn (fun h => ∃ h', link.holes h h') (Expr.letIn letId site name value body).ids
      link.watch watch state entered)
    (steps' : StepsIn (fun h' => ∃ h, link.holes h h') new.ids link.watch' watch' state' entered')
    (unwatched : ∀ {id}, id ∈ body.ids → ¬ watch.nodes id)
    (unwatched' : ∀ {id}, id ∈ new.ids → ¬ watch'.nodes id)
    (watched : watch.nodes site) (recorded : watch.past.effects.get? site = some effect)
    (sample : Sample heads context start ((Expr.letIn letId site name value body).binders ++ visible)
      state value effect)
    (early : ∀ {head}, heads head → state.effects.get? head = watch.past.effects.get? head) :
    (link.inside letId kept roots watch watch').nodes body.id new.id ∧
      Simulates (link.inside letId kept roots watch watch') True context context' body new := by
  have proper := meets.proper.inside meets.surrounds pairing ids_subset_let.2.1 (List.Subset.refl _)
    steps steps'
  have matched := meets.matched.inside letId kept roots steps.grows steps'.grows
  have views : Views (link.inside letId kept roots watch watch')
      (fun a b => sites a b ∨ kept a b) context context' (Expr.Spares name)
      ((Expr.letIn letId site name value body).binders ++ visible) visible' []
      ((Expr.letIn letId site name value body).binders ++ visible) visible' := by
    refine ⟨fun {other} keeps => ?_, fun _ => rfl, fun _ => rfl⟩
    have different : other ≠ name := keeps.resolve_right List.not_mem_nil
    rw [meaning_binders context.table letId site value body different]
    exact meets.sees_inside kept roots steps.grows steps'.grows other
  exact simulates_alike proper trivial
    (meets.covers pairing (fun pair => pair) unwatched unwatched') (opens_own Expr.Spares.narrow)
    (meets.handles_inlined free proper matched unwatched unwatched'
      (fun stored => meets.still' (steps'.grows.stored.mp stored)) watched recorded sample early _)
    inlined views meets.placed.let_parts.2 meets.placed'
    fun _ => ⟨meets.globals.plain, meets.globals.self'.plain, (nodup_of_let meets.nodup).2.1, meets.nodup'⟩

/-- A let is inferred in the one run, and in the other run its body with copies of the bound
expression. -/
theorem simulates_let
    (meets : Meets link heads kept sites context context' start names visible visible'
      (.letIn letId site name value body) new)
    (prepared : Prepared link heads (.letIn letId site name value body) base)
    (free : ∀ used ∈ value.freeNames, used ∉ name :: names)
    (given : inferExpr context base value = .ok late)
    (found : late.effects.get? value.id = some effect)
    (unmarked : ∀ {name}, effect.Uses .effect name → isPlaceholder name = false)
    (pairing : Expr.Pairing kept roots body.ids new.ids)
    (inlined : Expr.Paired (Expr.Spares name) (Expr.Inlines name value) kept roots body.ids new.ids []
      body new) :
    Simulates link True context context' (.letIn letId site name value body) new := by
  intro ρ V state state' after mirror closely run
  obtain ⟨unseen, unseen', clean⟩ := closely trivial
  obtain ⟨τ, defined, last, result, renders, sample, ready, second, clean_body, closed, rfl⟩ :=
    meets.stages free (fun pair => (pairing.inside (Or.inl pair)).1) prepared given found unmarked
      mirror unseen run clean
  have steps := meets.stepsIn mirror sample.clean renders
  have steps' : StepsIn (fun h' => ∃ h, link.holes h h') new.ids link.watch'
      (link.watch'.since state') state' state' :=
    stepsIn_here meets.proper.watch' mirror.kept' mirror.tidy'
      ((mirror.clean meets.alert).trans sample.clean)
  obtain ⟨linked, simulates⟩ := meets.simulates_inlined free pairing inlined steps steps'
    (unwatched_body meets.nodup meets.surrounds.unwatched) meets.surrounds.unwatched' (Or.inr rfl)
    (get?_record_self _ _ _) sample (fun head => (steps.outside (meets.outside head).1).symm)
  obtain ⟨ρ', V', last', second', mirrored⟩ := simulates
    (mirror.enter meets.proper meets.surrounds pairing steps steps' ready unseen')
    (fun _ => ⟨ready, unseen', clean_body⟩) second
  have root := meets.surrounds.linked_inside (ids_subset_let.2.1 body.id_mem_ids) linked
  have ends : last'.effects.get? new.id = some (result.rename ρ') := by
    rw [mirrored.effects linked, closed]
    rfl
  exact ⟨ρ', V', last', second', mirrored.leave meets.surrounds steps.grows root closed clean_body ends
    (fun _ => rfl) mirrored.tidy' (steps'.grows.kept_of mirrored.kept') (FreshNames.le_refl _)
    steps'.grows rfl rfl⟩

end Lets

end SpecEffects.Inference
