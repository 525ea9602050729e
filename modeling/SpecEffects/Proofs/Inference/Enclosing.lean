import SpecEffects.Proofs.Inference.Transparency

/-!
Lets that are kept around the one that is replaced. Both runs infer the bound expression of such a let
and find the same effect up to a renaming, and from there on the name of the let is like a definition
without a scope. The induction is on the lets, from the outside to the one that is replaced.
-/
namespace SpecEffects.Inference

variable {link : Link} {ρ : String → String} {V : Vocabulary} {state state' after after' : State}
  {heads : NodeId → Prop} {context context' : Context}

/-- The bound expressions have effects without placeholders, when they are inferred one after another
and the effect of each is recorded at the name. -/
inductive Settles (context : Context) : State → List (NodeId × Expr) → Prop
  | nil {state : State} : Settles context state []
  | cons {state late : State} {site : NodeId} {value : Expr} {effect : Effect}
    {lets : List (NodeId × Expr)} (run : inferExpr context state value = .ok late)
    (found : late.effects.get? value.id = some effect)
    (unmarked : ∀ name, effect.Uses .effect name → isPlaceholder name = false)
    (rest : Settles context (late.record site effect) lets) :
    Settles context state ((site, value) :: lets)

theorem HeadsMatch.bind {site : NodeId} {effect effect' : Effect} (matched : HeadsMatch link heads)
    (watched : link.watch.nodes site ∧ link.watch'.nodes site)
    (found : link.watch.past.effects.get? site = some effect)
    (found' : link.watch'.past.effects.get? site = some effect')
    (same : Matching (some effect) (some effect'))
    (unmarked : ∀ {name}, effect.Uses .effect name → isPlaceholder name = false)
    (unmarked' : ∀ {name}, effect'.Uses .effect name → isPlaceholder name = false) :
    HeadsMatch link fun id => heads id ∨ id = site := by
  have spares : ∀ {effect : Effect} {names : String → Prop},
      (∀ {name}, effect.Uses .effect name → isPlaceholder name = false) →
      Spares (some effect) names := by
    rintro effect names unmarked _ same name used marked _
    cases same
    cases (unmarked used).symm.trans marked
  constructor <;> rintro id (head | rfl)
  · exact matched.watched head
  · exact watched
  · exact matched.same head
  · rw [found, found']
    exact same
  · exact matched.apart head
  · rw [found]
    exact spares unmarked
  · exact matched.apart' head
  · rw [found']
    exact spares unmarked'

/-- Nodes that are kept around a part or inside of it. They are put together only where those around
the part are apart from it. -/
def Tied (kept inner : NodeId → NodeId → Prop) (old new : Expr) (a b : NodeId) : Prop :=
  kept a b ∨ (∀ {a b}, kept a b → a ∉ old.ids ∧ b ∉ new.ids) ∧ inner a b

theorem ties_tied {kept roots kept₂ inner : NodeId → NodeId → Prop} {old new : Expr}
    {ids ids' : List NodeId} (pairing : Expr.Pairing kept roots ids ids')
    (within : Expr.Ties kept₂ inner old.ids new.ids) (part : old.ids ⊆ ids) (part' : new.ids ⊆ ids') :
    Expr.Ties kept (Tied kept inner old new) ids ids' where
  part := Or.inl
  inside := by
    rintro a b (pair | ⟨_, pair⟩)
    · exact pairing.inside (Or.inl pair)
    · exact (within.inside pair).imp (fun member => part member) fun member => part' member
  left := by
    rintro a b b' (pair | ⟨apart, pair⟩) (pair' | ⟨apart', pair'⟩)
    · exact pairing.left (Or.inl pair) (Or.inl pair')
    · exact ((apart' pair).1 (within.inside pair').1).elim
    · exact ((apart pair').1 (within.inside pair).1).elim
    · exact within.left pair pair'
  right := by
    rintro a a' b (pair | ⟨apart, pair⟩) (pair' | ⟨apart', pair'⟩)
    · exact pairing.right (Or.inl pair) (Or.inl pair')
    · exact ((apart' pair).2 (within.inside pair').2).elim
    · exact ((apart pair').2 (within.inside pair).2).elim
    · exact within.right pair pair'

section Kept

variable {letId site : NodeId} {name : String} {value body body' old new : Expr}
  {names inner : List String} {tied sites kept roots : NodeId → NodeId → Prop}
  {start visible visible' : List NameDefinition} {base late entered entered' : State}
  {effect : Effect} {watch watch' : Watch}

theorem meaning_bound (table : NameTable) (letId site : NodeId) (value body : Expr) {other : String}
    (known : ∀ {name}, name ∉ names → table.meaning visible name = table.meaning start name)
    (free : other ∉ names.filter (· ≠ name)) :
    table.meaning ((Expr.letIn letId site name value body).binders ++ visible) other =
      table.meaning (⟨.operator, name, some site, some letId⟩ :: start) other := by
  by_cases same : other = name
  · subst same
    have found : (Expr.letIn letId site other value body).binders.find?
        (fun definition => definition.identifier = other) =
          some ⟨.operator, other, some site, some letId⟩ := by simp [Expr.binders]
    exact (table.meaning_of_found found visible).trans (table.meaning_of_found found start).symm
  · have unbound : other ∉ names := fun bound =>
      free (List.mem_filter.mpr ⟨bound, decide_eq_true same⟩)
    rw [meaning_binders table letId site value body same, known unbound]
    exact (meaning_binders table letId site value body same start).symm

section Bound

variable (meets : Meets link heads tied sites context context' start names visible visible'
    (.letIn letId site name value body) (.letIn letId site name value body'))
  (free : ∀ used ∈ value.freeNames, used ∉ name :: names)

include meets

include free in
theorem Meets.infer_bound' (inside : ∀ {a b}, tied a b → b ∈ body'.ids)
    (mirror : Mirror link ρ V state state')
    (sample : Sample heads context start ((Expr.letIn letId site name value body).binders ++ visible)
      state value effect)
    (unseen' : Unseen value.ids state') :
    ∃ τ' defined', inferExpr context' state' value = .ok defined' ∧
      Renders value state' (V.image ρ) effect τ' defined' ∧
      StepsIn (fun h' => ∃ h, link.holes h h') (Expr.letIn letId site name value body').ids link.watch'
        (link.watch'.add (defined'.record site (effect.rename τ')) site (effect.rename τ')) state'
        (defined'.record site (effect.rename τ')) := by
  have spares : ∀ {h h'}, link.holes h h' → Elsewhere value.ids h' := fun hole =>
    meets.elsewhere' hole ids_subset_let.1 fun pair early =>
      (nodup_of_let meets.nodup').2.2.1 early (inside pair)
  have calm' := (mirror.clean meets.alert).trans sample.clean
  obtain ⟨τ', defined', run', renders⟩ := sample.infer meets.globals
    (fun head => by
      rw [mirror.kept.effects (meets.matched.watched head).1,
        mirror.kept'.effects (meets.matched.watched head).2]
      exact meets.matched.same head)
    (.refl (fun _ => trivial) (fun _ _ => trivial) [] value)
    (standalone_of_let meets.placed' meets.known' free (fun head => (meets.outside head).2) meets.nodup')
    unseen' calm' (mirror.steady' spares) (meets.matched.spare' mirror)
  refine ⟨τ', defined', run', renders, renders.stepsIn meets.proper.watch' mirror.kept' calm'
    meets.still' meets.surrounds.unwatched' ids_subset_let.1 ids_subset_let.2.2 ?_⟩
  rintro h' ⟨h, hole⟩
  obtain ⟨used, same⟩ := mirror.holes hole
  exact ⟨⟨h, used, same⟩, (meets.proper.marked hole).2⟩

include free in
theorem Meets.prepared_body
    (prepared : Prepared link heads (.letIn letId site name value body) base)
    (given : inferExpr context base value = .ok late)
    (found : late.effects.get? value.id = some effect)
    (unmarked : ∀ {name}, effect.Uses .effect name → isPlaceholder name = false)
    {link' : Link} {effect' : Effect} (part : old.ids ⊆ body.ids)
    (past : ∀ {head}, heads head →
      link'.watch.past.effects.get? head = link.watch.past.effects.get? head)
    (recorded : link'.watch.past.effects.get? site = some effect')
    (same : Matching (some effect) (some effect')) :
    Prepared link' (fun id => heads id ∨ id = site) old (late.record site effect) := by
  have early := prepared.unseen.mono (@ids_subset_let letId site name value body).1
  have sample := meets.sample free early prepared.clean given found unmarked
  refine ⟨?_, ?_, ?_⟩
  · have ready := unseen_let_body meets.globals.plain meets.nodup prepared.unseen given
    rw [State.copyEffect, found] at ready
    exact ready.mono part
  · exact (errors_of_effect early sample.standalone.nodup given
      (Option.isSome_of_eq_some found)).trans prepared.clean
  · rintro id (head | rfl)
    · obtain ⟨outer, _⟩ := meets.outside head
      rw [past head, get?_record, if_neg fun here : site = id => outer (here ▸ ids_subset_let.2.2),
        sample.keeps meets.globals.self given fun inside => outer (ids_subset_let.1 inside)]
      exact prepared.same head
    · rw [get?_record_self, recorded]
      exact same

end Bound

theorem Meets.inside {seen seen' : List NameDefinition}
    (meets : Meets link heads (Tied kept tied old new) sites context context' start names visible
      visible' (.letIn letId site name value body) (.letIn letId site name value body'))
    (rooted : Expr.Rooted kept roots body.ids body'.ids old new)
    (proper : (link.inside letId kept roots watch watch').Proper)
    (matched : HeadsMatch (link.inside letId kept roots watch watch') fun id => heads id ∨ id = site)
    (grows : link.watch.Grows watch) (grows' : link.watch'.Grows watch')
    (unwatched : ∀ {id}, id ∈ body.ids → ¬ watch.nodes id)
    (unwatched' : ∀ {id}, id ∈ body'.ids → ¬ watch'.nodes id)
    (views : Views (link.inside letId kept roots watch watch')
      (fun a b => sites a b ∨ kept a b) context context' (fun _ _ => True)
      ((Expr.letIn letId site name value body).binders ++ visible)
      ((Expr.letIn letId site name value body').binders ++ visible') inner seen seen')
    (placed : Placed Expr.binders context seen old) (placed' : Placed Expr.binders context' seen' new)
    (nodup : old.ids.Nodup) (nodup' : new.ids.Nodup) :
    Meets (link.inside letId kept roots watch watch') (fun id => heads id ∨ id = site) tied
      (fun a b => sites a b ∨ kept a b) context context'
      (⟨.operator, name, some site, some letId⟩ :: start) (inner ++ names.filter (· ≠ name)) seen seen'
      old new where
  proper := proper
  alert := trivial
  surrounds := meets.surrounds.inside ids_subset_let.2.1 ids_subset_let.2.1 unwatched unwatched' rooted
  still stored := meets.still (grows.stored.mp stored)
  still' stored := meets.still' (grows'.stored.mp stored)
  ties param pair := meets.ties param (Or.inr ⟨rooted.apart, pair⟩)
  holes hole := by
    obtain ⟨param, a, b, (pair | ⟨_, pair⟩) | ⟨outer, outer'⟩, eq, eq'⟩ := meets.holes hole
    · exact ⟨param, a, b, Or.inr (rooted.apart pair), eq, eq'⟩
    · exact ⟨param, a, b, Or.inl pair, eq, eq'⟩
    · exact ⟨param, a, b, Or.inr ⟨fun early => outer (ids_subset_let.2.1 (rooted.inside early)),
        fun early => outer' (ids_subset_let.2.1 (rooted.inside' early))⟩, eq, eq'⟩
  globals := meets.globals.bind letId site name
  matched := matched
  outside := by
    rintro id (head | rfl)
    · exact (meets.outside head).imp
        (fun outer early => outer (ids_subset_let.2.1 (rooted.inside early)))
        fun outer early => outer (ids_subset_let.2.1 (rooted.inside' early))
    · exact ⟨fun early => (nodup_of_let meets.nodup).2.2.2 (rooted.inside early),
        fun early => (nodup_of_let meets.nodup').2.2.2 (rooted.inside' early)⟩
  known free := by
    obtain ⟨own, around⟩ := not_or.mp (List.mem_append.not.mp free)
    rw [views.outer own]
    exact meaning_bound context.table letId site value body meets.known around
  known' free := by
    obtain ⟨own, around⟩ := not_or.mp (List.mem_append.not.mp free)
    rw [views.outer' own]
    exact meaning_bound context'.table letId site value body' meets.known' around
  sees _ := views.sees trivial
  firm := by
    rintro a b (outer | pair)
    · obtain ⟨linked, other⟩ := meets.firm outer
      have apart := (meets.surrounds.outside linked other).1
      exact ⟨Or.inl ⟨linked, other⟩, fun same =>
        apart (ids_subset_let.2.1 (rooted.inside (same ▸ old.id_mem_ids)))⟩
    · exact ⟨Or.inr (Or.inl pair), fun same => (rooted.apart pair).1 (same ▸ old.id_mem_ids)⟩
  placed := placed
  placed' := placed'
  nodup := nodup
  nodup' := nodup'

theorem Meets.views_body
    (meets : Meets link heads tied sites context context' start names visible visible'
      (.letIn letId site name value body) (.letIn letId site name value body'))
    (proper : (link.inside letId kept roots watch watch').Proper)
    (matched : HeadsMatch (link.inside letId kept roots watch watch') fun id => heads id ∨ id = site)
    (grows : link.watch.Grows watch) (grows' : link.watch'.Grows watch') :
    Views (link.inside letId kept roots watch watch')
      (fun a b => sites a b ∨ kept a b) context context' (fun _ _ => True)
      ((Expr.letIn letId site name value body).binders ++ visible)
      ((Expr.letIn letId site name value body').binders ++ visible') []
      ((Expr.letIn letId site name value body).binders ++ visible)
      ((Expr.letIn letId site name value body').binders ++ visible') := by
  refine ⟨fun {other} _ => ?_, fun _ => rfl, fun _ => rfl⟩
  by_cases same : other = name
  · have unbound : other ∉ names.filter (· ≠ name) := by simp [same]
    rw [meaning_bound context.table letId site value body meets.known unbound,
      meaning_bound context'.table letId site value body' meets.known' unbound]
    have firm : ∀ {a b}, sites a b ∨ kept a b →
        (link.inside letId kept roots watch watch').nodes a b := fun site =>
      site.elim (fun outer => Or.inl (meets.firm outer)) fun pair => Or.inr (Or.inl pair)
    exact (meets.globals.bind letId site name).agree (proper.within firm)
      ⟨matched.watched, matched.same, matched.apart, matched.apart'⟩ other
  · rw [meaning_binders context.table letId site value body same,
      meaning_binders context'.table letId site value body' same]
    exact meets.sees_inside kept roots grows grows' other

theorem Meets.simulates_body
    (meets : Meets link heads (Tied kept tied old new) sites context context' start names visible
      visible' (.letIn letId site name value body) (.letIn letId site name value body'))
    (pairing : Expr.Pairing kept roots body.ids body'.ids)
    (paired : Expr.Paired (fun _ _ => True)
      (fun bound part part' => part = old ∧ part' = new ∧ bound = inner ++ []) kept roots body.ids
      body'.ids [] body body')
    (steps : StepsIn (fun h => ∃ h', link.holes h h') (Expr.letIn letId site name value body).ids
      link.watch watch state entered)
    (steps' : StepsIn (fun h' => ∃ h, link.holes h h') (Expr.letIn letId site name value body').ids
      link.watch' watch' state' entered')
    (matched : HeadsMatch (link.inside letId kept roots watch watch') fun id => heads id ∨ id = site)
    (unwatched : ∀ {id}, id ∈ body.ids → ¬ watch.nodes id)
    (unwatched' : ∀ {id}, id ∈ body'.ids → ¬ watch'.nodes id)
    (below : ∀ ⦃seen seen'⦄, old.ids ⊆ body.ids →
      Meets (link.inside letId kept roots watch watch') (fun id => heads id ∨ id = site) tied
        (fun a b => sites a b ∨ kept a b) context context'
        (⟨.operator, name, some site, some letId⟩ :: start) (inner ++ names.filter (· ≠ name)) seen
        seen' old new →
      Simulates (link.inside letId kept roots watch watch') True context context' old new) :
    (link.inside letId kept roots watch watch').nodes body.id body'.id ∧
      Simulates (link.inside letId kept roots watch watch') True context context' body body' := by
  have proper := meets.proper.inside meets.surrounds pairing ids_subset_let.2.1 ids_subset_let.2.1 steps
    steps'
  have handles : Handles (link.inside letId kept roots watch watch')
      (fun a b => sites a b ∨ kept a b) True context context' (fun _ _ => True)
      (fun bound part part' => (part = old ∧ part' = new ∧ bound = inner ++ []) ∧
        Expr.Rooted kept roots body.ids body'.ids part part')
      ((Expr.letIn letId site name value body).binders ++ visible)
      ((Expr.letIn letId site name value body').binders ++ visible') Expr.binders := by
    rintro bound seen seen' _ _ ⟨⟨rfl, rfl, rfl⟩, rooted⟩ views placed placed' tractable
    rw [List.append_nil] at views
    obtain ⟨_, _, nodup, nodup'⟩ := tractable trivial
    have inside := meets.inside rooted proper matched steps.grows steps'.grows unwatched unwatched'
      views placed placed' nodup nodup'
    exact ⟨inside.surrounds.root, below rooted.inside inside⟩
  exact simulates_alike proper trivial (meets.covers pairing Or.inl unwatched unwatched')
    (opens_own fun _ _ => trivial) handles paired
    (meets.views_body proper matched steps.grows steps'.grows) meets.placed.let_parts.2
    meets.placed'.let_parts.2 fun _ => ⟨meets.globals.plain, meets.globals.self'.plain,
      (nodup_of_let meets.nodup).2.1, (nodup_of_let meets.nodup').2.1⟩

/-- A let is kept, and inside of its body the one part is inferred in the one run and the other part in
the other run. -/
theorem simulates_kept
    (meets : Meets link heads (Tied kept tied old new) sites context context' start names visible
      visible' (.letIn letId site name value body) (.letIn letId site name value body'))
    (prepared : Prepared link heads (.letIn letId site name value body) base)
    (free : ∀ used ∈ value.freeNames, used ∉ name :: names)
    (given : inferExpr context base value = .ok late)
    (found : late.effects.get? value.id = some effect)
    (unmarked : ∀ {name}, effect.Uses .effect name → isPlaceholder name = false)
    (pairing : Expr.Pairing kept roots body.ids body'.ids)
    (ties : Expr.Ties kept (Tied kept tied old new) body.ids body'.ids)
    (paired : Expr.Paired (fun _ _ => True)
      (fun bound part part' => part = old ∧ part' = new ∧ bound = inner ++ []) kept roots body.ids
      body'.ids [] body body')
    (below : ∀ ⦃link heads sites start visible visible'⦄,
      Meets link heads tied sites context context' start (inner ++ names.filter (· ≠ name)) visible
        visible' old new →
      Prepared link heads old (late.record site effect) → Simulates link True context context' old new) :
    Simulates link True context context' (.letIn letId site name value body)
      (.letIn letId site name value body') := by
  intro ρ V state state' after mirror closely run
  obtain ⟨unseen, unseen', clean⟩ := closely trivial
  have plain' : Plain context'.signatures := meets.globals.self'.plain
  obtain ⟨τ, defined, last, result, renders, sample, ready, second, clean_body, closed, rfl⟩ :=
    meets.stages free (fun pair => (ties.inside pair).1) prepared given found unmarked mirror unseen run
      clean
  have steps := meets.stepsIn mirror sample.clean renders
  -- What the one run has found is the sample for the other.
  obtain ⟨τ', defined', first', renders', steps'⟩ := meets.infer_bound' free
    (fun pair => (ties.inside pair).2) mirror sample (unseen'.mono ids_subset_let.1)
  have ready' := unseen_let_body plain' meets.nodup' unseen' first'
  rw [renders'.copyEffect] at ready'
  -- From here on the name of the let is one of those that both runs know.
  have matched := (meets.matched.inside letId kept roots steps.grows steps'.grows).bind
    ⟨Or.inr rfl, Or.inr rfl⟩ (get?_record_self _ _ _) (get?_record_self _ _ _) renders'.matching
    renders.unmarked renders'.unmarked
  obtain ⟨linked, simulates⟩ := meets.simulates_body pairing paired steps steps' matched
    (unwatched_body meets.nodup meets.surrounds.unwatched)
    (unwatched_body meets.nodup' meets.surrounds.unwatched')
    fun _ _ part inside => below inside (meets.prepared_body free prepared given found unmarked part
      (fun head => steps.grows.kept.effects (meets.matched.watched head).1) (get?_record_self _ _ _)
      renders.matching)
  obtain ⟨ρ', V', last', second', mirrored⟩ := simulates
    (mirror.enter meets.proper meets.surrounds pairing steps steps' ready ready')
    (fun _ => ⟨ready, ready', clean_body⟩) second
  have root := meets.surrounds.linked_inside (ids_subset_let.2.1 body.id_mem_ids) linked
  have closed' : last'.effects.get? body'.id = some (result.rename ρ') := by
    rw [mirrored.effects linked, closed]
    rfl
  have clean' : last'.errors.isEmpty = true := (mirrored.clean trivial).trans clean_body
  refine ⟨ρ', V', last'.record letId (result.rename ρ'), ?_, mirrored.leave meets.surrounds steps.grows
    root closed clean_body (get?_record_self _ _ _) (fun {b} other => ?_)
    (mirrored.tidy'.record letId (mirrored.tidy'.canonical closed') (mirrored.tidy'.spelled closed'))
    ((steps'.grows.kept_of mirrored.kept').record
      (meets.surrounds.unwatched' (Expr.id_mem_ids _)) _)
    (FreshNames.le_refl _) steps'.grows rfl rfl⟩
  · simp only [inferExpr, bind_eq_ok]
    refine ⟨defined', first', last', ?_, ?_⟩
    · rw [renders'.copyEffect]
      exact second'
    · rw [State.closeLet, if_pos clean', closed']
  · rw [get?_record, if_neg fun same : letId = b => other same.symm]

end Kept

/-- Where two runs meet a let that is replaced, here or under lets that are kept, the one simulates the
other. Which placeholders correspond depends on the two expressions only. -/
theorem exists_tied_simulates (context context' : Context) {names : List String}
    {lets : List (NodeId × Expr)} {old new : Expr}
    (inlined : Expr.InlinedUnder names lets old new) (nodup : old.ids.Nodup) (nodup' : new.ids.Nodup) :
    ∃ kept tied, Expr.Ties kept tied old.ids new.ids ∧
      ∀ ⦃link heads sites start visible visible' base⦄,
        Meets link heads tied sites context context' start names visible visible' old new →
        Prepared link heads old base → Settles context base lets →
        Simulates link True context context' old new := by
  induction inlined with
  | @here names id defId name value body new free inlined =>
    obtain ⟨kept, roots, pairing, paired⟩ := Expr.Alike.paired inlined (nodup_of_let nodup).2.1 nodup'
    refine ⟨kept, kept, pairing.ties.mono ids_subset_let.2.1 (List.Subset.refl _), ?_⟩
    intro link heads sites start visible visible' base meets prepared settles
    cases settles with
    | cons run found unmarked rest =>
      exact simulates_let meets prepared free run found (fun {name} => unmarked name) pairing paired
  | @under names inner lets id defId name value body body' old new free within below ih =>
    have nodup_body := (nodup_of_let nodup).2.1
    have nodup_body' := (nodup_of_let nodup').2.1
    obtain ⟨part, part'⟩ := within.ids_sublist
    obtain ⟨kept, roots, pairing, paired⟩ := (within.alike []).paired nodup_body nodup_body'
    obtain ⟨kept₂, tied, ties, simulates⟩ := ih (nodup_body.sublist part) (nodup_body'.sublist part')
    have both := ties_tied pairing ties part.subset part'.subset
    refine ⟨kept, Tied kept tied old new, both.mono ids_subset_let.2.1 ids_subset_let.2.1, ?_⟩
    intro link heads sites start visible visible' base meets prepared settles
    cases settles with
    | cons run found unmarked rest =>
      exact simulates_kept meets prepared free run found (fun {name} => unmarked name) pairing both
        paired fun _ _ _ _ _ _ inside ready => simulates inside ready rest

end SpecEffects.Inference
