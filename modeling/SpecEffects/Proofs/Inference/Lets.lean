import SpecEffects.Proofs.Inference.Enclosing

/-!
Lets are transparent. A let can be replaced by its body with copies of the bound expression for the
name, and all operators keep their effects up to renamings. The bound expression must depend on
definitions without a scope and on lets around it only. Where inference comes to the declaration, its
effect and those of the lets that it depends on must use no placeholders.
-/
namespace SpecEffects.Inference

section Expressions

variable {heads : NodeId → Prop} {context context' : Context} {arrived : State}
  {old new whole whole' : Expr} {names : List String} {lets : List (NodeId × Expr)}

theorem between_surrounds {kept roots tied : NodeId → NodeId → Prop} {ids ids' : List NodeId}
    {state state' : State} {stored stored' : Vocabulary}
    (rooted : Expr.Rooted kept roots ids ids' old new) :
    (between kept roots tied ids ids' state state' stored stored').Surrounds old new where
  root := Or.inr rooted.root
  alone := by
    rintro a b (pair | pair) member
    · exact (member.elim (rooted.apart pair).1 (rooted.apart pair).2).elim
    · exact rooted.alone pair member
  unwatched member held := held (rooted.inside member)
  unwatched' member held := held (rooted.inside' member)

theorem tandem_let (globals : SameGlobals context context' [] heads)
    (outside : ∀ {head}, heads head → head ∉ whole.ids ∧ head ∉ whole'.ids)
    (within : Expr.Within old new names whole whole') (inlined : Expr.InlinedUnder names lets old new)
    (placed : Placed Expr.binders context [] whole) (placed' : Placed Expr.binders context' [] whole')
    (settles : Settles context arrived lets) :
    Tandem heads True (fun state => state = arrived) context context' whole whole' := by
  rintro rest rest' state state' after rfl similar nodup nodup' closely run
  have clean := closely trivial
  have nodup_whole := (List.nodup_append'.mp nodup).1
  have nodup_whole' := (List.nodup_append'.mp nodup').1
  obtain ⟨part, part'⟩ := within.ids_sublist
  have nodup_old := nodup_whole.sublist part
  have nodup_new := nodup_whole'.sublist part'
  have here := similar.mono (List.subset_append_left whole.ids rest)
    (List.subset_append_left whole'.ids rest')
  have plain' : Plain context'.signatures := globals.self'.plain
  have steady := steady_none whole.ids state
  have steady' := steady_none whole'.ids state'
  obtain ⟨kept, roots, pairing, paired⟩ := (within.alike []).paired nodup_whole nodup_whole'
  obtain ⟨_, tied, ties₂, simulates⟩ :=
    exists_tied_simulates context context' inlined nodup_old nodup_new
  have ties := ties_tied pairing ties₂ part.subset part'.subset
  have spare : HeadsSpare heads state fun _ _ => False := fun _ _ _ _ _ _ => not_false
  have spare' : HeadsSpare heads state' fun _ _ => False := fun _ _ _ _ _ _ => not_false
  let link := between kept roots (Tied kept tied old new) whole.ids whole'.ids state state'
    (fun _ _ => False) fun _ _ => False
  have proper : link.Proper := between_proper pairing ties here.unseen here.unseen' steady steady'
  have matched : HeadsMatch link heads := between_heads here spare spare' outside ties
  have handles : Handles link kept True context context' (fun _ _ => True)
      (fun bound part part' => (part = old ∧ part' = new ∧ bound = names ++ []) ∧
        Expr.Rooted kept roots whole.ids whole'.ids part part') [] [] Expr.binders := by
    rintro bound visible visible' old new ⟨⟨rfl, rfl, rfl⟩, rooted⟩ views stands stands' _
    rw [List.append_nil] at views
    have meets : Meets link heads tied kept context context' [] names visible visible' old new := {
      proper, alert := similar.clean, surrounds := between_surrounds rooted
      still stored := stored
      still' stored := stored
      ties param pair := ⟨param, _, _, Or.inr ⟨rooted.apart, pair⟩, rfl, rfl⟩
      holes := by
        rintro h h' ⟨param, a, b, pair | ⟨_, pair⟩, eq, eq'⟩
        · exact ⟨param, a, b, Or.inr (rooted.apart pair), eq, eq'⟩
        · exact ⟨param, a, b, Or.inl pair, eq, eq'⟩
      globals, matched
      outside head := (outside head).imp (fun outer inside => outer (rooted.inside inside))
        fun outer inside => outer (rooted.inside' inside)
      known := views.outer
      known' := views.outer'
      sees _ := views.sees trivial
      firm pair := ⟨Or.inl pair, fun same => (rooted.apart pair).1 (same ▸ Expr.id_mem_ids _)⟩
      placed := stands
      placed' := stands'
      nodup := nodup_old
      nodup' := nodup_new }
    have prepared : Prepared link heads old state := ⟨here.unseen.mono part.subset,
      inferExpr_clean globals.plain here.unseen run clean, fun _ => .refl here.unseen _⟩
    exact ⟨Or.inr rooted.root, simulates meets prepared settles⟩
  obtain ⟨linked, ρ, V, after', run', mirror⟩ := infer_paired here steady steady' spare spare'
    outside (globals.views (fun _ => rfl) fun _ => rfl) (fun _ _ => opens_own fun _ _ => trivial)
    placed placed' ⟨globals.plain, plain', nodup_whole, nodup_whole'⟩ run closely pairing ties paired
    handles
  exact ⟨after', run', similar.inferred nodup nodup' outside globals.plain plain' run run'
    mirror.kept.effects mirror.kept'.effects (mirror.clean similar.clean), mirror.matching proper linked⟩

end Expressions

/-- A let can be replaced by its body with copies of the bound expression for the name. If there were
no diagnostics there are none then, and all operators have the same effects up to renamings. The bound
expression can use names of lets around it that are listed with it. Neither it nor these lets use names
that are bound otherwise, and where inference comes to the declaration their effects use no
placeholders. -/
theorem let_is_transparent {m m' n : Module} {declaration : Declaration} {old new whole whole' : Expr}
    {names : List String} {lets : List (NodeId × Expr)} {context : Context} {arrived : State}
    {analysis : Analysis}
    (distinct : m.ids.Nodup) (distinct' : m'.ids.Nodup) (owns : m.owner? n.name = some n)
    (present : declaration ∈ n.declarations) (holds : declaration.expr? = some whole)
    (replaces : Declaration.Replaces declaration.id whole whole' m.toDeclaration m'.toDeclaration)
    (within : Expr.Within old new names whole whole') (inlined : Expr.InlinedUnder names lets old new)
    (arrives : m.arrival? .standard declaration.id = some (context, arrived))
    (settles : Settles context arrived lets)
    (run : m.analyze .standard = .ok analysis) (ok : analysis.isOk = true) :
    ∃ analysis', m'.analyze .standard = .ok analysis' ∧ analysis'.isOk = true ∧
      ∀ id ∈ m.toDeclaration.headIds, Matching (analysis.effectOf? id) (analysis'.effectOf? id) := by
  have plain : Plain .standard := SignatureTable.plain_standard
  have alone : Compared .standard m m := .refl plain distinct
  have compared := compared_of_replaces replaces plain distinct distinct'
  have inside := Module.owner?_inside owns
  obtain ⟨final, infer, rfl⟩ : ∃ final, m.infer .standard = .ok final ∧ analysis = final.analysis := by
    simpa only [Module.analyze, bind_eq_ok, pure_eq_ok] using run
  rw [isOk_analysis] at ok
  obtain ⟨before, others, parts⟩ := List.append_of_mem present
  have reaches : Reaches .standard m n before declaration final context arrived :=
    arrive_reaches alone (Declaration.mem_all_self _) (Module.mem_modules.mp inside) parts holds
      (unseen_start _) (by rw [inferDeclaration_toDeclaration]; exact infer) arrives
  obtain rfl := reaches.own
  obtain ⟨final', infer', similar⟩ := infer_replaced_declared replaces compared inside present holds
    arrives (fun inside' pair member' holds' => tandem_let (sameGlobals compared inside pair)
      (fun head => ⟨heads_outside compared (Module.mem_all_of_mem_declarations inside present) holds head,
        heads_outside' compared (Module.mem_all_of_mem_declarations inside' member') holds' head⟩)
      within inlined (placed_owned distinct owns present holds)
      (placed_owned distinct' (owner_counterpart compared inside pair inside' owns) member' holds')
      settles) infer fun _ => ok
  refine ⟨final'.analysis, by rw [Module.analyze, infer']; rfl, ?_, fun id head => similar.heads head⟩
  rw [isOk_analysis, similar.clean]
  exact ok

/-- A value that uses the name of a let around it, used twice inside of a lambda next to the
parameter. -/
theorem let_using_outer_let :
    let first : Expr := .app ⟨8⟩ "iadd" [.ref ⟨9⟩ "x", .literal ⟨10⟩ (.int 1)]
    let second : Expr := .app ⟨13⟩ "iadd" [.ref ⟨14⟩ "z", .ref ⟨15⟩ "z"]
    let body : Expr := .app ⟨16⟩ "iadd" [.ref ⟨17⟩ "y",
      .app ⟨18⟩ "iadd" [.ref ⟨19⟩ "p", .ref ⟨20⟩ "y"]]
    let new : Expr := .app ⟨16⟩ "iadd" [.app ⟨21⟩ "iadd" [.ref ⟨22⟩ "z", .ref ⟨23⟩ "z"],
      .app ⟨18⟩ "iadd" [.ref ⟨19⟩ "p", .app ⟨24⟩ "iadd" [.ref ⟨25⟩ "z", .ref ⟨26⟩ "z"]]]
    let outer : Expr := .letIn ⟨6⟩ ⟨7⟩ "z" first (.letIn ⟨11⟩ ⟨12⟩ "y" second body)
    let outer' : Expr := .letIn ⟨6⟩ ⟨7⟩ "z" first new
    let m : Module := ⟨⟨1⟩, "M", [.stateVariable ⟨2⟩ "x"] ++
      [.operator ⟨⟨3⟩, "f", .lambda ⟨4⟩ [⟨⟨5⟩, "p"⟩] outer⟩]⟩
    let m' : Module := ⟨⟨1⟩, "M", [.stateVariable ⟨2⟩ "x"] ++
      [.operator ⟨⟨3⟩, "f", .lambda ⟨4⟩ [⟨⟨5⟩, "p"⟩] outer'⟩]⟩
    Expr.InlinedUnder ["p"] [(⟨7⟩, first), (⟨12⟩, second)] outer outer' ∧
    ∃ analysis analysis', m.analyze .standard = .ok analysis ∧ analysis.isOk = true ∧
      m'.analyze .standard = .ok analysis' ∧ analysis'.isOk = true ∧
      Matching (analysis.effectOf? ⟨3⟩) (analysis'.effectOf? ⟨3⟩) := by
  intro first second body new outer outer' m m'
  have copies : ∀ i j k : NodeId, second.Copy (.app i "iadd" [.ref j "z", .ref k "z"]) :=
    fun _ _ _ => .app trivial trivial rfl (Expr.each_of_two (.ref trivial trivial) (.ref trivial trivial))
  have inlined : Expr.Inlined "y" second body new := by
    refine .app trivial (Or.inl (by decide)) rfl (Expr.each_of_two ?_ ?_)
    · exact .swap ⟨⟨⟨17⟩, rfl⟩, by simp, copies _ _ _, by simp⟩
    · exact .app trivial (Or.inl (by decide)) rfl (Expr.each_of_two (.ref trivial (Or.inl (by decide)))
        (.swap ⟨⟨⟨20⟩, rfl⟩, by simp, copies _ _ _, by simp⟩))
  have under : Expr.InlinedUnder ["p"] [(⟨7⟩, first), (⟨12⟩, second)] outer outer' :=
    .under (by decide) .here (.here (by decide) inlined)
  have within : Expr.Within outer outer' ([] ++ [(⟨⟨5⟩, "p"⟩ : Param)].map Param.name)
      (.lambda ⟨4⟩ [⟨⟨5⟩, "p"⟩] outer) (.lambda ⟨4⟩ [⟨⟨5⟩, "p"⟩] outer') := .lambda .here
  have replaces : Declaration.Replaces ⟨3⟩ (.lambda ⟨4⟩ [⟨⟨5⟩, "p"⟩] outer)
      (.lambda ⟨4⟩ [⟨⟨5⟩, "p"⟩] outer') m.toDeclaration m'.toDeclaration := .submodule (.operator "f")
  have arrival : ((m.arrival? .standard ⟨3⟩).bind fun arrival =>
      (inferExpr arrival.1 arrival.2 first).toOption.map fun late => (late.effects.get? ⟨8⟩,
        (inferExpr arrival.1 (late.record ⟨7⟩ (.reads "x")) second).toOption.map fun last =>
          last.effects.get? ⟨13⟩)) =
      some (some (.reads "x"), some (some (.reads "x"))) := by decide +kernel
  obtain ⟨⟨context, arrived⟩, arrives, inferred⟩ := Option.bind_eq_some_iff.mp arrival
  obtain ⟨late, run₁, effects⟩ := exists_ok _ inferred
  obtain ⟨found₁, inferred₂⟩ := Prod.mk.inj effects
  obtain ⟨last, run₂, found₂⟩ := exists_ok _ inferred₂
  have unmarked : ∀ other, (Effect.reads "x").Uses .effect other → isPlaceholder other = false :=
    fun other used => (over_reads (fun _ _ => False) "x" _ _ used).elim
  have settles : Settles context arrived [(⟨7⟩, first), (⟨12⟩, second)] :=
    .cons run₁ found₁ unmarked (.cons run₂ found₂ unmarked .nil)
  obtain ⟨analysis, run, ok⟩ := exists_ok Analysis.isOk
    (show (m.analyze .standard).toOption.map _ = some true by decide +kernel)
  obtain ⟨analysis', run', ok', same⟩ := let_is_transparent (by decide) (by decide) m.owner?_self
    (List.mem_cons_of_mem _ List.mem_cons_self) rfl replaces within under arrives settles run ok
  exact ⟨under, analysis, analysis', run, ok, run', ok', same ⟨3⟩ (by decide)⟩

theorem size_of_matching {effect effect' : Effect} (matching : Matching (some effect) (some effect')) :
    effect'.effectNames.size = effect.effectNames.size ∧
      effect'.variableNames.size = effect.variableNames.size := by
  cases matching with
  | @some _ τ _ _ injective =>
    have same : ∀ {names names' : NameSet} (kind : Kind), (∀ name, name ∈ names ↔ effect.Uses kind name) →
        (∀ name, name ∈ names' ↔ (effect.rename τ).Uses kind name) → names'.size = names.size := by
      intro names names' kind before after
      have image : names' = names.image τ := SortedSet.ext fun name => by
        rw [after, Effect.uses_rename, SortedSet.mem_image]
        simp only [before]
      rw [image]
      exact SortedSet.size_image fun a used b used' =>
        injective (usedIn_singleton.mpr ((before a).mp used)) (usedIn_singleton.mpr ((before b).mp used'))
    exact ⟨same .effect (fun _ => Iff.rfl) fun _ => Iff.rfl,
      same .variables (fun _ => Iff.rfl) fun _ => Iff.rfl⟩

def nameCounts (analysis : Analysis) (id : NodeId) : Bool × Option (Nat × Nat) :=
  (analysis.isOk, (analysis.effectOf? id).map fun effect =>
    (effect.effectNames.size, effect.variableNames.size))

theorem not_matching_of_counts {analysis analysis' : Analysis} {id : NodeId} {sizes sizes' : Nat × Nat}
    (counts : nameCounts analysis id = (true, some sizes))
    (counts' : nameCounts analysis' id = (true, some sizes')) (different : sizes ≠ sizes') :
    ¬ Matching (analysis.effectOf? id) (analysis'.effectOf? id) := by
  intro matching
  obtain ⟨effect, found, rfl⟩ := Option.map_eq_some_iff.mp (congrArg Prod.snd counts)
  obtain ⟨effect', found', rfl⟩ := Option.map_eq_some_iff.mp (congrArg Prod.snd counts')
  rw [found, found'] at matching
  obtain ⟨effects, sets⟩ := size_of_matching matching
  exact different (by rw [effects, sets])

/-- The name is bound to a parameter. Each reference is an instance of its own, and only the first one
is tied to the parameter, so that the operator has another effect than with copies of the parameter. -/
theorem let_unties_parameter :
    let body : Expr := .app ⟨8⟩ "iadd" [.ref ⟨9⟩ "y", .ref ⟨10⟩ "y"]
    let new : Expr := .app ⟨8⟩ "iadd" [.ref ⟨11⟩ "p", .ref ⟨12⟩ "p"]
    let m : Module := ⟨⟨1⟩, "M", [.operator ⟨⟨2⟩, "f", .lambda ⟨3⟩ [⟨⟨4⟩, "p"⟩]
      (.letIn ⟨5⟩ ⟨6⟩ "y" (.ref ⟨7⟩ "p") body)⟩]⟩
    let m' : Module := ⟨⟨1⟩, "M", [.operator ⟨⟨2⟩, "f", .lambda ⟨3⟩ [⟨⟨4⟩, "p"⟩] new⟩]⟩
    m.ids.Nodup ∧ m'.ids.Nodup ∧ Expr.Inlined "y" (.ref ⟨7⟩ "p") body new ∧
    ∃ analysis analysis', m.analyze .standard = .ok analysis ∧ analysis.isOk = true ∧
      m'.analyze .standard = .ok analysis' ∧ analysis'.isOk = true ∧
      ¬ Matching (analysis.effectOf? ⟨2⟩) (analysis'.effectOf? ⟨2⟩) := by
  intro body new m m'
  have inlined : Expr.Inlined "y" (.ref ⟨7⟩ "p") body new :=
    .app trivial (Or.inl (by decide)) rfl (Expr.each_of_two
      (.swap ⟨⟨⟨9⟩, rfl⟩, by simp, .ref trivial trivial, by simp⟩)
      (.swap ⟨⟨⟨10⟩, rfl⟩, by simp, .ref trivial trivial, by simp⟩))
  obtain ⟨analysis, run, counts⟩ := exists_ok (fun analysis => nameCounts analysis ⟨2⟩)
    (show (m.analyze .standard).toOption.map _ = some (true, some (0, 4)) by decide +kernel)
  obtain ⟨analysis', run', counts'⟩ := exists_ok (fun analysis => nameCounts analysis ⟨2⟩)
    (show (m'.analyze .standard).toOption.map _ = some (true, some (0, 2)) by decide +kernel)
  exact ⟨by decide, by decide, inlined, analysis, analysis', run, congrArg Prod.fst counts, run',
    congrArg Prod.fst counts', not_matching_of_counts counts counts' (by decide)⟩

end SpecEffects.Inference
