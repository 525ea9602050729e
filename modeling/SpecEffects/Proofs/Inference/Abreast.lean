import SpecEffects.Proofs.Inference.Reading
import SpecEffects.Proofs.Inference.Replacement

/-!
Runs abreast. The same declarations are inferred in two modules, from states in which the operators
that they refer to have the same effects up to renamings. Both runs find out the same up to one
renaming of the names that they have made up, and neither changes what has been recorded for other
nodes. Renamings for different nodes can be put together, since the effects that one run records have
no names in common with those that were there before.
-/
namespace SpecEffects.Inference

open Substitution

def State.namesAt (state : State) (nodes : NodeId → Prop) : Vocabulary := fun kind name =>
  ∃ id effect, nodes id ∧ state.effects.get? id = some effect ∧ effect.Uses kind name

/-- At these nodes both states have the same effects up to the renaming, which is one of numbered
names, and errors of the same kinds. -/
structure SameUpTo (ρ : String → String) (nodes : NodeId → Prop) (state state' : State) : Prop where
  effects : ∀ id, nodes id →
    state'.effects.get? id = (state.effects.get? id).map (Effect.rename ρ)
  errors : ∀ id, nodes id →
    (state'.errors.get? id).map InferenceError.kind = (state.errors.get? id).map InferenceError.kind
  injective : (state.namesAt nodes).Injective ρ
  numbers : ∀ kind name, state.namesAt nodes kind name →
    (∃ n n', name = numbered kind n ∧ ρ name = numbered kind n') ∨
      isPlaceholder name = true ∧ ρ name = name

def NamesApart (state : State) (nodes nodes' : NodeId → Prop) : Prop :=
  ∀ ⦃kind kind' name⦄, state.namesAt nodes kind name → ¬ state.namesAt nodes' kind' name

section Nodes

variable {ρ ρ' : String → String} {nodes nodes' fewer fewer' : NodeId → Prop}
  {state state' after : State}

theorem namesAt_mono (part : ∀ id, fewer id → nodes id) {kind : Kind} {name : String}
    (used : state.namesAt fewer kind name) : state.namesAt nodes kind name := by
  obtain ⟨id, effect, inside, recorded, used⟩ := used
  exact ⟨id, effect, part id inside, recorded, used⟩

theorem namesAt_congr (same : ∀ id, nodes id → after.effects.get? id = state.effects.get? id)
    {kind : Kind} {name : String} (used : after.namesAt nodes kind name) :
    state.namesAt nodes kind name := by
  obtain ⟨id, effect, inside, recorded, used⟩ := used
  exact ⟨id, effect, inside, same id inside ▸ recorded, used⟩

theorem NamesApart.symm (apart : NamesApart state nodes nodes') : NamesApart state nodes' nodes :=
  fun _ _ _ used used' => apart used' used

theorem NamesApart.mono (apart : NamesApart state nodes nodes') (part : ∀ id, fewer id → nodes id)
    (part' : ∀ id, fewer' id → nodes' id) : NamesApart state fewer fewer' :=
  fun _ _ _ used used' => apart (namesAt_mono part used) (namesAt_mono part' used')

theorem NamesApart.congr (apart : NamesApart state nodes nodes')
    (same : ∀ id, nodes id → after.effects.get? id = state.effects.get? id)
    (same' : ∀ id, nodes' id → after.effects.get? id = state.effects.get? id) :
    NamesApart after nodes nodes' :=
  fun _ _ _ used used' => apart (namesAt_congr same used) (namesAt_congr same' used')

namespace SameUpTo

theorem mono (alike : SameUpTo ρ nodes state state') (part : ∀ id, fewer id → nodes id) :
    SameUpTo ρ fewer state state' where
  effects id inside := alike.effects id (part id inside)
  errors id inside := alike.errors id (part id inside)
  injective := Vocabulary.Injective.mono alike.injective fun _ _ used => namesAt_mono part used
  numbers kind name used := alike.numbers kind name (namesAt_mono part used)

theorem congr {last last' : State} (alike : SameUpTo ρ nodes state state')
    (effects : ∀ id, nodes id → last.effects.get? id = state.effects.get? id)
    (effects' : ∀ id, nodes id → last'.effects.get? id = state'.effects.get? id)
    (errors : ∀ id, nodes id → last.errors.get? id = state.errors.get? id)
    (errors' : ∀ id, nodes id → last'.errors.get? id = state'.errors.get? id) :
    SameUpTo ρ nodes last last' where
  effects id inside := by rw [effects id inside, effects' id inside, alike.effects id inside]
  errors id inside := by rw [errors id inside, errors' id inside, alike.errors id inside]
  injective := Vocabulary.Injective.mono alike.injective fun _ _ used => namesAt_congr effects used
  numbers kind name used := alike.numbers kind name (namesAt_congr effects used)

theorem image (alike : SameUpTo ρ nodes state state') {kind : Kind} {name : String}
    (used : state.namesAt nodes kind name) : state'.namesAt nodes kind (ρ name) := by
  obtain ⟨id, effect, inside, recorded, used⟩ := used
  refine ⟨id, effect.rename ρ, inside, ?_, Effect.uses_rename.mpr ⟨name, used, rfl⟩⟩
  rw [alike.effects id inside, recorded]
  rfl

theorem same {ids : List NodeId} (unseen : Unseen ids state)
    (effects : ∀ id, nodes id → state'.effects.get? id = state.effects.get? id)
    (errors : ∀ id, nodes id → state'.errors.get? id = state.errors.get? id) :
    SameUpTo id nodes state state' where
  effects id inside := by
    rw [effects id inside]
    cases recorded : state.effects.get? id with
    | none => rfl
    | some effect => rw [Option.map_some, Effect.rename_id (unseen.tidy.canonical recorded)]
  errors id inside := by rw [errors id inside]
  injective := Vocabulary.injective_id _
  numbers kind name := by
    rintro ⟨id, effect, _, recorded, used⟩
    rcases unseen.tidy.spelled recorded kind name used with ⟨n, _, _, eq⟩ | ⟨_, placed⟩
    · exact Or.inl ⟨n, n, eq, eq⟩
    · exact Or.inr ⟨placed.1, rfl⟩

theorem matching {ids : List NodeId} (alike : SameUpTo ρ nodes state state') (unseen : Unseen ids state)
    {site : NodeId} (inside : nodes site) :
    Matching (state.effects.get? site) (state'.effects.get? site) := by
  rw [alike.effects site inside]
  cases found : state.effects.get? site with
  | none => exact .none
  | some effect =>
    refine .some (unseen.tidy.canonical found) (unseen.tidy.separate (marked_of_elsewhere ids) found) ?_
    exact Vocabulary.Injective.mono alike.injective fun kind name used =>
      ⟨site, effect, inside, found, usedIn_singleton.mp used⟩

theorem union (first : SameUpTo ρ nodes state state') (second : SameUpTo ρ' nodes' state state')
    (apart : NamesApart state nodes nodes') (apart' : NamesApart state' nodes nodes') :
    ∃ τ, SameUpTo τ (fun id => nodes id ∨ nodes' id) state state' := by
  classical
  let τ : String → String := fun name =>
    if ∃ kind, state.namesAt nodes kind name then ρ name else ρ' name
  have left : ∀ {kind name}, state.namesAt nodes kind name → τ name = ρ name :=
    fun used => if_pos ⟨_, used⟩
  have right : ∀ {kind name}, state.namesAt nodes' kind name → τ name = ρ' name := by
    intro kind name used
    refine if_neg ?_
    rintro ⟨_, other⟩
    exact apart other used
  have either : ∀ {kind name}, state.namesAt (fun id => nodes id ∨ nodes' id) kind name →
      state.namesAt nodes kind name ∨ state.namesAt nodes' kind name := by
    rintro kind name ⟨id, effect, inside | inside, recorded, used⟩
    · exact Or.inl ⟨id, effect, inside, recorded, used⟩
    · exact Or.inr ⟨id, effect, inside, recorded, used⟩
  have renamed : ∀ {nodes : NodeId → Prop} {ρ : String → String} {id : NodeId}, nodes id →
      (∀ {kind name}, state.namesAt nodes kind name → τ name = ρ name) →
      (state.effects.get? id).map (Effect.rename ρ) = (state.effects.get? id).map (Effect.rename τ) := by
    intro nodes ρ id inside same
    cases recorded : state.effects.get? id with
    | none => rfl
    | some effect =>
      exact congrArg some (Effect.rename_congr fun kind name used =>
        (same ⟨id, effect, inside, recorded, used⟩).symm)
  refine ⟨τ, ?_, ?_, ?_, ?_⟩
  · rintro id (inside | inside)
    · rw [first.effects id inside, renamed inside left]
    · rw [second.effects id inside, renamed inside right]
  · rintro id (inside | inside)
    · exact first.errors id inside
    · exact second.errors id inside
  · intro kind kind' name name' used used' same
    rcases either used with used | used <;> rcases either used' with used' | used'
    · rw [left used, left used'] at same
      exact first.injective used used' same
    · rw [left used, right used'] at same
      exact absurd (second.image used') (apart' (same ▸ first.image used))
    · rw [right used, left used'] at same
      exact absurd (second.image used) (apart' (same.symm ▸ first.image used'))
    · rw [right used, right used'] at same
      exact second.injective used used' same
  · intro kind name used
    rcases either used with used | used
    · rw [left used]
      exact first.numbers kind name used
    · rw [right used]
      exact second.numbers kind name used

end SameUpTo

end Nodes

/-- From the one state to the other only these nodes have been inferred. Nothing has changed for other
nodes, and none of their names has been used. -/
structure Confined (ids : List NodeId) (state after : State) : Prop where
  effects : ∀ id ∉ ids, after.effects.get? id = state.effects.get? id
  errors : ∀ id ∉ ids, after.errors.get? id = state.errors.get? id
  apart : NamesApart after (· ∉ ids) (· ∈ ids)

theorem Confined.sameUpTo {ids rest : List NodeId} {state after : State}
    (confined : Confined ids state after) (unseen : Unseen rest after) :
    SameUpTo id (· ∉ ids) after state :=
  .same unseen (fun id outside => (confined.effects id outside).symm)
    fun id outside => (confined.errors id outside).symm

def beside (ids : List NodeId) (state state' : State) : Link :=
  between (fun a b => a = b ∧ a ∈ ids) (fun _ _ => False) (fun a b => a = b ∧ a ∈ ids) ids ids
    state state' (fun _ _ => False) fun _ _ => False

theorem pairing_same (ids : List NodeId) :
    Expr.Pairing (fun a b => a = b ∧ a ∈ ids) (fun _ _ => False) ids ids where
  inside := by
    rintro a b (⟨rfl, inside⟩ | absurd)
    · exact ⟨inside, inside⟩
    · exact absurd.elim
  left := by
    rintro a b b' (⟨rfl, _⟩ | absurd) (⟨rfl, _⟩ | absurd')
    · rfl
    · exact absurd'.elim
    · exact absurd.elim
    · exact absurd.elim
  right := by
    rintro a a' b (⟨rfl, _⟩ | absurd) (⟨rfl, _⟩ | absurd')
    · rfl
    · exact absurd'.elim
    · exact absurd.elim
    · exact absurd.elim

section Beside

variable {ids : List NodeId} {state state' after after' : State} {ρ : String → String} {V : Vocabulary}
  (unseen : Unseen ids state) (unseen' : Unseen ids state')

include unseen unseen'

theorem beside_proper : (beside ids state state').Proper :=
  between_proper (pairing_same ids) (pairing_same ids).ties unseen unseen' (steady_none ids state)
    (steady_none ids state')

theorem beside_start :
    ∃ ρ V, Mirror (beside ids state state') ρ V state state' := by
  obtain ⟨ρ, mirror⟩ := between_start (pairing_same ids) (pairing_same ids).ties unseen unseen'
    (steady_none ids state) (steady_none ids state')
  exact ⟨ρ, _, mirror⟩

variable (mirror : Mirror (beside ids state state') ρ V after after')

include mirror

omit unseen unseen' in
theorem Mirror.namesAt_beside {kind : Kind} {name : String}
    (used : after.namesAt (· ∈ ids) kind name) : V kind name := by
  obtain ⟨id, effect, inside, recorded, used⟩ := used
  exact mirror.within (Or.inl ⟨rfl, inside⟩) recorded kind name used

omit unseen unseen' in
theorem Mirror.sameUpTo : SameUpTo ρ (· ∈ ids) after after' where
  effects id inside := mirror.effects (Or.inl ⟨rfl, inside⟩)
  errors id inside := mirror.errors (Or.inl ⟨rfl, inside⟩)
  injective := Vocabulary.Injective.mono mirror.injective fun _ _ used => mirror.namesAt_beside used
  numbers kind name used := by
    rcases mirror.named (mirror.namesAt_beside used) with
      ⟨n, n', _, _, eq, eq', _⟩ | ⟨_, param, a, b, ⟨rfl, _⟩, eq, eq'⟩
    · exact Or.inl ⟨n, n', eq, eq'⟩
    · exact Or.inr ⟨eq ▸ isPlaceholder_placeholder param a, eq'.trans eq.symm⟩

theorem Mirror.confined : Confined ids state after where
  effects _ outside := mirror.kept.effects outside
  errors _ outside := mirror.kept.errors outside
  apart := by
    rintro kind kind' name ⟨id, effect, outside, recorded, used⟩ inside
    have new := mirror.namesAt_beside inside
    have frozen := unseen.tidy.spelled (mirror.kept.effects outside ▸ recorded) kind name used
    cases possible_separate.kind_eq (possible_of_made (marked_of_elsewhere ids) frozen)
      (possible_of_made (fun _ marked => marked)
        (mirror.made_left (beside_proper unseen unseen') new))
    exact ((mirror.named new).free (beside_proper unseen unseen')).1 frozen

theorem Mirror.confined' : Confined ids state' after' where
  effects _ outside := mirror.kept'.effects outside
  errors _ outside := mirror.kept'.errors outside
  apart := by
    rintro kind kind' name ⟨id, effect, outside, recorded, used⟩ ⟨id', effect', inside, found, again⟩
    have image := mirror.effects (Or.inl ⟨rfl, inside⟩)
    rw [found] at image
    obtain ⟨before, recorded', rfl⟩ := Option.map_eq_some_iff.mp image.symm
    obtain ⟨old, standing, rfl⟩ := Effect.uses_rename.mp again
    have new := mirror.within (Or.inl ⟨rfl, inside⟩) recorded' kind' old standing
    have frozen := unseen'.tidy.spelled (mirror.kept'.effects outside ▸ recorded) kind _ used
    have named := mirror.named new
    cases possible_separate.kind_eq (possible_of_made (marked_of_elsewhere ids) frozen)
      (possible_of_made (fun _ marked => marked) (named.made_right (beside_proper unseen unseen')))
    exact (named.free' (beside_proper unseen unseen')).1 frozen

end Beside

section Runs

variable {signatures : SignatureTable} {sites : NodeId → Prop} {ids : List NodeId}
  {start start' : State} (plain : Plain signatures) (unseen : Unseen ids start)
  (unseen' : Unseen ids start')
  (matching : ∀ site, sites site → site ∉ ids →
    Matching (start.effects.get? site) (start'.effects.get? site))

include plain unseen unseen' matching

theorem beside_admits {context context' : Context} {expr : Expr}
    (reads : ReadsAlike sites context context' expr) (own : context.signatures = signatures)
    (inside : expr.ids ⊆ ids)
    (lets : ∀ node ∈ expr.nodes, node.isLet = true → (beside ids start start').alert) :
    ∀ node ∈ expr.nodes, (beside ids start start').Admits context context' node := by
  have proper := beside_proper unseen unseen'
  intro node member
  have part := List.Subset.trans (Expr.ownIds_subset member) inside
  refine ⟨fun id own => ⟨Or.inl ⟨rfl, part own⟩, fun outside => outside (part own),
    fun outside => outside (part own)⟩, fun hole own => ?_, fun name used definition? resolved => ?_,
    lets node member⟩
  · cases node with
    | lambda id params body =>
      obtain ⟨param, _, rfl⟩ := List.mem_map.mp own
      exact ⟨param.name, id, id, ⟨rfl, part List.mem_cons_self⟩, rfl, rfl⟩
    | _ => cases own
  · obtain ⟨definition?, resolved₁, resolved', recorded⟩ := reads.resolves node member name used
    cases resolved₁.symm.trans resolved
    refine ⟨_, resolved', agree_same (fun arity => ?_) (fun means kind reference => ?_)
      fun {_ site} means _ reference => ?_⟩
    · rw [reads.signatures, own]
      exact akin_builtin proper plain name arity
    · rcases recorded _ _ means reference with own | ⟨other, _⟩
      · exact Or.inl ⟨rfl, inside own⟩
      · exact absurd kind other
    · by_cases own : site ∈ ids
      · exact Or.inl (Or.inl ⟨rfl, own⟩)
      · have shared := ((recorded _ _ means reference).resolve_left fun own' => own (inside own')).2
        have bare : ∀ state : State, Spares (state.effects.get? site) fun _ => False :=
          fun _ _ _ _ _ _ => not_false
        refine Or.inr ⟨own, own, akin_of_matching proper (matching site shared own) ?_ ?_⟩
        · rintro effect found name used marked (⟨h', param, a, b, ⟨rfl, held⟩, rfl, rfl⟩ | absurd)
          · exact spares_unseen unseen (bare start) found used marked (Or.inl ⟨param, a, held, rfl⟩)
          · exact absurd
        · rintro effect found name used marked (⟨h, param, a, b, ⟨rfl, held⟩, rfl, rfl⟩ | absurd)
          · exact spares_unseen unseen' (bare start') found used marked (Or.inl ⟨param, a, held, rfl⟩)
          · exact absurd

variable {m m' n n' : Module} {declaration : Declaration} {ρ : String → String} {V : Vocabulary}
  {state state' after : State}

theorem mirror_declaration (stands : Stands m m' n n' declaration)
    (reads : ReadAlike signatures sites m m' declaration) (inside : declaration.ids ⊆ ids)
    (lets : ∀ inner ∈ declaration.all, ∀ node ∈ inner.nodes, node.isLet = true →
      (beside ids start start').alert)
    (mirror : Mirror (beside ids start start') ρ V state state')
    (run : inferDeclaration (m.environment signatures) (contextIn signatures m n) state declaration =
      .ok after) :
    ∃ ρ' V' after', inferDeclaration (m'.environment signatures) (contextIn signatures m' n') state'
        declaration = .ok after' ∧ Mirror (beside ids start start') ρ' V' after after' := by
  have proper := beside_proper unseen unseen'
  induction declaration generalizing n n' ρ V state state' after with
  | stateVariable id name =>
    cases run
    exact ⟨ρ, V, _, rfl, mirror⟩
  | constant id name =>
    cases run
    exact ⟨ρ, V, _, rfl, mirror⟩
  | operator definition =>
    rw [Declaration.ids_operator, List.cons_subset] at inside
    simp only [inferDeclaration, bind_eq_ok, pure_eq_ok] at run ⊢
    obtain ⟨middle, inner, rfl⟩ := run
    obtain ⟨ρ', V', middle', inner', between⟩ := simulates_same proper
      (beside_admits plain unseen unseen' matching (reads.here stands rfl) rfl inside.2
        (lets _ (Declaration.mem_all_self _))) mirror False.elim inner
    have root := inside.2 definition.body.id_mem_ids
    exact ⟨ρ', V', _, ⟨middle', inner', rfl⟩, between.copyEffect proper (Or.inl ⟨rfl, inside.1⟩)
      (fun outside => outside inside.1) (fun outside => outside inside.1) (Or.inl ⟨rfl, root⟩)⟩
  | assumption id name expr =>
    rw [Declaration.ids_assumption, List.cons_subset] at inside
    exact simulates_same proper (beside_admits plain unseen unseen' matching (reads.here stands rfl) rfl
      inside.2 (lets _ (Declaration.mem_all_self _))) mirror False.elim run
  | submodule id name declarations ih =>
    obtain ⟨inner, rfl, rfl, rfl⟩ : ∃ inner : Module, inner.id = id ∧ inner.name = name ∧
        inner.declarations = declarations := ⟨⟨id, name, declarations⟩, rfl, rfl, rfl⟩
    have standing : Stands m m' n n' inner.toDeclaration := stands
    rw [Declaration.ids_submodule, List.cons_subset] at inside
    simp only [inferDeclaration, environment_context standing.module.1,
      environment_context standing.module.2] at run ⊢
    refine inferDeclarations_mirrors (fun declaration present ρ V state state' after mirror run => ?_)
      mirror run
    refine ih declaration present (standing.inside present) (ReadAlike.inside reads present)
      (fun id member => inside.2 (List.mem_flatMap.mpr ⟨declaration, present, member⟩))
      (fun deeper member => lets deeper ?_) mirror run
    rw [Declaration.all_submodule]
    exact List.mem_cons_of_mem _ (List.mem_flatMap.mpr ⟨declaration, present, member⟩)

end Runs

theorem inferDeclarations_before {signatures : SignatureTable} {sites : NodeId → Prop}
    {m m' n n' : Module} {before : List Declaration} {state early : State}
    (stands : ∀ declaration ∈ before, Stands m m' n n' declaration)
    (reads : ∀ declaration ∈ before, ReadAlike signatures sites m m' declaration)
    (run : inferDeclarations (m.environment signatures) (contextIn signatures m n) state before =
      .ok early) (others : List Declaration) :
    inferDeclarations (m'.environment signatures) (contextIn signatures m' n') state (before ++ others) =
      inferDeclarations (m'.environment signatures) (contextIn signatures m' n') early others := by
  have same : inferDeclarations (m'.environment signatures) (contextIn signatures m' n') state before =
      .ok early := by
    rw [← run]
    exact inferDeclarations_congr (fun declaration present =>
      (reads declaration present).inferDeclaration (stands declaration present)) state
  rw [inferDeclarations_append, same]
  rfl

/-- Two runs have gone through these nodes and no others, and have found the same there. -/
structure Abreast (ids : List NodeId) (state state' last last' : State) : Prop where
  confined : Confined ids state last
  confined' : Confined ids state' last'
  alike : ∃ ρ, SameUpTo ρ (· ∈ ids) last last'
  clean : state'.errors.isEmpty = state.errors.isEmpty →
    last'.errors.isEmpty = last.errors.isEmpty

theorem Abreast.extend {ids : List NodeId} {nodes : NodeId → Prop} {ρ : String → String}
    {state state' last last' : State} (abreast : Abreast ids state state' last last')
    (alike : SameUpTo ρ nodes state state') :
    ∃ τ, SameUpTo τ (fun id => id ∈ ids ∨ nodes id) last last' := by
  obtain ⟨_, new⟩ := abreast.alike
  have old : SameUpTo ρ (fun id => nodes id ∧ id ∉ ids) last last' :=
    (alike.mono fun _ held => held.1).congr (fun id held => abreast.confined.effects id held.2)
      (fun id held => abreast.confined'.effects id held.2)
      (fun id held => abreast.confined.errors id held.2)
      (fun id held => abreast.confined'.errors id held.2)
  obtain ⟨τ, both⟩ := new.union old
    (abreast.confined.apart.symm.mono (fun _ inside => inside) fun _ held => held.2)
    (abreast.confined'.apart.symm.mono (fun _ inside => inside) fun _ held => held.2)
  refine ⟨τ, both.mono fun id either => ?_⟩
  by_cases inside : id ∈ ids
  · exact Or.inl inside
  · exact Or.inr ⟨either.resolve_left inside, inside⟩

section Declarations

variable {signatures : SignatureTable} {m m' n n' : Module} {declarations : List Declaration}
  {state state' last : State} (plain : Plain signatures)
  (unseen : Unseen (declarations.flatMap Declaration.ids) state)

include plain unseen

/-- Declarations are inferred abreast in two modules, provided that the operators that they refer to
have the same effects. Lets ask in addition that there have been errors in both runs or in neither. -/
theorem abreast_declarations {nodes : NodeId → Prop} {ρ : String → String}
    (unseen' : Unseen (declarations.flatMap Declaration.ids) state')
    (alike : SameUpTo ρ nodes state state')
    (stands : ∀ declaration ∈ declarations, Stands m m' n n' declaration)
    (reads : ∀ declaration ∈ declarations, ReadAlike signatures nodes m m' declaration)
    (lets : ∀ declaration ∈ declarations, ∀ inner ∈ declaration.all, ∀ node ∈ inner.nodes,
      node.isLet = true → state'.errors.isEmpty = state.errors.isEmpty)
    (run : inferDeclarations (m.environment signatures) (contextIn signatures m n) state declarations =
      .ok last) :
    ∃ last', inferDeclarations (m'.environment signatures) (contextIn signatures m' n') state'
        declarations = .ok last' ∧
      Abreast (declarations.flatMap Declaration.ids) state state' last last' := by
  obtain ⟨ρ₀, V₀, start⟩ := beside_start unseen unseen'
  obtain ⟨ρ', V', last', run', mirror⟩ := inferDeclarations_mirrors
    (fun declaration present _ _ _ _ _ mirror run => mirror_declaration plain unseen unseen'
      (fun site inside _ => alike.matching unseen inside) (stands declaration present)
      (reads declaration present)
      (fun _ member => List.mem_flatMap.mpr ⟨declaration, present, member⟩) (lets declaration present)
      mirror run) start run
  exact ⟨last', run', mirror.confined unseen unseen', mirror.confined' unseen unseen',
    ⟨ρ', mirror.sameUpTo⟩, mirror.clean⟩

theorem confined_declarations (distinct : m.ids.Nodup) (within : n ∈ m.modules)
    (part : declarations ⊆ n.declarations)
    (run : inferDeclarations (m.environment signatures) (contextIn signatures m n) state declarations =
      .ok last) : Confined (declarations.flatMap Declaration.ids) state last := by
  -- The run is abreast of itself.
  have same : SameUpTo id (fun _ => True) state state :=
    .same unseen (fun _ _ => rfl) (fun _ _ => rfl)
  obtain ⟨_, _, abreast⟩ := abreast_declarations plain unseen unseen same
    (fun _ present => stands_self within (part present)) (fun _ _ => readAlike_self distinct)
    (fun _ _ _ _ _ _ _ => rfl) run
  exact abreast.confined

end Declarations

end SpecEffects.Inference
