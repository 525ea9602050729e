import SpecEffects.Proofs.Inference.Mirror

/-!
The steps of inference in two runs that mirror each other: copies of effects, applications, lambdas
and lets.
-/
namespace SpecEffects.Inference

open Substitution

structure Link.Quiet (link : Link) (h h' : String) : Prop where
  left : ∀ k', ¬ link.holes h k'
  right : ∀ k, ¬ link.holes k h'
  stored : isPlaceholder h = true → ¬ link.watch.stored .effect h
  stored' : isPlaceholder h' = true → ¬ link.watch'.stored .effect h'

/-- The renaming of an effect under which copies of it correspond. Where it differs from that of the
runs, nothing depends on it. -/
structure Variant (link : Link) (ρ : String → String) (V : Vocabulary) (τ : String → String)
    (general : Effect) : Prop where
  canonical : general.Canonical
  separate : (Vocabulary.usedIn [general]).Separate
  injective : (Vocabulary.usedIn [general]).Injective τ
  quiet : ∀ {name}, general.Uses .effect name →
    V .effect name ∧ τ name = ρ name ∨ link.Quiet name (τ name)

theorem usedIn_singleton {effect : Effect} {kind : Kind} {name : String} :
    Vocabulary.usedIn [effect] kind name ↔ effect.Uses kind name :=
  ⟨fun ⟨_, member, used⟩ => List.mem_singleton.mp member ▸ used,
    fun used => ⟨effect, List.mem_singleton_self _, used⟩⟩

variable {link : Link} {ρ : String → String} {V : Vocabulary} {state state' : State}

namespace Variant

variable {τ : String → String} {general : Effect} (variant : Variant link ρ V τ general)

include variant

theorem separate_rename : (Vocabulary.usedIn [general.rename τ]).Separate := by
  intro name used used'
  obtain ⟨old, before, same⟩ := Effect.uses_rename.mp (usedIn_singleton.mp used)
  obtain ⟨old', before', rfl⟩ := Effect.uses_rename.mp (usedIn_singleton.mp used')
  cases variant.injective (usedIn_singleton.mpr before) (usedIn_singleton.mpr before') same
  exact variant.separate old (usedIn_singleton.mpr before) (usedIn_singleton.mpr before')

end Variant

namespace Mirror

section Copies

variable (proper : link.Proper) (mirror : Mirror link ρ V state state') {τ : String → String}
  {general : Effect} (variant : Variant link ρ V τ general)

include proper mirror variant

theorem number : ∃ ρ' V', (∀ {kind name}, V kind name → V' kind name ∧ ρ' name = ρ name) ∧
    (∀ {kind name}, general.Uses kind name → V' kind (freshName general state.fresh name) ∧
      ρ' (freshName general state.fresh name) = freshName (general.rename τ) state'.fresh (τ name)) ∧
    (∀ {kind name}, V' kind name → V kind name ∨ isPlaceholder name = false ∧
      isPlaceholder (ρ' name) = false) ∧
    Mirror link ρ' V' { state with fresh := (variableBindings general state.fresh).2 }
      { state' with fresh := (variableBindings (general.rename τ) state'.fresh).2 } := by
  have separate' := variant.separate_rename
  have numbers := fun {kind name} (used : general.Uses kind name) =>
    freshName_named state.fresh variant.separate used
  have numbers' := fun {kind name} (used : (general.rename τ).Uses kind name) =>
    freshName_named state'.fresh separate' used
  have injective : (Vocabulary.usedIn [general]).Injective (freshName general state.fresh) :=
    freshName_injective state.fresh variant.separate
  have injective' : (Vocabulary.usedIn [general.rename τ]).Injective
      (freshName (general.rename τ) state'.fresh) := freshName_injective state'.fresh separate'
  obtain ⟨back, inverse⟩ := injective.exists_inverse
  let news : Vocabulary := fun kind name =>
    ∃ old, general.Uses kind old ∧ freshName general state.fresh old = name
  let new : String → String := fun name =>
    freshName (general.rename τ) state'.fresh (τ (back name))
  have new_eq : ∀ {kind old}, general.Uses kind old → new (freshName general state.fresh old) =
      freshName (general.rename τ) state'.fresh (τ old) := by
    intro kind old used
    simp only [new, inverse kind old (usedIn_singleton.mpr used)]
  have renamed : ∀ {kind old}, general.Uses kind old → (general.rename τ).Uses kind (τ old) :=
    fun used => Effect.uses_rename.mpr ⟨_, used, rfl⟩
  obtain ⟨ρ', old_eq, same_new, moved⟩ := mirror.extend proper news new
    (le_variableBindings general state.fresh) (le_variableBindings (general.rename τ) state'.fresh)
    (by
      rintro kind _ ⟨old, used, rfl⟩
      obtain ⟨n, above, below, eq⟩ := numbers used
      obtain ⟨n', above', below', eq'⟩ := numbers' (renamed used)
      exact ⟨n, n', above, below, above', below', eq, (new_eq used).trans eq'⟩)
    (by
      rintro kind kind' _ _ ⟨old, used, rfl⟩ ⟨old', used', rfl⟩ same
      rw [new_eq used, new_eq used'] at same
      have same' := injective' (usedIn_singleton.mpr (renamed used))
        (usedIn_singleton.mpr (renamed used')) same
      rw [variant.injective (usedIn_singleton.mpr used) (usedIn_singleton.mpr used') same'])
  refine ⟨ρ', _, fun used => ⟨Or.inl used, old_eq used⟩, fun used => ⟨Or.inr ⟨_, used, rfl⟩, ?_⟩, ?_,
    moved⟩
  · exact (same_new ⟨_, used, rfl⟩).trans (new_eq used)
  · rintro kind _ (used | ⟨old, used, rfl⟩)
    · exact Or.inl used
    · obtain ⟨n, _, _, eq⟩ := numbers used
      obtain ⟨n', _, _, eq'⟩ := numbers' (renamed used)
      rw [same_new ⟨_, used, rfl⟩, new_eq used, eq, eq']
      exact Or.inr ⟨not_isPlaceholder_numbered _ _, not_isPlaceholder_numbered _ _⟩

/-- The placeholders of both effects correspond if anything depends on them, and so do their new
names. -/
theorem matched_learnedNames {ρ' : String → String} {V' : Vocabulary}
    (old : ∀ {kind name}, V kind name → V' kind name ∧ ρ' name = ρ name)
    (new : ∀ {kind name}, general.Uses kind name → V' kind (freshName general state.fresh name) ∧
      ρ' (freshName general state.fresh name) = freshName (general.rename τ) state'.fresh (τ name))
    (only : ∀ {kind name}, V' kind name → V kind name ∨ isPlaceholder name = false ∧
      isPlaceholder (ρ' name) = false) :
    Matched ρ' V' V' (learnedNames general state.fresh)
      (learnedNames (general.rename τ) state'.fresh) := by
  have canonical : ∀ effect start, (learnedNames effect start).Canonical := by
    intro effect start binding member
    obtain ⟨_, _, n, _, _, value⟩ := mem_learnedNames member
    rw [value]
    exact .quantified _
  -- A marked name of the runs is a hole.
  have hole : ∀ {kind name}, V' kind name → isPlaceholder name = true ∨ isPlaceholder (ρ' name) = true →
      kind = .effect ∧ link.holes name (ρ name) ∧ V .effect name ∧ ρ' name = ρ name := by
    intro kind name used marked
    rcases only used with before | ⟨unmarked, unmarked'⟩
    · have same := (old before).2
      rw [same] at marked
      obtain ⟨rfl, hole⟩ := mirror.hole_of_marked before marked
      exact ⟨rfl, hole, before, same⟩
    · rw [unmarked, unmarked'] at marked
      rcases marked with absurd | absurd <;> cases absurd
  refine ⟨canonical _ _, canonical _ _, ?_, ?_⟩
  · intro kind name value used found
    rw [learnedNames_get?] at found
    split at found
    · rename_i both
      cases found
      obtain ⟨rfl, _⟩ := hole used (Or.inl both.1)
      refine ⟨rfl, fun kind other inside => ?_⟩
      obtain ⟨rfl, rfl⟩ := Effect.uses_quantified.mp inside
      have inside : general.Uses .effect name := both.2
      exact (new inside).1
    · cases found
  · intro kind name used
    rw [learnedNames_get?, learnedNames_get?]
    by_cases marked : isPlaceholder name = true ∨ isPlaceholder (ρ' name) = true
    · obtain ⟨rfl, linked, before, same⟩ := hole used marked
      obtain ⟨at_left, at_right⟩ := proper.marked linked
      rw [same]
      by_cases inside : general.Uses .effect name
      · have renames : τ name = ρ name := by
          rcases variant.quiet inside with ⟨_, same⟩ | quiet
          · exact same
          · exact absurd linked (quiet.left _)
        have inside' : (general.rename τ).Uses .effect (ρ name) :=
          Effect.uses_rename.mpr ⟨name, inside, renames⟩
        rw [if_pos ⟨at_right, inside'⟩, if_pos ⟨at_left, inside⟩]
        refine congrArg (fun name => some (Term.effect (.quantified name))) ?_
        rw [← renames]
        exact (new inside).2.symm
      · have outside : ¬ (general.rename τ).Uses .effect (ρ name) := by
          intro inside'
          obtain ⟨other, inside', same'⟩ := Effect.uses_rename.mp inside'
          rcases variant.quiet inside' with ⟨before', same''⟩ | quiet
          · cases mirror.injective before' before (same''.symm.trans same')
            exact inside inside'
          · exact quiet.right name (same' ▸ linked)
        rw [if_neg fun both => outside both.2, if_neg fun both => inside both.2]
        rfl
    · rw [not_or] at marked
      rw [if_neg fun both => marked.2 both.1, if_neg fun both => marked.1 both.1]
      rfl

theorem instantiate : ∃ opened opened' ρ' V', Copied state general opened ∧
    Copied state' (general.rename τ) opened' ∧ Mirror link ρ' V' opened opened' ∧
    (general.rename (freshName general state.fresh)).Over V' ∧
    (general.rename τ).rename (freshName (general.rename τ) state'.fresh) =
      (general.rename (freshName general state.fresh)).rename ρ' := by
  obtain ⟨opened, copied, _, tidy, _⟩ := mirror.tidy.instantiate (fun _ marked => marked)
    variant.canonical variant.separate fun _ _ marked => marked
  obtain ⟨opened', copied', _, tidy', _⟩ := mirror.tidy'.instantiate (fun _ marked => marked)
    (general.canonical_rename τ) variant.separate_rename fun _ _ marked => marked
  obtain ⟨ρ', V', old, new, only, moved⟩ := mirror.number proper variant
  have news := mirror.matched_learnedNames proper variant old new only
  have apart : ∀ {kind name}, link.watch.stored kind name →
      (learnedNames general state.fresh).get? name = none := by
    intro kind name stored
    rw [learnedNames_get?, if_neg]
    rintro ⟨marked, inside⟩
    rcases mirror.kept.old (Or.inr stored) with ⟨n, _, _, rfl⟩ | ⟨rfl, _⟩
    · cases marked.symm.trans (not_isPlaceholder_numbered _ _)
    · rcases variant.quiet inside with ⟨before, _⟩ | quiet
      · exact ((mirror.named before).free proper).2 stored
      · exact quiet.stored marked stored
  have apart' : ∀ {kind name}, link.watch'.stored kind name →
      (learnedNames (general.rename τ) state'.fresh).get? name = none := by
    intro kind name stored
    rw [learnedNames_get?, if_neg]
    rintro ⟨marked, inside⟩
    have renamed : (general.rename τ).Uses .effect name := inside
    obtain ⟨other, before, rfl⟩ := Effect.uses_rename.mp renamed
    rcases mirror.kept'.old (Or.inr stored) with ⟨n, _, _, same⟩ | ⟨rfl, _⟩
    · rw [same, not_isPlaceholder_numbered] at marked
      cases marked
    · rcases variant.quiet before with ⟨used, same⟩ | quiet
      · exact ((mirror.named used).free' proper).2 (same ▸ stored)
      · exact quiet.stored' marked stored
  have shape : opened = { state with fresh := opened.fresh, running := opened.running } := by
    rw [← copied.effects, ← copied.errors]
  have shape' : opened' = { state' with fresh := opened'.fresh, running := opened'.running } := by
    rw [← copied'.effects, ← copied'.errors]
  rw [← copied.fresh, ← copied'.fresh] at moved
  refine ⟨opened, opened', ρ', V', copied, copied', ?_, ?_, ?_⟩
  · rw [shape, shape']
    exact moved.learn proper news copied.running copied'.running apart apart' (shape ▸ tidy)
      (shape' ▸ tidy')
  · intro kind name used
    obtain ⟨before, inside, rfl⟩ := Effect.uses_rename.mp used
    exact (new inside).1
  · rw [Effect.rename_rename, Effect.rename_rename]
    exact Effect.rename_congr fun kind name used => (new used).2.symm

end Copies

theorem spent (proper : link.Proper) (mirror : Mirror link ρ V state state') (effect : Effect) :
    ∃ ρ' V', Mirror link ρ' V' (spent state effect) (spent state' effect) := by
  obtain ⟨ρ', _, _, moved⟩ := mirror.extend proper (fun _ _ => False) id
    (le_variableBindings effect state.fresh) (le_variableBindings effect state'.fresh) False.elim
    (Vocabulary.injective_id _)
  exact ⟨ρ', _, moved⟩

theorem withResult (proper : link.Proper) (mirror : Mirror link ρ V state state') :
    ∃ ρ' V', (∀ {kind name}, V kind name → V' kind name ∧ ρ' name = ρ name) ∧
      V' .effect (resultName state) ∧ ρ' (resultName state) = resultName state' ∧
      Mirror link ρ' V' (withResult state) (withResult state') := by
  have count := count_withResult state effectStem
  have count' := count_withResult state' effectStem
  rw [if_pos rfl] at count count'
  obtain ⟨ρ', old, new, moved⟩ := mirror.extend proper
    (fun kind name => kind = .effect ∧ name = resultName state) (fun _ => resultName state')
    (state.fresh.le_next effectStem) (state'.fresh.le_next effectStem)
    (by
      rintro kind name ⟨rfl, rfl⟩
      refine ⟨_, _, Nat.le_refl _, ?_, Nat.le_refl _, ?_, resultName_eq state, resultName_eq state'⟩
      · show _ < (Inference.withResult state).fresh.count effectStem
        exact count ▸ Nat.lt_succ_self _
      · show _ < (Inference.withResult state').fresh.count effectStem
        exact count' ▸ Nat.lt_succ_self _)
    (by
      rintro kind kind' name name' ⟨_, rfl⟩ ⟨_, rfl⟩ _
      rfl)
  exact ⟨ρ', _, fun used => ⟨Or.inl used, old used⟩, Or.inr ⟨rfl, rfl⟩, new ⟨rfl, rfl⟩, moved⟩

theorem rewrite (proper : link.Proper) (mirror : Mirror link ρ V state state')
    {learned learned' : Substitution} (mirrored : Mirrored ρ V learned learned')
    {result effect effect' : Effect} (canonical : result.Canonical) (within : result.Over V)
    {after after' : State} (solved : Solved state learned result effect after)
    (solved' : Solved state' learned' (result.rename ρ) effect' after')
    (tidy : Tidy (fun name => isPlaceholder name = true) after)
    (tidy' : Tidy (fun name => isPlaceholder name = true) after') :
    Mirror link ρ V after after' ∧ effect.Canonical ∧ effect.Over V ∧ effect' = effect.rename ρ := by
  have matched := mirrored.matched (mirror.separate proper)
  have apart : ∀ {kind name}, link.watch.frozen kind name ∨ link.watch.stored kind name →
      learned.get? name = none := by
    intro kind name watched
    cases found : learned.get? name with
    | none => rfl
    | some value =>
      have used := (mirrored.spelled _ (mem_of_get? found)).1
      have old := possible_of_made (fun _ marked => marked) (mirror.kept.old watched)
      have new := possible_of_made (fun _ marked => marked) (mirror.made_left proper used)
      cases possible_separate.kind_eq old new
      obtain ⟨unfrozen, unstored⟩ := (mirror.named used).free proper
      exact absurd watched (not_or.mpr ⟨unfrozen, unstored⟩)
  have apart' : ∀ {kind name}, link.watch'.frozen kind name ∨ link.watch'.stored kind name →
      learned'.get? name = none := by
    intro kind name watched
    cases found : learned'.get? name with
    | none => rfl
    | some value =>
      have used := (mirrored.spelled' _ (mem_of_get? found)).1
      have old := possible_of_made (fun _ marked => marked) (mirror.kept'.old watched)
      have new := possible_of_made (fun _ marked => marked) (mirror.made_right proper used)
      cases possible_separate.kind_eq old new
      obtain ⟨before, used, rfl⟩ := used
      obtain ⟨unfrozen, unstored⟩ := (mirror.named used).free' proper
      exact absurd watched (not_or.mpr ⟨unfrozen, unstored⟩)
  have shape : after = { state with running := after.running, effects := after.effects } := by
    rw [← solved.errors, ← solved.fresh]
  have shape' : after' = { state' with running := after'.running, effects := after'.effects } := by
    rw [← solved'.errors, ← solved'.fresh]
  have kept : link.watch.Kept after := by
    rw [shape]
    exact (mirror.kept.rewrite proper.watch (fun watched => apart (Or.inl watched))
      solved.effects).learn proper.watch (fun watched => apart (Or.inr watched)) solved.running
  have kept' : link.watch'.Kept after' := by
    rw [shape']
    exact (mirror.kept'.rewrite proper.watch' (fun watched => apart' (Or.inl watched))
      solved'.effects).learn proper.watch' (fun watched => apart' (Or.inr watched)) solved'.running
  have changed : ∀ {id id' before}, link.nodes id id' → state.effects.get? id = some before →
      ∃ now, after.effects.get? id = some now ∧ now.Over V ∧
        after'.effects.get? id' = some (now.rename ρ) := by
    intro id id' before linked found
    have image := mirror.effects linked
    rw [found] at image
    obtain ⟨now, applied, recorded⟩ := (SortedMap.get?_mapValues solved.effects id).1 _ found
    obtain ⟨now', applied', recorded'⟩ := (SortedMap.get?_mapValues solved'.effects id').1 _ image
    obtain ⟨both, run, run', _, spelled⟩ :=
      matched.apply (mirror.tidy.canonical found) (mirror.within linked found)
    cases applied.symm.trans run
    cases applied'.symm.trans run'
    exact ⟨now, recorded, spelled, recorded'⟩
  refine ⟨⟨tidy, tidy', kept, kept', ?_, mirror.holes, mirror.injective, ?_, ?_, ?_, ?_, ?_⟩, ?_⟩
  · rw [solved.fresh, solved'.fresh]
    exact mirror.named
  · intro id id' linked
    cases found : state.effects.get? id with
    | none =>
      have image := mirror.effects linked
      rw [found] at image
      rw [(SortedMap.get?_mapValues solved.effects id).2 found,
        (SortedMap.get?_mapValues solved'.effects id').2 image]
      rfl
    | some before =>
      obtain ⟨now, recorded, _, recorded'⟩ := changed linked found
      rw [recorded, recorded']
      rfl
  · intro id id' now linked found
    obtain ⟨before, earlier, _⟩ := SortedMap.exists_of_get?_mapValues solved.effects found
    obtain ⟨now', recorded, spelled, _⟩ := changed linked earlier
    cases found.symm.trans recorded
    exact spelled
  · exact matched.compose mirror.keys_part mirror.running solved.running solved'.running
  · rw [solved.errors, solved'.errors]
    exact mirror.errors
  · rw [solved.errors, solved'.errors]
    exact mirror.clean
  · obtain ⟨both, run, run', canonical, spelled⟩ := matched.apply canonical within
    cases solved.result.symm.trans run
    cases solved'.result.symm.trans run'
    exact ⟨canonical, spelled, rfl⟩

theorem inputs (mirror : Mirror link ρ V state state') {inputs inputs' : List Effect}
    (each : List.Forall₂ (fun input input' => ∃ id id', link.nodes id id' ∧
      state.effects.get? id = some input ∧ state'.effects.get? id' = some input') inputs inputs') :
    inputs' = inputs.map (Effect.rename ρ) ∧ ∀ input ∈ inputs, input.Over V := by
  induction each with
  | nil => exact ⟨rfl, List.forall_mem_nil _⟩
  | cons head tail ih =>
    obtain ⟨same, spelled⟩ := ih
    obtain ⟨id, id', linked, found, found'⟩ := head
    have image := mirror.effects linked
    rw [found, found'] at image
    refine ⟨by rw [same, Option.some.inj image]; rfl, fun input member => ?_⟩
    rcases List.mem_cons.mp member with rfl | member
    · exact mirror.within linked found
    · exact spelled input member

theorem applySignature (proper : link.Proper) (mirror : Mirror link ρ V state state')
    {τ : String → String} {general : Effect} (variant : Variant link ρ V τ general)
    {inputs inputs' : List Effect}
    (each : List.Forall₂ (fun input input' => ∃ id id', link.nodes id id' ∧
      state.effects.get? id = some input ∧ state'.effects.get? id' = some input') inputs inputs')
    (expr expr' : Expr) (linked : link.nodes expr.id expr'.id)
    (unwatched : ¬ link.watch.nodes expr.id) (unwatched' : ¬ link.watch'.nodes expr'.id) :
    ∃ ρ' V', Mirror link ρ' V' (state.applySignature expr inputs general)
      (state'.applySignature expr' inputs' (general.rename τ)) := by
  obtain ⟨opened, opened', ρ₁, V₁, copied, copied', first, within, copy_eq⟩ :=
    mirror.instantiate proper variant
  obtain ⟨ρ₂, V₂, old, named, result_eq, second⟩ := first.withResult proper
  have recorded : ∀ input ∈ inputs, ∃ id, opened.effects.get? id = some input := by
    rw [copied.effects]
    intro input member
    obtain ⟨input', _, id, _, _, found, _⟩ := forall₂_mem_left each member
    exact ⟨id, found⟩
  have recorded' : ∀ input ∈ inputs', ∃ id, opened'.effects.get? id = some input := by
    rw [copied'.effects]
    intro input' member
    obtain ⟨input, _, _, id', _, _, found⟩ := forall₂_mem_right each member
    exact ⟨id', found⟩
  -- Both sides of the equation to be solved correspond under the new renaming.
  have copy_over : (general.rename (freshName general state.fresh)).Over V₂ :=
    fun kind name used => (old (within kind name used)).1
  have copy_eq' : (general.rename τ).rename (freshName (general.rename τ) state'.fresh) =
      (general.rename (freshName general state.fresh)).rename ρ₂ := by
    rw [copy_eq]
    exact Effect.rename_congr fun kind name used => (old (within kind name used)).2.symm
  have still : List.Forall₂ (fun input input' => ∃ id id', link.nodes id id' ∧
      opened.effects.get? id = some input ∧ opened'.effects.get? id' = some input')
      inputs inputs' := by
    rw [copied.effects, copied'.effects]
    exact each
  obtain ⟨inputs_eq, inputs_over⟩ := second.inputs still
  have used_eq : usedAs opened' inputs' = (usedAs opened inputs).rename ρ₂ := by
    rw [usedAs, usedAs, Effect.rename_arrow, inputs_eq, ← result_eq]
    rfl
  have used_over : (usedAs opened inputs).Over V₂ := by
    intro kind name used
    rcases Effect.uses_arrow.mp used with ⟨input, member, used⟩ | used
    · exact inputs_over input member kind name used
    · obtain ⟨rfl, rfl⟩ := Effect.uses_quantified.mp used
      exact named
  obtain ⟨_, outcome⟩ := first.tidy.applySignature (fun _ marked => marked) copied
    (fun kind name used => first.made_left proper (within kind name used)) recorded expr
  obtain ⟨_, outcome'⟩ := first.tidy'.applySignature (fun _ marked => marked) copied'
    (by rw [copy_eq]; exact first.spelled' proper within) recorded' expr'
  have solutions := Effect.unify_alike second.injective (Effect.canonical_rename _ _)
    (first.tidy.usedAs recorded).1 copy_over used_over
  rw [← copy_eq', ← used_eq] at solutions
  generalize state.applySignature expr inputs general = after at outcome ⊢
  generalize state'.applySignature expr' inputs' (general.rename τ) = after' at outcome' ⊢
  cases outcome with
  | failed clash =>
    cases outcome' with
    | failed clash' => exact ⟨ρ₂, V₂, second.recordError proper linked unwatched unwatched' rfl⟩
    | solved unified' _ _ =>
      rw [clash, unified'] at solutions
      cases solutions
  | solved unified uses done =>
    cases outcome' with
    | failed clash' =>
      rw [unified, clash'] at solutions
      cases solutions
    | solved unified' uses' done' =>
      rw [unified, unified'] at solutions
      cases solutions with
      | ok mirrored =>
        rw [← result_eq] at uses'
        obtain ⟨last, canonical, spelled, rfl⟩ := second.rewrite proper mirrored (.quantified _)
          (fun kind name used => used_over kind name (Effect.uses_arrow.mpr (Or.inr used)))
          uses uses' done done'
        exact ⟨ρ₂, V₂, last.record proper linked unwatched unwatched' canonical spelled⟩

section Lambdas

variable (proper : link.Proper) (mirror : Mirror link ρ V state state') {id id' : NodeId}
  {params params' : List Param}

include proper mirror

theorem openLambda (each : List.Forall₂ (fun param param' => link.nodes param.id param'.id ∧
      ¬ link.watch.nodes param.id ∧ ¬ link.watch'.nodes param'.id ∧
      link.holes (placeholder param.name id) (placeholder param'.name id')) params params') :
    Mirror link ρ V (state.openLambda id params) (state'.openLambda id' params') := by
  unfold State.openLambda
  induction each generalizing state state' with
  | nil => exact mirror
  | @cons param param' _ _ head _ ih =>
    obtain ⟨linked, unwatched, unwatched', hole⟩ := head
    obtain ⟨used, same⟩ := mirror.holes hole
    have next := mirror.record proper linked unwatched unwatched'
      (.quantified (placeholder param.name id)) (fun kind name inside => by
        obtain ⟨rfl, rfl⟩ := Effect.uses_quantified.mp inside
        exact used)
    rw [Effect.rename, same] at next
    exact ih next

omit proper in
theorem learnedParams (each : List.Forall₂ (fun param param' =>
      link.holes (placeholder param.name id) (placeholder param'.name id')) params params') :
    ∃ effects, State.learnedParams state.running id params = .ok effects ∧
      State.learnedParams state'.running id' params' = .ok (effects.map (Effect.rename ρ)) ∧
      ∀ effect ∈ effects, effect.Canonical ∧ effect.Over V := by
  induction each with
  | nil => exact ⟨[], rfl, rfl, List.forall_mem_nil _⟩
  | @cons param param' _ _ hole _ ih =>
    obtain ⟨effects, run, run', each⟩ := ih
    have key : link.keys .effect (placeholder param.name id) := ⟨rfl, _, hole⟩
    have image := mirror.running.valueAt_image key
    have spelled := mirror.running.over_valueAt mirror.keys_part key
    have allowed := mirror.running.allows key
    rw [(mirror.holes hole).2] at image
    rw [Allows] at allowed
    have canonical := everySet_valueAt mirror.running.canonical (fun _ => trivial) .effect
      (placeholder param.name id)
    generalize value : state.running.valueAt .effect (placeholder param.name id) = term
      at image spelled allowed canonical
    cases term
    · rename_i effect
      refine ⟨effect :: effects, ?_, ?_, fun other member => ?_⟩
      · simp only [State.learnedParams, bind_eq_ok, pure_eq_ok]
        exact ⟨effect, apply_quantified.mpr value, effects, run, rfl⟩
      · simp only [State.learnedParams, bind_eq_ok, pure_eq_ok]
        exact ⟨_, apply_quantified.mpr image, _, run', rfl⟩
      · rcases List.mem_cons.mp member with rfl | member
        · exact ⟨canonical, spelled⟩
        · exact each other member
    · cases allowed

theorem closeLambda (linked : link.nodes id id') (unwatched : ¬ link.watch.nodes id)
    (unwatched' : ¬ link.watch'.nodes id') {body body' : Expr}
    (linked_body : link.nodes body.id body'.id) (each : List.Forall₂ (fun param param' =>
      link.holes (placeholder param.name id) (placeholder param'.name id')) params params') :
    Mirror link ρ V (state.closeLambda id params body) (state'.closeLambda id' params' body') := by
  have image := mirror.effects linked_body
  obtain ⟨inputs, run, run', spec⟩ := mirror.learnedParams each
  unfold State.closeLambda
  rw [image, run, run']
  cases found : state.effects.get? body.id with
  | none => exact mirror
  | some output =>
    have next := mirror.record proper linked unwatched unwatched'
      (.arrow (fun input member => (spec input member).1) (mirror.tidy.canonical found))
      (fun kind name used => by
        rcases Effect.uses_arrow.mp used with ⟨input, member, used⟩ | used
        · exact (spec input member).2 kind name used
        · exact mirror.within linked_body found kind name used)
    rw [Effect.rename_arrow] at next
    exact next

end Lambdas

theorem copyEffect (proper : link.Proper) (mirror : Mirror link ρ V state state')
    {id id' source source' : NodeId} (linked : link.nodes id id') (unwatched : ¬ link.watch.nodes id)
    (unwatched' : ¬ link.watch'.nodes id') (linked_source : link.nodes source source') :
    Mirror link ρ V (state.copyEffect id source) (state'.copyEffect id' source') := by
  unfold State.copyEffect
  rw [mirror.effects linked_source]
  cases found : state.effects.get? source with
  | none => exact mirror
  | some effect =>
    exact mirror.record proper linked unwatched unwatched' (mirror.tidy.canonical found)
      (mirror.within linked_source found)

theorem closeLet (proper : link.Proper) (mirror : Mirror link ρ V state state')
    (alert : link.alert) {id id' body body' : NodeId} (linked : link.nodes id id')
    (unwatched : ¬ link.watch.nodes id) (unwatched' : ¬ link.watch'.nodes id')
    (linked_body : link.nodes body body') {after : State}
    (run : state.closeLet id body = .ok after) :
    ∃ after', state'.closeLet id' body' = .ok after' ∧ Mirror link ρ V after after' := by
  unfold State.closeLet at run ⊢
  rw [mirror.clean alert, mirror.effects linked_body]
  split at run
  · rename_i clean
    rw [if_pos clean]
    split at run
    · rename_i effect found
      cases run
      rw [found]
      exact ⟨_, rfl, mirror.record proper linked unwatched unwatched' (mirror.tidy.canonical found)
        (mirror.within linked_body found)⟩
    · cases run
  · rename_i failed
    rw [if_neg failed]
    cases run
    exact ⟨_, rfl, mirror⟩

end Mirror

end SpecEffects.Inference
