import SpecEffects.Proofs.Inference.Arrival

/-!
Expressions that depend on definitions without a scope only, and on lets whose effects are known. If
such an expression has an effect without placeholders somewhere, it has the same effect up to a
renaming wherever a copy of it stands.
The names in this effect are new, and what has been learned about other names does not change.
-/
namespace SpecEffects.Inference

open Substitution

variable {heads : NodeId → Prop} {context context' : Context}
  {start visible visible' : List NameDefinition}
  {names : List String} {base state after : State} {value expr : Expr} {effect : Effect}
  {stored : Vocabulary} {τ : String → String}

structure Standalone (heads : NodeId → Prop) (context : Context) (start visible : List NameDefinition)
    (names : List String) (expr : Expr) : Prop where
  placed : Placed Expr.binders context visible expr
  global : ∀ {name}, name ∈ names →
    context.table.meaning visible name = context.table.meaning start name
  outside : ∀ {site}, heads site → site ∉ expr.ids
  nodup : expr.ids.Nodup

structure Sample (heads : NodeId → Prop) (context : Context) (start visible : List NameDefinition)
    (base : State) (value : Expr) (effect : Effect) : Prop where
  standalone : Standalone heads context start visible value.freeNames value
  unseen : Unseen value.ids base
  clean : base.errors.isEmpty = true
  run : ∃ late, inferExpr context base value = .ok late ∧ late.effects.get? value.id = some effect
  unmarked : ∀ {name}, effect.Uses .effect name → isPlaceholder name = false

/-- Inferring a copy gives a renamed effect with new names, and changes nothing else. -/
structure Renders (expr : Expr) (state : State) (stored : Vocabulary) (effect : Effect)
    (τ : String → String) (after : State) : Prop where
  found : after.effects.get? expr.id = some (effect.rename τ)
  matching : Matching (some effect) (some (effect.rename τ))
  injective : (Vocabulary.usedIn [effect]).Injective τ
  numbers : ∀ {kind name}, effect.Uses kind name → ∃ n, state.fresh.count (stem kind) ≤ n ∧
    n < after.fresh.count (stem kind) ∧ τ name = numbered kind n
  kept : (watchFrom expr.ids state stored).Kept after
  tidy : Tidy (fun name => isPlaceholder name = true) after
  order : state.fresh ≤ after.fresh
  clean : after.errors.isEmpty = true

theorem Sample.infer (sample : Sample heads context start visible base value effect)
    (globals : SameGlobals context context' start heads)
    (same : ∀ {site}, heads site → Matching (base.effects.get? site) (state.effects.get? site))
    (copy : value.Copy expr)
    (standalone : Standalone heads context' start visible' value.freeNames expr)
    (unseen : Unseen expr.ids state) (clean : state.errors.isEmpty = true)
    (steady : Steady expr.ids state stored) (spare : HeadsSpare heads state stored) :
    ∃ τ after, inferExpr context' state expr = .ok after ∧
      Renders expr state stored effect τ after := by
  obtain ⟨own, early, calm, ⟨late, run, found⟩, unmarked⟩ := sample
  have similar : Similar heads value.ids expr.ids base state :=
    ⟨early, unseen, same, clean.trans calm.symm⟩
  have plain' : Plain context'.signatures := globals.self'.plain
  have none_stored := steady_none value.ids base
  obtain ⟨kept, roots, ρ, V, after, pairing, linked, run', mirror⟩ := infer_alike similar none_stored
    steady (fun _ _ _ _ _ _ => not_false) spare (fun head => ⟨own.outside head, standalone.outside head⟩)
    (globals.views
      (fun known => own.global (known.resolve_left List.not_mem_nil))
      fun known => standalone.global (known.resolve_left List.not_mem_nil))
    (fun _ _ => opens_own fun known other => known.imp_left fun inside =>
      (List.mem_append.mp inside).resolve_left other)
    own.placed standalone.placed ⟨globals.plain, plain', own.nodup, standalone.nodup⟩ run
    (Expr.alike_of_free copy fun _ used => Or.inr used)
  have proper := between_proper pairing pairing.ties early unseen none_stored steady
  obtain ⟨found', variant⟩ := mirror.variant_of_linked proper linked found
  have known : late.Known value.id := Option.isSome_of_eq_some found
  have matching := Matching.some variant.canonical variant.separate variant.injective
  refine ⟨ρ, after, run', found', matching, variant.injective, fun {kind name} used => ?_,
    mirror.kept', mirror.tidy', ?_, ?_⟩
  · rcases mirror.named (mirror.within linked found kind name used) with
      ⟨_, n, _, below, _, eq, _, free⟩ | ⟨rfl, hole⟩
    · refine ⟨n, Nat.le_of_not_lt fun early => free.1 (Or.inl ⟨n, Nat.zero_le _, early, eq⟩), below, eq⟩
    · cases (unmarked used).symm.trans (proper.marked hole).1
  · exact (inferExpr_leaves plain' (unseen.mono (List.nil_subset _)) (fun _ _ => List.not_mem_nil)
      run').order
  · rw [mirror.clean similar.clean, errors_of_effect early own.nodup run known]
    exact calm

theorem Sample.keeps (sample : Sample heads context start visible base value effect)
    (globals : SameGlobals context context start heads) {late : State}
    (run : inferExpr context base value = .ok late) {id : NodeId} (other : id ∉ value.ids) :
    late.effects.get? id = base.effects.get? id := by
  obtain ⟨τ, after, run', renders⟩ := sample.infer globals (fun _ => .refl sample.unseen _)
    (.refl (fun _ => trivial) (fun _ _ => trivial) [] value) sample.standalone sample.unseen
    sample.clean (steady_none _ _) fun _ _ _ _ _ _ => not_false
  cases run.symm.trans run'
  exact renders.kept.effects other

namespace Renders

variable (renders : Renders expr state stored effect τ after)

include renders

theorem unmarked {name : String} (used : (effect.rename τ).Uses .effect name) :
    isPlaceholder name = false := by
  obtain ⟨old, before, rfl⟩ := Effect.uses_rename.mp used
  obtain ⟨n, _, _, eq⟩ := renders.numbers before
  rw [eq, not_isPlaceholder_numbered]

theorem copyEffect (site : NodeId) :
    after.copyEffect site expr.id = after.record site (effect.rename τ) := by
  rw [State.copyEffect, renders.found]

theorem unmade {kind : Kind} {name : String} (used : (effect.rename τ).Uses kind name) :
    ¬ made .empty state.fresh (fun name => isPlaceholder name = true) kind name := by
  obtain ⟨old, before, rfl⟩ := Effect.uses_rename.mp used
  obtain ⟨n, above, _, eq⟩ := renders.numbers before
  intro early
  have below := (made_of_numbered early (fun _ marked => marked) eq).2
  omega

end Renders

end SpecEffects.Inference
