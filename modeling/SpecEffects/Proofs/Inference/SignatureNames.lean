import SpecEffects.Proofs.Inference.Lockstep
import SpecEffects.Proofs.Inference.ModuleNames
import SpecEffects.Proofs.Signatures

/-!
The names that signatures are written with. Only copies of signatures are used, and their names are
new, so it does not matter what names a signature has, provided that none of them is the placeholder
of a parameter: what a copy of a signature makes of a placeholder is learned.
-/
namespace SpecEffects

namespace SortedMap

variable {κ ν μ : Type} [Ord κ] [DecidableEq κ] [Std.TransOrd κ] [Std.LawfulEqOrd κ]

omit [Std.TransOrd κ] in
theorem mem_keys {m : SortedMap κ ν} {k : κ} : k ∈ m.keys ↔ m.contains k = true := by
  rw [contains, Option.isSome_iff_exists]
  constructor
  · intro member
    obtain ⟨entry, present, rfl⟩ := List.mem_map.mp member
    exact ⟨entry.2, get?_of_mem present⟩
  · rintro ⟨v, found⟩
    exact mem_keys_of_get? found

omit [DecidableEq κ] [Std.TransOrd κ] [Std.LawfulEqOrd κ] in
theorem eq_of_entries {m m' : SortedMap κ ν} (same : m.entries = m'.entries) : m = m' := by
  cases m
  cases m'
  cases same
  rfl

theorem keys_eq {m : SortedMap κ ν} {m' : SortedMap κ μ}
    (same : ∀ k, m'.contains k = m.contains k) : m'.keys = m.keys := by
  have sets : (⟨m'.keys, m'.ascending⟩ : SortedSet κ) = ⟨m.keys, m.ascending⟩ := by
    refine SortedSet.ext fun k => ?_
    show k ∈ m'.keys ↔ k ∈ m.keys
    rw [mem_keys, mem_keys, same]
  exact congrArg SortedSet.toList sets

end SortedMap

namespace Inference

open Substitution

variable {m : Module}

def sameNodes (m : Module) : Link where
  nodes := Eq
  holes h h' := h = h' ∧ h ∈ m.placeholders
  watch := .none
  watch' := .none

theorem isPlaceholder_of_module {name : String} (member : name ∈ m.placeholders) :
    isPlaceholder name = true := by
  obtain ⟨declaration, _, inside⟩ := List.mem_flatMap.mp member
  cases expr : declaration.expr? with
  | none =>
    rw [expr] at inside
    cases inside
  | some expr' =>
    rw [expr] at inside
    exact isPlaceholder_of_mem inside

theorem placeholders_inside {id : NodeId} {name : String} {declarations : List Declaration}
    {declaration : Declaration} (member : declaration ∈ declarations) :
    declaration.placeholders ⊆ (Declaration.submodule id name declarations).placeholders := by
  intro hole used
  obtain ⟨inner, present, inside⟩ := List.mem_flatMap.mp used
  refine List.mem_flatMap.mpr ⟨inner, ?_, inside⟩
  rw [Declaration.all_submodule]
  exact List.mem_cons_of_mem _ (List.mem_flatMap.mpr ⟨declaration, member, present⟩)

theorem sameNodes_proper (m : Module) : (sameNodes m).Proper where
  left same same' := same.symm.trans same'
  right same same' := same.trans same'.symm
  marked := fun ⟨same, member⟩ => ⟨isPlaceholder_of_module member, same ▸ isPlaceholder_of_module member⟩
  holes_left same same' := same.1.symm.trans same'.1
  holes_right same same' := same.1.trans same'.1.symm
  watch := Watch.proper_none
  watch' := Watch.proper_none
  free _ := ⟨id, id⟩
  free' _ := ⟨id, id⟩

theorem sameNodes_start (m : Module) : Mirror (sameNodes m) id
    (fun kind name => kind = .effect ∧ name ∈ m.placeholders) .start .start where
  tidy := .start _
  tidy' := .start _
  kept := Watch.kept_none _
  kept' := Watch.kept_none _
  named := fun ⟨at_effect, member⟩ => Or.inr ⟨at_effect, rfl, member⟩
  holes := fun ⟨same, member⟩ => ⟨⟨rfl, member⟩, same⟩
  injective := Vocabulary.injective_id _
  effects _ := rfl
  within := nofun
  running := ⟨everySet_empty, everySet_empty, nofun, fun _ => rfl⟩
  errors _ := rfl
  clean _ := rfl

/-- The signatures differ in the names of one of them only, and these are not placeholders of the
module. -/
structure Reworded (m : Module) (operator : String) (effect : Effect) (τ : String → String)
    (signatures signatures' : SignatureTable) : Prop where
  fixed : ∀ {name effect}, signatures.get? name = some (.fixed effect) →
    effect.Canonical ∧ (Vocabulary.usedIn [effect]).Separate
  listed : signatures.get? operator = some (.fixed effect)
  injective : (Vocabulary.usedIn [effect]).Injective τ
  renamed : signatures' = signatures.insert operator (.fixed (effect.rename τ))
  apart : ∀ name ∈ m.placeholders,
    ¬ effect.Uses .effect name ∧ ¬ (effect.rename τ).Uses .effect name

namespace Reworded

variable {operator : String} {effect : Effect} {τ : String → String}
  {signatures signatures' : SignatureTable}
  (reworded : Reworded m operator effect τ signatures signatures')

include reworded

theorem keys : signatures'.keys = signatures.keys := by
  refine SortedMap.keys_eq fun k => ?_
  rw [SortedMap.contains, SortedMap.contains, reworded.renamed, SortedMap.get?_insert]
  split
  · rename_i same
    rw [← same, reworded.listed]
    rfl
  · rfl

theorem akin (name : String) (arity : Nat) :
    (sameNodes m).Akin (signatures.signature? name arity) (signatures'.signature? name arity) := by
  have quiet : ∀ {h h' : String}, h ∉ m.placeholders → h' ∉ m.placeholders →
      (sameNodes m).Quiet h h' := fun absent absent' =>
    ⟨fun _ hole => absent hole.2, fun _ hole => absent' (hole.1 ▸ hole.2), fun _ => id, fun _ => id⟩
  rw [SignatureTable.signature?, SignatureTable.signature?, reworded.renamed, SortedMap.get?_insert]
  by_cases same : operator = name
  · subst same
    rw [if_pos rfl, reworded.listed]
    obtain ⟨canonical, separate⟩ := reworded.fixed reworded.listed
    refine .some ⟨τ, rfl, canonical, separate, reworded.injective, fun {h} used => Or.inr ?_⟩
    refine quiet (fun member => (reworded.apart h member).1 used) fun member => ?_
    exact (reworded.apart _ member).2 (Effect.uses_rename.mpr ⟨h, used, rfl⟩)
  · rw [if_neg same]
    cases found : signatures.get? name with
    | none => exact .none
    | some signature =>
      cases signature with
      | fixed other =>
        obtain ⟨canonical, separate⟩ := reworded.fixed found
        refine .some ⟨id, (Effect.rename_id canonical).symm, canonical, separate,
          Vocabulary.injective_id _, fun {h} used => ?_⟩
        by_cases member : h ∈ m.placeholders
        · exact Or.inl ⟨rfl, member⟩
        · exact Or.inr (quiet member member)
      | propagate components =>
        obtain ⟨canonical, unused⟩ := propagate_spec components arity
        refine .some ⟨id, (Effect.rename_id canonical).symm, canonical, fun name used => ?_,
          Vocabulary.injective_id _, fun used => absurd used (unused _)⟩
        exact absurd (usedIn_singleton.mp used) (unused name)

variable {table : NameTable} {scopes : ScopeTree}

theorem means (name : String) (id : NodeId) :
    Means (sameNodes m) ⟨signatures, table, scopes⟩ ⟨signatures', table, scopes⟩ name id id := by
  intro definition? resolved
  exact ⟨definition?, resolved, agree_same (reworded.akin name) (fun _ _ _ => rfl)
    fun _ _ _ => Or.inl rfl⟩

theorem simulates {expr : Expr} (inside : expr.placeholders ⊆ m.placeholders) :
    Simulates (sameNodes m) False ⟨signatures, table, scopes⟩ ⟨signatures', table, scopes⟩
      expr expr := by
  refine simulates_same (sameNodes_proper m) fun node member => ⟨fun id _ => ?_, fun hole own => ?_,
    fun name _ => reworded.means name node.id, fun _ => trivial⟩
  · exact ⟨rfl, fun absurd => absurd, fun absurd => absurd⟩
  · exact ⟨rfl, inside (List.mem_flatMap.mpr ⟨node, member, own⟩)⟩

theorem inferDeclaration {names : List String} {declaration : Declaration}
    (inside : declaration.placeholders ⊆ m.placeholders) {ρ : String → String} {V : Vocabulary}
    {state state' after : State} (mirror : Mirror (sameNodes m) ρ V state state')
    (run : inferDeclaration ⟨signatures, m.nameTables names⟩ ⟨signatures, table, scopes⟩ state
      declaration = .ok after) :
    ∃ ρ' V' after', inferDeclaration ⟨signatures', m.nameTables names⟩
      ⟨signatures', table, scopes⟩ state' declaration = .ok after' ∧
      Mirror (sameNodes m) ρ' V' after after' := by
  have proper := sameNodes_proper m
  have of_expr : ∀ {declaration : Declaration} {expr : Expr}, declaration.expr? = some expr →
      declaration.all = [declaration] → declaration.placeholders ⊆ m.placeholders →
      expr.placeholders ⊆ m.placeholders := by
    intro declaration expr holds alone inside name member
    refine inside (List.mem_flatMap.mpr ⟨declaration, alone ▸ List.mem_singleton_self _, ?_⟩)
    rw [holds]
    exact member
  induction declaration generalizing table scopes ρ V state state' after with
  | stateVariable id name =>
    cases run
    exact ⟨ρ, V, _, rfl, mirror⟩
  | constant id name =>
    cases run
    exact ⟨ρ, V, _, rfl, mirror⟩
  | operator definition =>
    simp only [Inference.inferDeclaration, bind_eq_ok, pure_eq_ok] at run ⊢
    obtain ⟨middle, inner, rfl⟩ := run
    obtain ⟨ρ', V', middle', inner', between⟩ :=
      reworded.simulates (of_expr rfl rfl inside) mirror False.elim inner
    exact ⟨ρ', V', _, ⟨middle', inner', rfl⟩, between.copyEffect proper rfl id id rfl⟩
  | assumption id name expr =>
    exact reworded.simulates (of_expr rfl rfl inside) mirror False.elim run
  | submodule id name declarations ih =>
    simp only [Inference.inferDeclaration, Environment.context, bind_eq_ok] at run ⊢
    obtain ⟨context, entered, run⟩ := run
    cases found : (m.nameTables names).get? name with
    | none =>
      simp only [found] at entered
      cases entered
    | some table' =>
      simp only [found] at entered
      cases entered
      obtain ⟨ρ', V', after', run', done⟩ := inferDeclarations_mirrors
        (fun declaration member ρ V state state' after mirror run =>
          ih declaration member (fun name used => inside (placeholders_inside member used)) mirror run)
        mirror run
      exact ⟨ρ', V', after', ⟨_, rfl, run'⟩, done⟩

end Reworded

end Inference

def Analysis.names (analysis : Analysis) : Vocabulary := fun kind name =>
  ∃ id effect, analysis.effectOf? id = some effect ∧ effect.Uses kind name

namespace Inference

/-- Where no name of a signature is the placeholder of a parameter of the module, any other such
names lead to the same analysis up to the numbers of new names. -/
theorem analysis_is_independent_of_signature_names {document operator : String}
    {signatures signatures' : SignatureTable} {effect : Effect} {τ : String → String} {m : Module}
    (read : SignatureTable.ofDocument document = .ok signatures)
    (listed : signatures.get? operator = some (.fixed effect))
    (injective : (Vocabulary.usedIn [effect]).Injective τ)
    (renamed : signatures' = signatures.insert operator (.fixed (effect.rename τ)))
    (distinct : m.ids.Nodup)
    (apart : ∀ name ∈ m.placeholders,
      ¬ effect.Uses .effect name ∧ ¬ (effect.rename τ).Uses .effect name) :
    ∃ analysis analysis' ρ, m.analyze signatures = .ok analysis ∧
      m.analyze signatures' = .ok analysis' ∧
      (∀ id, analysis'.effectOf? id = (analysis.effectOf? id).map (Effect.rename ρ)) ∧
      analysis'.diagnostics.map Diagnostic.node = analysis.diagnostics.map Diagnostic.node ∧
      analysis.names.Injective ρ ∧
      ∀ kind name, analysis.names kind name →
        (∃ n n', name = numbered kind n ∧ ρ name = numbered kind n') ∨
          name ∈ m.placeholders ∧ ρ name = name := by
  have reworded : Reworded m operator effect τ signatures signatures' :=
    ⟨SignatureTable.fixed_of_document read, listed, injective, renamed, apart⟩
  obtain ⟨state, run⟩ : ∃ state, m.infer signatures = .ok state := inferModule_total distinct .start
  have whole : inferDeclaration (m.environment signatures) ⟨signatures, ⟨[]⟩, m.scopeTree⟩ .start
      m.toDeclaration = .ok state := by
    rw [inferDeclaration_toDeclaration]
    exact run
  obtain ⟨ρ, V, state', run', mirror⟩ := reworded.inferDeclaration (List.Subset.refl _)
    (sameNodes_start m) whole
  rw [inferDeclaration_toDeclaration, ← reworded.keys] at run'
  have inside : ∀ {kind name}, state.analysis.names kind name → V kind name := by
    rintro kind name ⟨id, effect, found, used⟩
    exact mirror.within rfl found kind name used
  refine ⟨state.analysis, state'.analysis, ρ, ?_, ?_, fun id => mirror.effects rfl, ?_, ?_, ?_⟩
  · rw [Module.analyze, run]
    rfl
  · rw [Module.analyze, Module.infer, Module.environment, run']
    rfl
  · have same : state'.errors.keys = state.errors.keys := SortedMap.keys_eq fun id => mirror.failed rfl
    simpa [State.analysis, SortedMap.keys, Function.comp_def] using same
  · exact Vocabulary.Injective.mono mirror.injective fun kind name used => inside used
  · intro kind name used
    rcases mirror.named (inside used) with ⟨n, n', _, _, eq, eq', _⟩ | ⟨_, same, member⟩
    · exact Or.inl ⟨n, n', eq, eq'⟩
    · exact Or.inr ⟨member, same.symm⟩

/-- The new names of a signature come in another order, and one of them looks like a placeholder. -/
theorem analysis_with_reworded_signature :
    let document :=
      "\x7b\"b\": \x7b\"effect\": \"(q, a) => q\"\x7d, \"c\": \x7b\"propagate\": [\"read\"]\x7d\x7d"
    let effect : Effect := .arrow [.quantified "q", .quantified "a"] (.quantified "q")
    let signatures : SignatureTable := .ofList [("b", .fixed effect), ("c", .propagate [.read])]
    let τ : String → String := fun name => if name = "q" then "e_p_9" else "z"
    let signatures' := signatures.insert "b" (.fixed (effect.rename τ))
    let m : Module := ⟨⟨1⟩, "M",
      [.operator ⟨⟨2⟩, "f", .ref ⟨3⟩ "b"⟩,
        .operator ⟨⟨4⟩, "h", .lambda ⟨7⟩ [⟨⟨5⟩, "p"⟩] (.app ⟨6⟩ "f" [.ref ⟨8⟩ "p", .ref ⟨9⟩ "y"])⟩]⟩
    SignatureTable.ofDocument document = .ok signatures ∧
      signatures.get? "b" = some (.fixed effect) ∧ (Vocabulary.usedIn [effect]).Injective τ ∧
      m.ids.Nodup ∧ (∀ name ∈ m.placeholders,
        ¬ effect.Uses .effect name ∧ ¬ (effect.rename τ).Uses .effect name) ∧
      ∃ analysis analysis' ρ, m.analyze signatures = .ok analysis ∧
        m.analyze signatures' = .ok analysis' ∧
        (∀ id, analysis'.effectOf? id = (analysis.effectOf? id).map (Effect.rename ρ)) ∧
        analysis'.diagnostics.map Diagnostic.node = analysis.diagnostics.map Diagnostic.node ∧
        analysis.names.Injective ρ ∧
        ∀ kind name, analysis.names kind name →
          (∃ n n', name = numbered kind n ∧ ρ name = numbered kind n') ∨
            name ∈ m.placeholders ∧ ρ name = name := by
  intro document effect signatures τ signatures' m
  have read : SignatureTable.ofDocument document = .ok signatures := by
    obtain ⟨table, run, entries⟩ := exists_ok SortedMap.entries (show
      (SignatureTable.ofDocument document).toOption.map SortedMap.entries = some signatures.entries by
        decide +kernel)
    rw [run, SortedMap.eq_of_entries entries]
  have listed : signatures.get? "b" = some (.fixed effect) := by decide
  have names : ∀ {kind name}, Vocabulary.usedIn [effect] kind name → name = "q" ∨ name = "a" := by
    intro kind name used
    rcases Effect.uses_arrow.mp (usedIn_singleton.mp used) with ⟨param, member, used⟩ | used
    · rcases List.mem_pair.mp member with rfl | rfl
      · exact Or.inl (Effect.uses_quantified.mp used).2
      · exact Or.inr (Effect.uses_quantified.mp used).2
    · exact Or.inl (Effect.uses_quantified.mp used).2
  have injective : (Vocabulary.usedIn [effect]).Injective τ := by
    intro kind kind' name name' used used'
    rcases names used with rfl | rfl <;> rcases names used' with rfl | rfl <;> decide
  have distinct : m.ids.Nodup := by decide
  have apart : ∀ name ∈ m.placeholders,
      ¬ effect.Uses .effect name ∧ ¬ (effect.rename τ).Uses .effect name := by decide
  exact ⟨read, listed, injective, distinct, apart,
    analysis_is_independent_of_signature_names read listed injective rfl distinct apart⟩

/-- A signature with the name of a placeholder: the parameter of the lambda gets the name that was
new for the copy of the signature, and is no longer tied to the result. -/
theorem signature_name_unties_parameter :
    let effect : Effect := .arrow [.quantified "q"] (.quantified "q")
    let τ : String → String := fun _ => "e_p_7"
    let signatures : SignatureTable := .ofList [("b", .fixed effect)]
    let signatures' := signatures.insert "b" (.fixed (effect.rename τ))
    let m : Module := ⟨⟨1⟩, "M",
      [.operator ⟨⟨2⟩, "f", .ref ⟨3⟩ "b"⟩,
        .operator ⟨⟨4⟩, "h", .lambda ⟨7⟩ [⟨⟨5⟩, "p"⟩] (.ref ⟨6⟩ "p")⟩]⟩
    SignatureTable.ofDocument "\x7b\"b\": \x7b\"effect\": \"(q) => q\"\x7d\x7d" = .ok signatures ∧
      SignatureTable.ofDocument "\x7b\"b\": \x7b\"effect\": \"(e_p_7) => e_p_7\"\x7d\x7d" = .ok signatures' ∧
      m.ids.Nodup ∧ ∃ analysis analysis', m.analyze signatures = .ok analysis ∧
        m.analyze signatures' = .ok analysis' ∧
        analysis.effectOf? ⟨4⟩ = some (.arrow [.quantified "e_p_7"] (.quantified "e_p_7")) ∧
        analysis'.effectOf? ⟨4⟩ = some (.arrow [.quantified "_e0"] (.quantified "e_p_7")) ∧
        ∀ ρ, analysis'.effectOf? ⟨4⟩ ≠ (analysis.effectOf? ⟨4⟩).map (Effect.rename ρ) := by
  intro effect τ signatures signatures' m
  have reads : ∀ {document : String} {table : SignatureTable},
      (SignatureTable.ofDocument document).toOption.map SortedMap.entries = some table.entries →
      SignatureTable.ofDocument document = .ok table := by
    intro document table computed
    obtain ⟨found, run, entries⟩ := exists_ok SortedMap.entries computed
    rw [run, SortedMap.eq_of_entries entries]
  obtain ⟨analysis, run, seen⟩ := exists_ok (fun analysis : Analysis => analysis.effectOf? ⟨4⟩)
    (show (m.analyze signatures).toOption.map _ =
      some (some (.arrow [.quantified "e_p_7"] (.quantified "e_p_7"))) by decide)
  obtain ⟨analysis', run', seen'⟩ := exists_ok (fun analysis : Analysis => analysis.effectOf? ⟨4⟩)
    (show (m.analyze signatures').toOption.map _ =
      some (some (.arrow [.quantified "_e0"] (.quantified "e_p_7"))) by decide)
  refine ⟨reads (by decide +kernel), reads (by decide +kernel), by decide, analysis, analysis', run,
    run', seen, seen', fun ρ same => ?_⟩
  rw [seen, seen'] at same
  simp only [Option.map_some, Effect.rename, Effect.renameAll, Option.some.injEq, Effect.arrow.injEq,
    List.cons.injEq, Effect.quantified.injEq, and_true] at same
  exact absurd (same.1.trans same.2.symm) (by decide)

end Inference

end SpecEffects
