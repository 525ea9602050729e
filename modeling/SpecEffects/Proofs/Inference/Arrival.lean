import SpecEffects.Proofs.Inference.Abreast
import SpecEffects.Proofs.Inference.Evaluation

/-!
What is known where inference comes to a declaration. Inferring an expression at the top of a
declaration changes nothing outside of it, and it adds no errors where the expression gets an effect.
So the declarations that come earlier still have the effects that were found for them, and the effects
that are found for the declaration itself stay.
-/
namespace SpecEffects.Inference

open Substitution

variable {heads : NodeId → Prop} {context : Context} {expr : Expr} {state after : State}

theorem inferExpr_keeps {own : Bool} (globals : SameGlobals context context [] heads)
    (outside : ∀ {site}, heads site → site ∉ expr.ids)
    (placed : Placed (seenLocals own) context [] expr) (unseen : Unseen expr.ids state)
    (nodup : expr.ids.Nodup) (run : inferExpr context state expr = .ok after) {id : NodeId}
    (other : id ∉ expr.ids) : after.effects.get? id = state.effects.get? id := by
  have similar : Similar heads expr.ids expr.ids state state :=
    ⟨unseen, unseen, fun _ => .refl unseen _, rfl⟩
  obtain ⟨_, _, _, _, _, _, _, _, mirror⟩ := infer_alike similar (steady_none _ _) (steady_none _ _)
    (fun _ _ _ _ _ _ => not_false) (fun _ _ _ _ _ _ => not_false)
    (fun head => ⟨outside head, outside head⟩) (globals.views (fun _ => rfl) fun _ => rfl)
    (fun _ _ => opens_seen own) placed placed ⟨globals.plain, globals.plain, nodup, nodup⟩ run
    (.refl (fun _ => trivial) (fun _ _ => trivial) [] expr)
  exact mirror.kept.effects other

/-- An expression that gets an effect leaves it as it was whether there are errors. -/
theorem errors_of_effect (unseen : Unseen expr.ids state) (nodup : expr.ids.Nodup)
    (run : inferExpr context state expr = .ok after) (found : after.Known expr.id) :
    after.errors.isEmpty = state.errors.isEmpty := by
  obtain ⟨adds, judged, _⟩ := inferExpr_judgement unseen nodup run
  rw [Bool.eq_iff_iff]
  refine ⟨adds.calm, fun calm => ?_⟩
  by_contra wrong
  obtain ⟨id, inside, failed⟩ := adds.exists_failed calm (Bool.eq_false_iff.mpr wrong)
  have member := expr.nodeIds_subset inside
  exact judged.exclusive id member (judged.complete expr expr.mem_nodes_self found id member) failed

section Modules

variable {signatures : SignatureTable} {m n : Module} {declaration : Declaration}

variable (compared : Compared signatures m m)

include compared

theorem nodup_of_declared (within : n ∈ m.modules) (present : declaration ∈ n.declarations) :
    declaration.ids.Nodup :=
  compared.distinct.sublist ((Declaration.all_sublist
    (Module.mem_all_of_mem_declarations within present)).flatMap Declaration.ownIds)

/-- Inference comes to this declaration of a module after those before it, and what it finds there
is still known at the end. -/
structure Reaches (signatures : SignatureTable) (m n : Module) (before : List Declaration)
    (declaration : Declaration) (final : State) (context : Context) (state : State) : Prop where
  own : context = contextIn signatures m n
  earlier : ∃ start, Unseen (n.declarations.flatMap Declaration.ids) start ∧
    inferDeclarations (m.environment signatures) context start before = .ok state
  unseen : Unseen declaration.ids state
  later : ∃ after, inferDeclaration (m.environment signatures) context state declaration = .ok after ∧
    ∀ id ∈ declaration.ids, final.effects.get? id = after.effects.get? id

section Path

variable {before others : List Declaration} {arrived : Context} {reached final : State}

omit compared in
theorem Reaches.final_congr {final' : State}
    (reaches : Reaches signatures m n before declaration final context state)
    (same : ∀ id ∈ declaration.ids, final'.effects.get? id = final.effects.get? id) :
    Reaches signatures m n before declaration final' context state := by
  obtain ⟨own, earlier, unseen, after, run, kept⟩ := reaches
  exact ⟨own, earlier, unseen, after, run, fun id inside => (same id inside).trans (kept id inside)⟩

theorem infer_among (within : n ∈ m.modules) (part : before ++ declaration :: others ⊆ n.declarations)
    (unseen : Unseen ((before ++ declaration :: others).flatMap Declaration.ids) state)
    (nodup : ((before ++ declaration :: others).flatMap Declaration.ids).Nodup)
    (run : inferDeclarations (m.environment signatures) (contextIn signatures m n) state
      (before ++ declaration :: others) = .ok final) :
    ∃ first second,
      inferDeclarations (m.environment signatures) (contextIn signatures m n) state before = .ok first ∧
      inferDeclaration (m.environment signatures) (contextIn signatures m n) first declaration =
        .ok second ∧ Unseen declaration.ids first ∧
      ∀ other ∈ declaration.ids, final.effects.get? other = second.effects.get? other := by
  simp only [List.flatMap_append, List.flatMap_cons] at nodup unseen
  obtain ⟨_, nodup_rest, apart⟩ := List.nodup_append'.mp nodup
  obtain ⟨_, _, apart'⟩ := List.nodup_append'.mp nodup_rest
  obtain ⟨first, second, early, middle, late⟩ := inferDeclarations_around_eq_ok.mp run
  have unseen_rest := (leaves_declarations compared.plain rfl
    (unseen.mono (List.subset_append_right _ _)) (fun _ inside => apart inside) early).unseen
  refine ⟨first, second, early, middle, unseen_rest.mono (List.subset_append_left _ _),
    fun other member => ?_⟩
  have unseen_others := (inferDeclaration_leaves compared.plain rfl
    (unseen_rest.mono (List.subset_append_right _ _)) (fun _ within => apart' within) middle).unseen
  have confined := confined_declarations compared.plain unseen_others compared.distinct within
    (fun _ member => part (List.mem_append_right _ (List.mem_cons_of_mem _ member))) late
  exact confined.effects other (apart' member)

theorem arrive_among {inner : Declaration} {id : NodeId} (within : n ∈ m.modules)
    (parts : n.declarations = before ++ inner :: others) (inside : id ∈ inner.headIds)
    (unseen : Unseen (n.declarations.flatMap Declaration.ids) state)
    (run : inferDeclarations (m.environment signatures) (contextIn signatures m n) state
      n.declarations = .ok final)
    (arrives : arriveAmong (m.environment signatures) id (contextIn signatures m n) state
      n.declarations = some (arrived, reached)) :
    ∃ first second,
      inferDeclarations (m.environment signatures) (contextIn signatures m n) state before = .ok first ∧
      inferDeclaration (m.environment signatures) (contextIn signatures m n) first inner = .ok second ∧
      arrive (m.environment signatures) id (contextIn signatures m n) first inner =
        some (arrived, reached) ∧ Unseen inner.ids first ∧
      ∀ other ∈ inner.ids, final.effects.get? other = second.effects.get? other := by
  have nodup := Module.nodup_declarations (Module.nodup_ids compared.distinct within)
  have part : before ++ inner :: others ⊆ n.declarations := parts ▸ List.Subset.refl _
  rw [parts] at nodup unseen run arrives
  obtain ⟨first, second, early, middle, entered, kept⟩ :=
    infer_among compared within part unseen nodup run
  refine ⟨first, second, early, middle, ?_, entered, kept⟩
  simp only [List.flatMap_append, List.flatMap_cons] at nodup
  obtain ⟨_, nodup_rest, apart⟩ := List.nodup_append'.mp nodup
  have apart' := (List.nodup_append'.mp nodup_rest).2.2
  have absent : ∀ other ∈ before, id ∉ other.headIds := fun other member again =>
    apart (List.mem_flatMap.mpr ⟨other, member, Declaration.headIds_subset _ again⟩)
      (List.mem_append_left _ (Declaration.headIds_subset _ inside))
  have absent' : ∀ other ∈ others, id ∉ other.headIds := fun other member again =>
    apart' (Declaration.headIds_subset _ inside)
      (List.mem_flatMap.mpr ⟨other, member, Declaration.headIds_subset _ again⟩)
  rw [arriveAmong_append absent early, arriveAmong, middle] at arrives
  split at arrives
  · rename_i found
    cases arrives
    exact found
  · dsimp only at arrives
    rw [arriveAmong_absent fun other member _ => arrive_absent (absent' other member) _ _] at arrives
    cases arrives

omit compared in
theorem arrive_single (holds : declaration.expr? = some expr) (env : Environment) (context : Context)
    (state : State) : arrive env declaration.id context state declaration = some (context, state) := by
  cases declaration with
  | operator definition => exact if_pos rfl
  | assumption id name expr => exact if_pos rfl
  | _ => cases holds

theorem arrive_reaches {root : Declaration} (inside : root ∈ m.toDeclaration.all)
    (within : n.toDeclaration ∈ root.all) (parts : n.declarations = before ++ declaration :: others)
    (holds : declaration.expr? = some expr) (unseen : Unseen root.ids state)
    (run : inferDeclaration (m.environment signatures) context state root = .ok final)
    (arrives : arrive (m.environment signatures) declaration.id context state root =
      some (arrived, reached)) :
    Reaches signatures m n before declaration final arrived reached := by
  induction root generalizing context state final with
  | submodule id name declarations ih =>
    obtain ⟨k, rfl, rfl, rfl⟩ : ∃ k : Module, k.id = id ∧ k.name = name ∧
        k.declarations = declarations := ⟨⟨id, name, declarations⟩, rfl, rfl, rfl⟩
    have inner : k ∈ m.modules := Module.mem_modules.mpr inside
    have entering : (m.environment signatures).context state ⟨k.id, k.name, k.declarations⟩ =
        .ok (contextIn signatures m k) := environment_context inner state
    simp only [inferDeclaration, entering, bind, Except.bind] at run
    simp only [arrive, entering] at arrives
    rw [Declaration.ids_submodule] at unseen
    replace unseen := unseen.mono (List.subset_cons_self _ _)
    rw [Declaration.all_submodule] at within
    rcases List.mem_cons.mp within with same | deeper
    · obtain rfl : n = k := by
        cases n
        cases k
        cases same
        rfl
      obtain ⟨first, second, early, middle, found, entered, kept⟩ :=
        arrive_among compared inner parts (Declaration.id_mem_headIds declaration.mem_all_self) unseen
          run arrives
      rw [arrive_single holds] at found
      cases found
      exact ⟨rfl, ⟨state, unseen, early⟩, entered, second, middle, kept⟩
    · obtain ⟨outer, present, deeper⟩ := List.mem_flatMap.mp deeper
      obtain ⟨before', others', parts'⟩ := List.append_of_mem present
      have standing : declaration ∈ outer.all := Declaration.mem_all_trans deeper
        (by
          rw [Module.toDeclaration, Declaration.all_submodule, parts]
          exact List.mem_cons_of_mem _ (List.mem_flatMap.mpr
            ⟨declaration, List.mem_append_right _ List.mem_cons_self, declaration.mem_all_self⟩))
      obtain ⟨first, second, _, middle, found, unseen', kept⟩ :=
        arrive_among compared inner parts' (Declaration.id_mem_headIds standing) unseen run arrives
      exact (ih outer present (Module.mem_all_of_mem_declarations inner present) deeper unseen' middle
        found).final_congr fun id inside => kept id (Declaration.ids_subset standing inside)
  | _ => cases List.mem_singleton.mp within

end Path

end Modules

end SpecEffects.Inference
