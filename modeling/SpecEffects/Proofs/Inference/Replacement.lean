import SpecEffects.Proofs.Inference.Finality
import SpecEffects.Proofs.Inference.Ownership
import SpecEffects.Proofs.Inference.Similar

/-!
Two modules that differ in the expression of one declaration. If inferring the one expression and the
other keeps states similar, then so does inferring the modules: all operators of the one have the same
effects as in the other, up to renamings.
-/
namespace SpecEffects

namespace Declaration

theorem headIds_subset (declaration : Declaration) : declaration.headIds ⊆ declaration.ids := by
  intro head member
  obtain ⟨inner, inside, rfl⟩ := List.mem_map.mp member
  exact ownIds_subset inside List.mem_cons_self

variable {id : NodeId} {old new : Expr} {declaration declaration' : Declaration}

namespace Replaces

variable (replaces : Replaces id old new declaration declaration')

include replaces

theorem headIds_eq : declaration'.headIds = declaration.headIds := by
  induction replaces with
  | operator name => rfl
  | assumption name => rfl
  | submodule _ ih =>
    simp only [headIds] at ih
    simp [headIds, all_submodule, List.map_flatMap, ih, Declaration.id]

theorem id_mem : id ∈ declaration.headIds := by
  induction replaces with
  | operator name => exact List.mem_singleton_self _
  | assumption name => exact List.mem_singleton_self _
  | @submodule moduleId name before after inner inner' _ ih =>
    rw [headIds, all_submodule]
    refine List.mem_cons_of_mem _ ?_
    rw [List.map_flatMap]
    exact List.mem_flatMap.mpr ⟨inner, List.mem_append_right _ List.mem_cons_self, ih⟩

theorem unscoped_eq : (declaration'.definitions.filter fun definition => definition.scope = none) =
    declaration.definitions.filter fun definition => definition.scope = none := by
  have local_only : ∀ expr : Expr,
      (expr.localDefinitions.filter fun definition => definition.scope = none) = [] := by
    intro expr
    refine List.filter_eq_nil_iff.mpr fun definition member => ?_
    obtain ⟨scope, _, _, _, limited, _⟩ := Expr.localDefinitions_spec member
    simp [limited]
  cases replaces with
  | operator name => simp [definitions, local_only]
  | assumption name => rw [definitions, definitions, local_only, local_only]
  | submodule _ => rfl

end Replaces

end Declaration

theorem forall₂_find? {α β : Type} {R : α → β → Prop} {p : α → Bool} {q : β → Bool} {as : List α}
    {bs : List β} (related : List.Forall₂ R as bs) (same : ∀ {a b}, R a b → p a = q b) :
    Option.Rel R (as.find? p) (bs.find? q) := by
  induction related with
  | nil => exact .none
  | @cons a b _ _ head _ ih =>
    rw [List.find?_cons, List.find?_cons, same head]
    cases q b with
    | true => exact .some head
    | false => exact ih

namespace Module

def unscoped (n : Module) : List NameDefinition := n.declarations.flatMap fun declaration =>
  declaration.definitions.filter fun definition => definition.scope = none

structure Counterparts (k k' : Module) : Prop where
  id : k'.id = k.id
  name : k'.name = k.name
  unscoped : k'.unscoped = k.unscoped

theorem Counterparts.refl (k : Module) : Counterparts k k := ⟨rfl, rfl, rfl⟩

end Module

namespace Declaration

variable {id : NodeId} {old new : Expr}

theorem Replaces.counterparts {inner inner' : Declaration} (replaces : Replaces id old new inner inner')
    (moduleId : NodeId) (name : String) (before others : List Declaration) :
    Module.Counterparts ⟨moduleId, name, before ++ inner :: others⟩
      ⟨moduleId, name, before ++ inner' :: others⟩ :=
  ⟨rfl, rfl, by simp [Module.unscoped, replaces.unscoped_eq]⟩

theorem Replaces.innerFirst {declaration declaration' : Declaration}
    (replaces : Replaces id old new declaration declaration') :
    List.Forall₂ Module.Counterparts declaration.innerFirst declaration'.innerFirst := by
  have same : ∀ modules : List Module, List.Forall₂ Module.Counterparts modules modules :=
    fun modules => List.forall₂_same.mpr fun k _ => .refl k
  induction replaces with
  | operator name => exact .nil
  | assumption name => exact .nil
  | @submodule moduleId name before others inner inner' replaces ih =>
    simp only [innerFirst_submodule, List.flatMap_append, List.flatMap_cons]
    exact List.rel_append (List.rel_append (same _) (List.rel_append ih (same _)))
      (.cons (replaces.counterparts moduleId name before others) .nil)

end Declaration

namespace Inference

open SpecEffects.Module (Counterparts)

/-- Two modules that can be compared: ids are distinct in each, both have the same declarations, and
the tables under each name belong to counterparts. -/
structure Compared (signatures : SignatureTable) (m m' : Module) : Prop where
  plain : Plain signatures
  distinct : m.ids.Nodup
  distinct' : m'.ids.Nodup
  heads : m'.toDeclaration.headIds = m.toDeclaration.headIds
  owners : ∀ name, Option.Rel Counterparts (m.owner? name) (m'.owner? name)

def headsOf (m : Module) (id : NodeId) : Prop := id ∈ m.toDeclaration.headIds

variable {signatures : SignatureTable} {m m' n n' : Module} {declaration declaration' : Declaration}
  {expr expr' : Expr}

theorem Compared.refl (plain : Plain signatures) (distinct : m.ids.Nodup) : Compared signatures m m :=
  ⟨plain, distinct, distinct, rfl, fun name => by
    cases m.owner? name with
    | none => exact .none
    | some k => exact .some (.refl k)⟩

theorem meaning_nil (table : NameTable) (name : String) :
    table.meaning [] name = (table.definitions.filter fun definition => definition.scope = none).find?
      fun definition => definition.identifier = name := by
  simp [NameTable.meaning, List.find?_filter, and_comm]

section Tables

variable (compared : Compared signatures m m') (within : n ∈ m.modules)
  (pair : Counterparts n n')

include compared within pair

theorem exists_owners : ∃ k k', m.owner? n.name = some k ∧ m'.owner? n'.name = some k' ∧
    Counterparts k k' := by
  obtain ⟨k, owns⟩ := Module.exists_owner within
  have related := compared.owners n.name
  rw [owns] at related
  generalize owns' : m'.owner? n.name = k'? at related
  cases related with
  | some both => exact ⟨k, _, owns, by rw [pair.name, owns'], both⟩

theorem sameGlobals :
    SameGlobals (contextIn signatures m n) (contextIn signatures m' n') [] (headsOf m) := by
  obtain ⟨k, k', owns, owns', both⟩ := exists_owners compared within pair
  have member : ∀ {name definition}, (contextIn signatures m n).table.meaning [] name =
      some definition → definition ∈ (contextIn signatures m n).table.definitions ∧
        definition.scope = none := by
    intro name definition means
    rw [meaning_nil] at means
    have inside := List.mem_filter.mp (List.mem_of_find?_eq_some means)
    exact ⟨inside.1, by simpa using inside.2⟩
  refine ⟨rfl, compared.plain, fun name => ?_, fun means => ?_, fun means _ reference => ?_⟩
  · have same := both.unscoped
    unfold Module.unscoped at same
    rw [meaning_nil, meaning_nil, table_of_owner owns, table_of_owner owns']
    simp only [NameTable.ofDeclarations, List.filter_append, List.filter_flatMap, same]
  · exact Module.unscoped_kind (table_found within) (member means).1 (member means).2
  · exact Module.site_of_operator (table_found within) (member means).1 (member means).2 reference

theorem exists_placed (within' : n' ∈ m'.modules) : ∃ own,
    (∀ {declaration expr}, declaration ∈ n.declarations → declaration.expr? = some expr →
      Placed (seenLocals own) (contextIn signatures m n) [] expr) ∧
    ∀ {declaration expr}, declaration ∈ n'.declarations → declaration.expr? = some expr →
      Placed (seenLocals own) (contextIn signatures m' n') [] expr := by
  obtain ⟨k, k', owns, owns', both⟩ := exists_owners compared within pair
  have flags : decide (k'.id = n'.id) = decide (k.id = n.id) := by rw [both.id, pair.id]
  exact ⟨_, placed_declared compared.distinct within owns,
    flags ▸ placed_declared compared.distinct' within' owns'⟩

theorem owner_counterpart (within' : n' ∈ m'.modules) (owns : m.owner? n.name = some n) :
    m'.owner? n'.name = some n' := by
  obtain ⟨k, k', owns', owned', both⟩ := exists_owners compared within pair
  cases owns.symm.trans owns'
  rw [owned', Module.eq_of_id compared.distinct' (Module.owner?_inside owned') within'
    (both.id.trans pair.id.symm)]

end Tables

theorem placed_owned (distinct : m.ids.Nodup) (owns : m.owner? n.name = some n)
    (present : declaration ∈ n.declarations) (holds : declaration.expr? = some expr) :
    Placed Expr.binders (contextIn signatures m n) [] expr := by
  have placed : Placed (seenLocals (decide (n.id = n.id))) (contextIn signatures m n) [] expr :=
    placed_declared distinct (Module.owner?_inside owns) owns present holds
  rwa [decide_eq_true rfl] at placed

variable {heads : NodeId → Prop} {context context' : Context} {rest rest' : List NodeId}
  {state state' after after' : State}

/-- Inferring the one expression in the states that are reached, and the other one in similar states,
keeps states similar. The condition `close` says whether there have to be no errors. -/
def Tandem (heads : NodeId → Prop) (close : Prop) (reached : State → Prop)
    (context context' : Context) (expr expr' : Expr) : Prop :=
  ∀ ⦃rest rest' state state' after⦄, reached state →
    Similar heads (expr.ids ++ rest) (expr'.ids ++ rest') state state' →
    (expr.ids ++ rest).Nodup → (expr'.ids ++ rest').Nodup →
    (close → after.errors.isEmpty = true) → inferExpr context state expr = .ok after →
    ∃ after', inferExpr context' state' expr' = .ok after' ∧ Similar heads rest rest' after after' ∧
      Matching (after.effects.get? expr.id) (after'.effects.get? expr'.id)

theorem Similar.inferred (similar : Similar heads (expr.ids ++ rest) (expr'.ids ++ rest') state state')
    (nodup : (expr.ids ++ rest).Nodup) (nodup' : (expr'.ids ++ rest').Nodup)
    (outside : ∀ {site}, heads site → site ∉ expr.ids ∧ site ∉ expr'.ids)
    (plain : Plain context.signatures) (plain' : Plain context'.signatures)
    (run : inferExpr context state expr = .ok after)
    (run' : inferExpr context' state' expr' = .ok after')
    (kept : ∀ {id}, id ∉ expr.ids → after.effects.get? id = state.effects.get? id)
    (kept' : ∀ {id}, id ∉ expr'.ids → after'.effects.get? id = state'.effects.get? id)
    (clean : after'.errors.isEmpty = after.errors.isEmpty) : Similar heads rest rest' after after' where
  unseen := (inferExpr_leaves plain (similar.unseen.mono (List.subset_append_right _ _))
    (fun _ inside => (List.nodup_append'.mp nodup).2.2 inside) run).unseen
  unseen' := (inferExpr_leaves plain' (similar.unseen'.mono (List.subset_append_right _ _))
    (fun _ inside => (List.nodup_append'.mp nodup').2.2 inside) run').unseen
  heads head := by
    rw [kept (outside head).1, kept' (outside head).2]
    exact similar.heads head
  clean := clean

theorem tandem_alike {own : Bool} {close : Prop} {reached : State → Prop}
    (globals : SameGlobals context context' [] heads)
    (outside : ∀ {site}, heads site → site ∉ expr.ids ∧ site ∉ expr'.ids)
    (alike : Expr.Alike (fun _ _ => True) (fun _ _ => True) (fun _ _ _ => False) [] expr expr')
    (placed : Placed (seenLocals own) context [] expr)
    (placed' : Placed (seenLocals own) context' [] expr') :
    Tandem heads close reached context context' expr expr' := by
  intro rest rest' state state' after _ similar nodup nodup' _ run
  have plain' : Plain context'.signatures := globals.self'.plain
  have here := similar.mono (List.subset_append_left expr.ids rest)
    (List.subset_append_left expr'.ids rest')
  have steady := steady_none expr.ids state
  have steady' := steady_none expr'.ids state'
  obtain ⟨kept, roots, ρ, V, after', pairing, linked, run', mirror⟩ := infer_alike here steady steady'
    (fun _ _ _ _ _ _ => id) (fun _ _ _ _ _ _ => id) outside
    (globals.views (fun _ => rfl) fun _ => rfl) (fun _ _ => opens_seen own) placed placed'
    ⟨globals.plain, plain', (List.nodup_append'.mp nodup).1, (List.nodup_append'.mp nodup').1⟩ run
    alike
  have proper := between_proper pairing pairing.ties here.unseen here.unseen' steady steady'
  exact ⟨after', run', similar.inferred nodup nodup' outside globals.plain plain' run run'
    mirror.kept.effects mirror.kept'.effects (mirror.clean similar.clean), mirror.matching proper linked⟩

theorem errors_copyEffect (state : State) (id source : NodeId) :
    (state.copyEffect id source).errors = state.errors := by
  have step := copyEffect_step state id source
  generalize state.copyEffect id source = after at step ⊢
  cases step <;> rfl

theorem Similar.copyEffect (similar : Similar heads rest rest' state state') {id source source' : NodeId}
    (outside : id ∉ rest) (outside' : id ∉ rest')
    (same : Matching (state.effects.get? source) (state'.effects.get? source')) :
    Similar heads rest rest' (state.copyEffect id source) (state'.copyEffect id source') := by
  refine ⟨(leaves_copyEffect similar.unseen outside source).unseen,
    (leaves_copyEffect similar.unseen' outside' source').unseen, fun {site} head => ?_, ?_⟩
  · unfold State.copyEffect
    cases found : state.effects.get? source with
    | none =>
      rw [found] at same
      cases found' : state'.effects.get? source' with
      | none => exact similar.heads head
      | some effect' =>
        rw [found'] at same
        cases same
    | some effect =>
      rw [found] at same
      cases found' : state'.effects.get? source' with
      | none =>
        rw [found'] at same
        cases same
      | some effect' =>
        rw [found'] at same
        dsimp only
        rw [get?_record, get?_record]
        split
        · exact same
        · exact similar.heads head
  · rw [errors_copyEffect, errors_copyEffect]
    exact similar.clean

section Clean

variable {env : Environment} {ids : List NodeId}

theorem inferDeclarations_leaves {declarations : List Declaration}
    (each : ∀ declaration ∈ declarations, ∀ {state after : State}, Unseen ids state →
      inferDeclaration env context state declaration = .ok after → Leaves ids state after)
    (unseen : Unseen ids state) (run : inferDeclarations env context state declarations = .ok after) :
    Leaves ids state after :=
  inferDeclarations_preserve (fun declaration member _ _ leaves first =>
    leaves.trans (each declaration member leaves.unseen first)) (.refl unseen) run

theorem inferDeclaration_leaves (plain : Plain env.signatures)
    (same : context.signatures = env.signatures) (unseen : Unseen ids state)
    (outside : ∀ id ∈ declaration.ids, id ∉ ids)
    (run : inferDeclaration env context state declaration = .ok after) : Leaves ids state after := by
  have own : ∀ {inner : Declaration}, inner ∈ declaration.all → ∀ id ∈ inner.ownIds, id ∉ ids :=
    fun member id owned => outside id (Declaration.ownIds_subset member owned)
  refine inferDeclaration_preserves signatures_of_context (fun inner member expr found _ _ _ same leaves
    run => ?_) (fun definition member _ leaves => ?_) (fun _ _ => same) (.refl unseen) run
  · refine leaves.trans (inferExpr_leaves (same ▸ plain) leaves.unseen (fun id inside => ?_) run)
    exact own member id (Declaration.mem_ownIds_of_expr found inside)
  · exact leaves.trans (leaves_copyEffect leaves.unseen (own member _ List.mem_cons_self) _)

theorem leaves_declarations {declarations : List Declaration} (plain : Plain env.signatures)
    (same : context.signatures = env.signatures) (unseen : Unseen ids state)
    (outside : ∀ id ∈ declarations.flatMap Declaration.ids, id ∉ ids)
    (run : inferDeclarations env context state declarations = .ok after) : Leaves ids state after :=
  inferDeclarations_leaves (fun declaration member _ _ unseen run => inferDeclaration_leaves plain same
    unseen (fun id inside => outside id (List.mem_flatMap.mpr ⟨declaration, member, inside⟩)) run)
    unseen run

end Clean

mutual

def arrive (env : Environment) (id : NodeId) (context : Context) (state : State) :
    Declaration → Option (Context × State)
  | .submodule moduleId name declarations =>
    match env.context state ⟨moduleId, name, declarations⟩ with
    | .ok inner => arriveAmong env id inner state declarations
    | .error _ => none
  | declaration => if declaration.id = id then some (context, state) else none

def arriveAmong (env : Environment) (id : NodeId) (context : Context) (state : State) :
    List Declaration → Option (Context × State)
  | [] => none
  | declaration :: others =>
    match arrive env id context state declaration with
    | some found => some found
    | none =>
      match inferDeclaration env context state declaration with
      | .ok next => arriveAmong env id context next others
      | .error _ => none

end

section Arrival

variable {env : Environment} {id : NodeId}

theorem arriveAmong_absent {declarations : List Declaration}
    (each : ∀ declaration ∈ declarations, ∀ state,
      arrive env id context state declaration = none) (state : State) :
    arriveAmong env id context state declarations = none := by
  induction declarations generalizing state with
  | nil => rfl
  | cons declaration others ih =>
    rw [arriveAmong, each declaration List.mem_cons_self]
    dsimp only
    split
    · exact ih (fun other member => each other (List.mem_cons_of_mem _ member)) _
    · rfl

theorem arrive_absent (absent : id ∉ declaration.headIds) (context : Context) (state : State) :
    arrive env id context state declaration = none := by
  induction declaration generalizing context state with
  | submodule moduleId name declarations ih =>
    rw [arrive]
    split
    · refine arriveAmong_absent (fun declaration member state => ih declaration member ?_ _ _) _
      intro inside
      refine absent ?_
      rw [Declaration.headIds, Declaration.all_submodule, List.map_cons, List.map_flatMap]
      exact List.mem_cons_of_mem _ (List.mem_flatMap.mpr ⟨declaration, member, inside⟩)
    · rfl
  | _ =>
    rw [arrive]
    · refine if_neg fun same => absent ?_
      rw [← same]
      exact List.mem_singleton_self _
    · intro _ _ _ same
      cases same

theorem arriveAmong_append {before others : List Declaration}
    (absent : ∀ declaration ∈ before, id ∉ declaration.headIds)
    (run : inferDeclarations env context state before = .ok after) :
    arriveAmong env id context state (before ++ others) =
      arriveAmong env id context after others := by
  induction before generalizing state with
  | nil =>
    cases run
    rfl
  | cons declaration before ih =>
    simp only [inferDeclarations, bind_eq_ok] at run
    obtain ⟨middle, first, later⟩ := run
    rw [List.cons_append, arriveAmong, arrive_absent (absent declaration List.mem_cons_self), first]
    exact ih (fun other member => absent other (List.mem_cons_of_mem _ member)) later

end Arrival

def Follows (heads : NodeId → Prop) (close : Prop) (reached : State → Prop) (env env' : Environment)
    (context context' : Context) (declaration declaration' : Declaration) : Prop :=
  ∀ ⦃rest rest' state state' after⦄, reached state →
    Similar heads (declaration.ids ++ rest) (declaration'.ids ++ rest') state state' →
    (declaration.ids ++ rest).Nodup → (declaration'.ids ++ rest').Nodup →
    (close → after.errors.isEmpty = true) →
    inferDeclaration env context state declaration = .ok after →
    ∃ after', inferDeclaration env' context' state' declaration' = .ok after' ∧
      Similar heads rest rest' after after'

section Walk

variable {env env' : Environment} {close : Prop} {reached : State → Prop}

theorem follows_operator {id : NodeId} {name : String}
    (tandem : Tandem heads close reached context context' expr expr') :
    Follows heads close reached env env' context context' (.operator ⟨id, name, expr⟩)
      (.operator ⟨id, name, expr'⟩) := by
  intro rest rest' state state' after here similar nodup nodup' closely run
  simp only [inferDeclaration, bind_eq_ok, pure_eq_ok] at run ⊢
  obtain ⟨middle, inner, rfl⟩ := run
  simp only [Declaration.ids_operator, List.cons_append] at similar nodup nodup'
  obtain ⟨fresh, nodup⟩ := List.nodup_cons.mp nodup
  obtain ⟨fresh', nodup'⟩ := List.nodup_cons.mp nodup'
  have errors := errors_copyEffect middle id expr.id
  obtain ⟨middle', inner', similar', same⟩ := tandem here
    (similar.mono (List.subset_cons_self _ _) (List.subset_cons_self _ _)) nodup nodup'
    (fun h => errors ▸ closely h) inner
  exact ⟨_, ⟨middle', inner', rfl⟩, similar'.copyEffect
    (fun inside => fresh (List.mem_append_right _ inside))
    (fun inside => fresh' (List.mem_append_right _ inside)) same⟩

theorem follows_assumption {id : NodeId} {name : String}
    (tandem : Tandem heads close reached context context' expr expr') :
    Follows heads close reached env env' context context' (.assumption id name expr)
      (.assumption id name expr') := by
  intro rest rest' state state' after here similar nodup nodup' closely run
  simp only [Declaration.ids_assumption, List.cons_append] at similar nodup nodup'
  obtain ⟨after', run', similar', _⟩ := tandem here
    (similar.mono (List.subset_cons_self _ _) (List.subset_cons_self _ _))
    (List.nodup_cons.mp nodup).2 (List.nodup_cons.mp nodup').2 closely run
  exact ⟨after', run', similar'⟩

theorem follows_all (plain : Plain env.signatures) (same : context.signatures = env.signatures)
    {declarations : List Declaration} (each : ∀ declaration ∈ declarations,
      Follows heads close (fun _ => True) env env' context context' declaration declaration)
    (similar : Similar heads (declarations.flatMap Declaration.ids ++ rest)
      (declarations.flatMap Declaration.ids ++ rest') state state')
    (nodup : (declarations.flatMap Declaration.ids ++ rest).Nodup)
    (nodup' : (declarations.flatMap Declaration.ids ++ rest').Nodup)
    (closely : close → after.errors.isEmpty = true)
    (run : inferDeclarations env context state declarations = .ok after) :
    ∃ after', inferDeclarations env' context' state' declarations = .ok after' ∧
      Similar heads rest rest' after after' := by
  induction declarations generalizing state state' with
  | nil =>
    cases run
    exact ⟨_, rfl, similar⟩
  | cons declaration others ih =>
    simp only [inferDeclarations, bind_eq_ok] at run ⊢
    obtain ⟨middle, first, later⟩ := run
    simp only [List.flatMap_cons, List.append_assoc] at similar nodup nodup'
    have calm : close → middle.errors.isEmpty = true := by
      intro h
      have early := similar.unseen.mono (List.nil_subset _)
      have leaves := inferDeclaration_leaves plain same early (fun _ _ => List.not_mem_nil) first
      exact (leaves_declarations plain same leaves.unseen (fun _ _ => List.not_mem_nil) later).clean
        (closely h)
    obtain ⟨middle', first', similar'⟩ :=
      each declaration List.mem_cons_self trivial similar nodup nodup' calm first
    obtain ⟨after', later', done⟩ := ih
      (fun other member => each other (List.mem_cons_of_mem _ member)) similar'
      (List.nodup_append'.mp nodup).2.1 (List.nodup_append'.mp nodup').2.1 later
    exact ⟨after', ⟨middle', first', later'⟩, done⟩

end Walk

section Modules

variable (compared : Compared signatures m m') {close : Prop}

include compared

theorem heads_outside (member : declaration ∈ m.toDeclaration.all)
    (holds : declaration.expr? = some expr) {site : NodeId} (head : headsOf m site) :
    site ∉ expr.ids := fun inside =>
  Declaration.not_mem_headIds compared.distinct member holds inside head

theorem heads_outside' (member : declaration ∈ m'.toDeclaration.all)
    (holds : declaration.expr? = some expr) {site : NodeId} (head : headsOf m site) :
    site ∉ expr.ids := fun inside =>
  Declaration.not_mem_headIds compared.distinct' member holds inside (compared.heads ▸ head)

theorem tandem_declared (within : n ∈ m.modules) (within' : n' ∈ m'.modules)
    (pair : Module.Counterparts n n') (present : declaration ∈ n.declarations)
    (present' : declaration ∈ n'.declarations) (holds : declaration.expr? = some expr) :
    Tandem (headsOf m) close (fun _ => True) (contextIn signatures m n) (contextIn signatures m' n')
      expr expr := by
  obtain ⟨own, placed, placed'⟩ := exists_placed compared within pair within'
  have outside : ∀ {site}, headsOf m site → site ∉ expr.ids :=
    heads_outside compared (Module.mem_all_of_mem_declarations within present) holds
  exact tandem_alike (sameGlobals compared within pair) (fun head => ⟨outside head, outside head⟩)
    (.refl (fun _ => trivial) (fun _ _ => trivial) [] expr) (placed present holds)
    (placed' present' holds)

theorem follows_same (within : n ∈ m.modules) (within' : n' ∈ m'.modules)
    (pair : Module.Counterparts n n') (present : declaration ∈ n.declarations)
    (present' : declaration ∈ n'.declarations) :
    Follows (headsOf m) close (fun _ => True) (m.environment signatures) (m'.environment signatures)
      (contextIn signatures m n) (contextIn signatures m' n') declaration declaration := by
  induction declaration generalizing n n' with
  | stateVariable id name =>
    intro rest rest' state state' after _ similar _ _ _ run
    cases run
    exact ⟨_, rfl, similar.mono (List.subset_append_right _ _) (List.subset_append_right _ _)⟩
  | constant id name =>
    intro rest rest' state state' after _ similar _ _ _ run
    cases run
    exact ⟨_, rfl, similar.mono (List.subset_append_right _ _) (List.subset_append_right _ _)⟩
  | operator definition =>
    exact follows_operator (tandem_declared compared within within' pair present present' rfl)
  | assumption id name expr =>
    exact follows_assumption (tandem_declared compared within within' pair present present' rfl)
  | submodule id name declarations ih =>
    obtain ⟨k, rfl, rfl, rfl⟩ : ∃ k : Module, k.id = id ∧ k.name = name ∧
        k.declarations = declarations := ⟨⟨id, name, declarations⟩, rfl, rfl, rfl⟩
    have inner : k ∈ m.modules :=
      Module.mem_modules.mpr (Module.mem_all_of_mem_declarations within present)
    have inner' : k ∈ m'.modules :=
      Module.mem_modules.mpr (Module.mem_all_of_mem_declarations within' present')
    intro rest rest' state state' after _ similar nodup nodup' closely run
    simp only [Declaration.ids_submodule, List.cons_append] at similar nodup nodup'
    simp only [inferDeclaration, bind_eq_ok] at run ⊢
    obtain ⟨entered, opened, run⟩ := run
    cases (environment_context inner state).symm.trans opened
    obtain ⟨after', run', done⟩ := follows_all compared.plain rfl
      (fun declaration member => ih declaration member inner inner' (.refl k) member member)
      (similar.mono (List.subset_cons_self _ _) (List.subset_cons_self _ _))
      (List.nodup_cons.mp nodup).2 (List.nodup_cons.mp nodup').2 closely run
    exact ⟨after', ⟨_, environment_context inner' state', run'⟩, done⟩

theorem follows_inside {id : NodeId} {before others : List Declaration} (within : n ∈ m.modules)
    (within' : n' ∈ m'.modules) (parts : n.declarations = before ++ declaration :: others)
    (parts' : n'.declarations = before ++ declaration' :: others)
    (pair : Module.Counterparts n n') (inside : id ∈ declaration.headIds) {reached : State → Prop}
    (follows : Follows (headsOf m) close (fun state => ∀ inner arrived,
        arrive (m.environment signatures) id (contextIn signatures m n) state declaration =
          some (inner, arrived) → reached arrived)
      (m.environment signatures) (m'.environment signatures) (contextIn signatures m n)
      (contextIn signatures m' n') declaration declaration') (context context' : Context) :
    Follows (headsOf m) close (fun state => ∀ inner arrived,
        arrive (m.environment signatures) id context state n.toDeclaration = some (inner, arrived) →
          reached arrived)
      (m.environment signatures) (m'.environment signatures) context context' n.toDeclaration
      n'.toDeclaration := by
  have present : ∀ {other}, other ∈ before ∨ other ∈ others →
      other ∈ n.declarations ∧ other ∈ n'.declarations := by
    intro other member
    rw [parts, parts']
    simp only [List.mem_append, List.mem_cons]
    tauto
  have same : ∀ {other}, other ∈ before ∨ other ∈ others → Follows (headsOf m) close (fun _ => True)
      (m.environment signatures) (m'.environment signatures) (contextIn signatures m n)
      (contextIn signatures m' n') other other := fun member =>
    follows_same compared within within' pair (present member).1 (present member).2
  intro rest rest' state state' after here similar nodup nodup' closely run
  simp only [Module.toDeclaration, Declaration.ids_submodule, parts, parts', List.flatMap_append,
    List.flatMap_cons, List.cons_append, List.append_assoc] at similar nodup nodup'
  have nodup := (List.nodup_cons.mp nodup).2
  have nodup' := (List.nodup_cons.mp nodup').2
  have similar := similar.mono (List.subset_cons_self _ _) (List.subset_cons_self _ _)
  rw [inferDeclaration_toDeclaration] at run ⊢
  simp only [inferModule, bind_eq_ok] at run ⊢
  obtain ⟨entered, opened, run⟩ := run
  cases (environment_context within state).symm.trans opened
  rw [parts, inferDeclarations_around_eq_ok] at run
  obtain ⟨first, second, early, middle, late⟩ := run
  -- The arrival inside the module is that at the declaration itself.
  have absent : ∀ other ∈ before, id ∉ other.headIds := fun other member again =>
    (List.nodup_append'.mp nodup).2.2
      (List.mem_flatMap.mpr ⟨other, member, Declaration.headIds_subset _ again⟩)
      (List.mem_append_left _ (Declaration.headIds_subset _ inside))
  have here' : ∀ inner arrived, arrive (m.environment signatures) id (contextIn signatures m n) first
      declaration = some (inner, arrived) → reached arrived := by
    intro inner arrived found
    refine here inner arrived ?_
    have entering : (m.environment signatures).context state ⟨n.id, n.name, n.declarations⟩ =
        .ok (contextIn signatures m n) := environment_context within state
    rw [Module.toDeclaration, arrive, entering]
    dsimp only
    rw [parts, arriveAmong_append absent early, arriveAmong, found]
  have early_leaves := leaves_declarations compared.plain rfl (similar.unseen.mono (List.nil_subset _))
    (fun _ _ => List.not_mem_nil) early
  have middle_leaves := inferDeclaration_leaves compared.plain rfl early_leaves.unseen
    (fun _ _ => List.not_mem_nil) middle
  have calm : close → second.errors.isEmpty = true := fun h =>
    (leaves_declarations compared.plain rfl middle_leaves.unseen (fun _ _ => List.not_mem_nil)
      late).clean (closely h)
  obtain ⟨first', early', similar₁⟩ := follows_all compared.plain rfl
    (fun other member => same (Or.inl member)) similar nodup nodup'
    (fun h => middle_leaves.clean (calm h)) early
  have nodup₁ := (List.nodup_append'.mp nodup).2.1
  have nodup₁' := (List.nodup_append'.mp nodup').2.1
  obtain ⟨second', middle', similar₂⟩ := follows here' similar₁ nodup₁ nodup₁' calm middle
  obtain ⟨after', late', done⟩ := follows_all compared.plain rfl
    (fun other member => same (Or.inr member)) similar₂ (List.nodup_append'.mp nodup₁).2.1
    (List.nodup_append'.mp nodup₁').2.1 closely late
  refine ⟨after', ⟨_, environment_context within' state', ?_⟩, done⟩
  rw [parts']
  exact inferDeclarations_around_eq_ok.mpr ⟨first', second', early', middle', late'⟩

section Replaced

variable {id : NodeId} {old new : Expr} {reached : State → Prop}
  (changed : ∀ {n n' : Module} {declaration declaration' : Declaration}, n ∈ m.modules →
    n' ∈ m'.modules →
    Module.Counterparts n n' → declaration ∈ n.declarations → declaration' ∈ n'.declarations →
    declaration.expr? = some old → declaration'.expr? = some new →
    Tandem (headsOf m) close reached (contextIn signatures m n)
      (contextIn signatures m' n') old new)

include changed

theorem follows_replaced (replaces : Declaration.Replaces id old new declaration declaration')
    (within : n ∈ m.modules) (within' : n' ∈ m'.modules)
    (pair : Module.Counterparts n n') (present : declaration ∈ n.declarations)
    (present' : declaration' ∈ n'.declarations) :
    Follows (headsOf m) close (fun state => ∀ inner arrived,
        arrive (m.environment signatures) id (contextIn signatures m n) state declaration =
          some (inner, arrived) → reached arrived)
      (m.environment signatures) (m'.environment signatures) (contextIn signatures m n)
      (contextIn signatures m' n') declaration declaration' := by
  induction replaces generalizing n n' with
  | operator name =>
    intro rest rest' state state' after here
    refine follows_operator (changed within within' pair present present' rfl rfl)
      (here (contextIn signatures m n) state ?_)
    rw [arrive]
    · exact if_pos rfl
    · exact nofun
  | assumption name =>
    intro rest rest' state state' after here
    refine follows_assumption (changed within within' pair present present' rfl rfl)
      (here (contextIn signatures m n) state ?_)
    rw [arrive]
    · exact if_pos rfl
    · exact nofun
  | @submodule moduleId name before others inner inner' replaces ih =>
    let k : Module := ⟨moduleId, name, before ++ inner :: others⟩
    let k' : Module := ⟨moduleId, name, before ++ inner' :: others⟩
    have inside : k ∈ m.modules :=
      Module.mem_modules.mpr (Module.mem_all_of_mem_declarations within present)
    have inside' : k' ∈ m'.modules :=
      Module.mem_modules.mpr (Module.mem_all_of_mem_declarations within' present')
    have own : Module.Counterparts k k' := replaces.counterparts moduleId name before others
    exact follows_inside compared inside inside' rfl rfl own replaces.id_mem
      (ih inside inside' own (List.mem_append_right _ List.mem_cons_self)
        (List.mem_append_right _ List.mem_cons_self)) _ _

end Replaced

end Modules

end Inference

namespace Module

/-- What is known where inference comes to the declaration with this id. -/
def arrival? (signatures : SignatureTable) (m : Module) (id : NodeId) :
    Option (Inference.Context × Inference.State) :=
  Inference.arrive (m.environment signatures) id ⟨signatures, ⟨[]⟩, m.scopeTree⟩ .start m.toDeclaration

end Module

namespace Inference

theorem compared_of_replaces {signatures : SignatureTable} {m m' : Module} {id : NodeId}
    {old new : Expr} (replaces : Declaration.Replaces id old new m.toDeclaration m'.toDeclaration)
    (plain : Plain signatures) (distinct : m.ids.Nodup) (distinct' : m'.ids.Nodup) :
    Compared signatures m m' :=
  ⟨plain, distinct, distinct', replaces.headIds_eq, fun _ =>
    forall₂_find? (List.forall₂_reverse_iff.mpr replaces.innerFirst) fun both => by rw [both.name]⟩

/-- Where one expression and its replacement run in tandem, the operators of both modules have the
same effects up to renamings. -/
theorem infer_replaced {signatures : SignatureTable} {m m' : Module} {id : NodeId} {old new : Expr}
    {close : Prop} {reached : State → Prop}
    (replaces : Declaration.Replaces id old new m.toDeclaration m'.toDeclaration)
    (compared : Compared signatures m m')
    (changed : ∀ {n n' : Module} {declaration declaration' : Declaration}, n ∈ m.modules →
      n' ∈ m'.modules →
      Module.Counterparts n n' → declaration ∈ n.declarations → declaration' ∈ n'.declarations →
      declaration.expr? = some old → declaration'.expr? = some new →
      Tandem (headsOf m) close reached (contextIn signatures m n)
        (contextIn signatures m' n') old new)
    (arrived : ∀ context state, m.arrival? signatures id = some (context, state) →
      reached state) {state : State} (run : m.infer signatures = .ok state)
    (closely : close → state.errors.isEmpty = true) :
    ∃ state', m'.infer signatures = .ok state' ∧ Similar (headsOf m) [] [] state state' := by
  obtain ⟨moduleId, name, declarations⟩ := m
  obtain ⟨moduleId', name', declarations'⟩ := m'
  simp only [Module.toDeclaration] at replaces
  cases replaces with
  | @submodule _ _ before others inner inner' replaces =>
    have whole : ∀ n : Module, n ∈ n.modules := fun n =>
      Module.mem_modules.mpr (Declaration.mem_all_self _)
    have pair := replaces.counterparts moduleId name before others
    have follows := follows_inside compared (whole _) (whole _) rfl rfl pair replaces.id_mem
      (follows_replaced compared changed replaces (whole _) (whole _) pair
        (List.mem_append_right _ List.mem_cons_self) (List.mem_append_right _ List.mem_cons_self))
      ⟨signatures, ⟨[]⟩, Module.scopeTree ⟨moduleId, name, before ++ inner :: others⟩⟩
      ⟨signatures, ⟨[]⟩, Module.scopeTree ⟨moduleId, name, before ++ inner' :: others⟩⟩
    have similar : ∀ ids ids', Similar (headsOf ⟨moduleId, name, before ++ inner :: others⟩) ids ids'
        .start .start := fun ids ids' =>
      ⟨unseen_start ids, unseen_start ids', fun _ => .none, rfl⟩
    have nodup : ∀ {n : Module}, n.ids.Nodup → (n.toDeclaration.ids ++ []).Nodup := by
      intro n distinct
      rw [List.append_nil]
      exact distinct
    obtain ⟨state', run', done⟩ := follows arrived (similar _ _) (nodup compared.distinct)
      (nodup compared.distinct') closely (by rw [inferDeclaration_toDeclaration]; exact run)
    rw [inferDeclaration_toDeclaration] at run'
    exact ⟨state', run', done⟩

theorem infer_replaced_declared {signatures : SignatureTable} {m m' n : Module} {id : NodeId}
    {old new : Expr} {close : Prop} {declaration : Declaration} {context : Context} {arrived : State}
    (replaces : Declaration.Replaces id old new m.toDeclaration m'.toDeclaration)
    (compared : Compared signatures m m') (within : n ∈ m.modules)
    (present : declaration ∈ n.declarations) (holds : declaration.expr? = some old)
    (arrives : m.arrival? signatures id = some (context, arrived))
    (changed : ∀ {n' : Module} {declaration' : Declaration}, n' ∈ m'.modules →
      Module.Counterparts n n' → declaration' ∈ n'.declarations → declaration'.expr? = some new →
      Tandem (headsOf m) close (fun state => state = arrived) (contextIn signatures m n)
        (contextIn signatures m' n') old new)
    {state : State} (run : m.infer signatures = .ok state)
    (closely : close → state.errors.isEmpty = true) :
    ∃ state', m'.infer signatures = .ok state' ∧ Similar (headsOf m) [] [] state state' := by
  have known : ∀ context state, m.arrival? signatures id = some (context, state) →
      state = arrived := by
    intro context state found
    cases arrives.symm.trans found
    rfl
  refine infer_replaced replaces compared ?_ known run closely
  intro k k' other declaration' inside inside' pair member member' holds' holds''
  cases Declaration.eq_of_mem_ownIds compared.distinct
    (Module.mem_all_of_mem_declarations within present)
    (Module.mem_all_of_mem_declarations inside member)
    (Declaration.mem_ownIds_of_expr holds (Expr.id_mem_ids _))
    (Declaration.mem_ownIds_of_expr holds' (Expr.id_mem_ids _))
  cases Declaration.parent_unique compared.distinct (Module.mem_modules.mp within)
    (Module.mem_modules.mp inside) present member
  exact changed inside' pair member' holds''

end Inference

end SpecEffects
