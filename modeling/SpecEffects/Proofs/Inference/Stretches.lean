import SpecEffects.Proofs.Inference.Expressions
import SpecEffects.Proofs.Scope

/-!
The stretches of inference. Each expression of a module is a stretch of its own: what is learned in
it changes no effect that was recorded before. The exception is signatures that speak of the
unknown effect of a parameter as if it were a name of their own. With such signatures all of
inference is one stretch.
-/
namespace SpecEffects.Inference

open Substitution

def Mentioned (signatures : SignatureTable) (name : String) : Prop :=
  ∃ operator effect, signatures.get? operator = some (.fixed effect) ∧ effect.Uses .effect name

/-- No signature speaks of the unknown effect of a parameter of the module. -/
def Apart (signatures : SignatureTable) (m : Module) : Prop :=
  ∀ name ∈ m.placeholders, ¬ Mentioned signatures name

def Stable (signatures : SignatureTable) (m : Module) (id : NodeId) : Prop :=
  Apart signatures m ∧ id ∈ m.toDeclaration.headIds

def PlaceholderOf (done : List NodeId) (name : String) : Prop :=
  ∃ param, ∃ id ∈ done, name = placeholder param id

theorem isPlaceholder_of_mem {expr : Expr} {name : String} (member : name ∈ expr.placeholders) :
    isPlaceholder name = true := by
  obtain ⟨param, id, _, rfl⟩ := Expr.lambda_of_placeholder member
  exact isPlaceholder_placeholder param id

namespace Frame

def ofExpr (start : FreshNames) (done : List NodeId) (expr : Expr)
    (disjoint : ∀ id ∈ expr.ids, id ∉ done) : Frame where
  start := start
  before := PlaceholderOf done
  here := (· ∈ expr.placeholders)
  ids := (· ∈ expr.ids)
  marked name placed := by
    rcases placed with ⟨param, id, _, rfl⟩ | placed
    · exact isPlaceholder_placeholder param id
    · exact isPlaceholder_of_mem placed
  disjoint name := by
    rintro ⟨param, id, early, rfl⟩ placed
    obtain ⟨param', id', late, same⟩ := Expr.lambda_of_placeholder placed
    cases placeholder_injective same
    exact disjoint id late early

def whole : Frame where
  start := .empty
  before _ := False
  here name := isPlaceholder name = true
  ids _ := True
  marked _ placed := placed.resolve_left not_false
  disjoint _ absurd := absurd.elim

end Frame

/-- What holds between two stretches, where nodes that have been met are among `done`. -/
structure Settled (foreign : String → Prop) (done : List NodeId) (state : State) : Prop where
  canonical : ∀ {id effect}, state.effects.get? id = some effect → effect.Canonical
  bounded : ∀ {id effect}, state.effects.get? id = some effect →
    effect.Over (made .empty state.fresh (PlaceholderOf done))
  values : state.running.Canonical
  keys : ∀ {name value}, state.running.get? name = some value →
    (∃ kind, made .empty state.fresh (PlaceholderOf done) kind name) ∨
      foreign name ∧ isPlaceholder name = true

theorem PlaceholderOf.mono {done more : List NodeId} (part : done ⊆ more) (name : String)
    (placed : PlaceholderOf done name) : PlaceholderOf more name := by
  obtain ⟨param, id, member, same⟩ := placed
  exact ⟨param, id, part member, same⟩

namespace Settled

variable {foreign : String → Prop} {done more : List NodeId} {state after : State} {expr : Expr}

theorem mono (settled : Settled foreign done state) (part : done ⊆ more) :
    Settled foreign more state := by
  have wider : ∀ {kind name}, made .empty state.fresh (PlaceholderOf done) kind name →
      made .empty state.fresh (PlaceholderOf more) kind name :=
    fun used => made_mono (FreshNames.le_refl _) state.fresh.le_refl (PlaceholderOf.mono part) used
  refine ⟨settled.canonical, ?_, settled.values, ?_⟩
  · intro id effect recorded kind name used
    exact wider (settled.bounded recorded kind name used)
  · intro name value found
    rcases settled.keys found with ⟨kind, known⟩ | other
    · exact Or.inl ⟨kind, wider known⟩
    · exact Or.inr other

theorem copy (settled : Settled foreign done state) {id source : NodeId} {effect : Effect}
    (recorded : state.effects.get? source = some effect) :
    Settled foreign done (state.record id effect) := by
  refine ⟨?_, ?_, settled.values, settled.keys⟩
  · intro other found recorded'
    rw [get?_record] at recorded'
    split at recorded'
    · cases recorded'
      exact settled.canonical recorded
    · exact settled.canonical recorded'
  · intro other found recorded'
    rw [get?_record] at recorded'
    split at recorded'
    · cases recorded'
      exact settled.bounded recorded
    · exact settled.bounded recorded'

theorem start (settled : Settled foreign done state) (disjoint : ∀ id ∈ expr.ids, id ∉ done)
    (missing : ∀ id ∈ expr.ids, state.effects.get? id = none)
    (apart : ∀ name ∈ expr.placeholders, ¬ foreign name) :
    (Frame.ofExpr state.fresh done expr disjoint).Holds foreign state := by
  let frame := Frame.ofExpr state.fresh done expr disjoint
  refine ⟨state.fresh.le_refl, settled.canonical, ?_, ?_, settled.values, ?_, ?_⟩
  · intro id effect recorded inside
    cases (missing id inside).symm.trans recorded
  · intro id effect recorded _
    exact settled.bounded recorded
  · -- Nothing is known yet about names of the stretch: their numbers have not been used, and the
    -- other keys are names of signatures, which are not its placeholders.
    intro name value found owned
    rcases settled.keys found with ⟨kind, known⟩ | ⟨spoken, marked⟩
    · exact absurd owned (not_owned_of_made (fun name placed => frame.marked name (Or.inl placed))
        (fun name placed => frame.marked name (Or.inr placed)) frame.disjoint known)
    · rcases owned with ⟨kind, n, _, rfl⟩ | placed
      · rw [not_isPlaceholder_numbered] at marked
        cases marked
      · exact absurd spoken (apart name placed)
  · intro name value found
    rcases settled.keys found with ⟨kind, known⟩ | other
    · exact Or.inl ⟨kind, made_mono (FreshNames.le_refl _) state.fresh.le_refl
        (fun _ => Or.inl) known⟩
    · exact Or.inr other

theorem of_holds {now : FreshNames} {disjoint : ∀ id ∈ expr.ids, id ∉ done}
    (holds : (Frame.ofExpr now done expr disjoint).Holds foreign after) :
    Settled foreign (done ++ expr.ids) after := by
  have wider : ∀ name, PlaceholderOf done name ∨ name ∈ expr.placeholders →
      PlaceholderOf (done ++ expr.ids) name := by
    rintro name (placed | placed)
    · exact PlaceholderOf.mono (List.subset_append_left _ _) name placed
    · obtain ⟨param, id, member, same⟩ := Expr.lambda_of_placeholder placed
      exact ⟨param, id, List.mem_append_right _ member, same⟩
  refine ⟨holds.canonical, ?_, holds.values, ?_⟩
  · intro id effect recorded kind name used
    exact made_mono (FreshNames.le_refl _) after.fresh.le_refl wider
      (holds.known recorded kind name used)
  · intro name value found
    rcases holds.keys found with ⟨kind, known⟩ | other
    · exact Or.inl ⟨kind, made_mono (FreshNames.le_refl _) after.fresh.le_refl wider known⟩
    · exact Or.inr other

end Settled

/-- What holds between two expressions of the module. Where signatures are not kept apart, nothing
is known about single stretches. -/
structure Between (signatures : SignatureTable) (m : Module) (done : List NodeId) (state : State) :
    Prop where
  recorded : ∀ {id effect}, state.effects.get? id = some effect → id ∈ done
  apart : Apart signatures m → Settled (Mentioned signatures) done state
  mixed : ¬ Apart signatures m → Frame.whole.Holds (Mentioned signatures) state

namespace Between

variable {signatures : SignatureTable} {m : Module} {done more : List NodeId} {state : State}

theorem mono (between : Between signatures m done state) (part : done ⊆ more) :
    Between signatures m more state :=
  ⟨fun recorded => part (between.recorded recorded), fun apart => (between.apart apart).mono part,
    between.mixed⟩

theorem missing (between : Between signatures m done state) {id : NodeId} (new : id ∉ done) :
    state.effects.get? id = none := by
  cases recorded : state.effects.get? id with
  | none => rfl
  | some effect => exact absurd (between.recorded recorded) new

theorem start (signatures : SignatureTable) (m : Module) : Between signatures m [] .start := by
  have no_effect : ∀ {id effect}, ¬ State.start.effects.get? id = some effect := nofun
  have no_value : ∀ {name value}, ¬ State.start.running.get? name = some value := nofun
  refine ⟨fun found => absurd found no_effect, fun _ => ?_, fun _ => ?_⟩
  · exact ⟨fun found => absurd found no_effect, fun found => absurd found no_effect, everySet_empty,
      fun found => absurd found no_value⟩
  · exact ⟨FreshNames.le_refl _, fun found => absurd found no_effect,
      fun found => absurd found no_effect, fun found => absurd found no_effect, everySet_empty,
      fun found => absurd found no_value, fun found => absurd found no_value⟩

end Between

section Module

variable {signatures : SignatureTable} {m : Module} {names : List String}
  (fixed : ∀ operator effect, signatures.get? operator = some (.fixed effect) → effect.Canonical)
  (distinct : m.ids.Nodup)

include fixed in
theorem signature_spec {name : String} {arity : Nat} {signature : Effect}
    (found : signatures.signature? name arity = some signature) :
    signature.Canonical ∧ ∀ other, signature.Uses .effect other → Mentioned signatures other := by
  obtain ⟨general, listed, rfl⟩ := Option.map_eq_some_iff.mp found
  cases general with
  | fixed effect => exact ⟨fixed name effect listed, fun other used => ⟨name, effect, listed, used⟩⟩
  | propagate components =>
    obtain ⟨canonical, unused⟩ := propagate_spec components arity
    exact ⟨canonical, fun other used => absurd used (unused other)⟩

variable {n : Module} (within : n ∈ m.modules) {table : NameTable}
  (found : (m.nameTables names).get? n.name = some table) {declaration : Declaration}
  (present : declaration ∈ n.declarations) {expr : Expr} (holds : declaration.expr? = some expr)
  {done : List NodeId} {state after : State}

include fixed distinct within found present holds in
theorem fitting_expr {now : FreshNames} (disjoint : ∀ id ∈ expr.ids, id ∉ done) :
    Fitting (.ofExpr now done expr disjoint) (Mentioned signatures) (Stable signatures m)
      ⟨signatures, table, n.scopeTree⟩ := by
  refine ⟨?_, signature_spec fixed, ?_⟩
  · intro id fixed_id inside
    have all := Module.mem_all_of_mem_declarations within present
    exact Declaration.not_mem_headIds distinct all holds inside fixed_id.2
  · intro name id definition site inside resolved parameter reference
    exact Module.site_of_parameter distinct within present holds found inside
      (mapError_eq_ok.mp resolved) parameter reference

include fixed in
theorem fitting_whole (mixed : ¬ Apart signatures m) :
    Fitting .whole (Mentioned signatures) (Stable signatures m)
      ⟨signatures, table, n.scopeTree⟩ := by
  refine ⟨?_, signature_spec fixed, fun _ _ _ _ => trivial⟩
  intro id stable
  exact absurd stable.1 mixed

include fixed distinct within found present holds in
theorem inferExpr_between (between : Between signatures m done state)
    (disjoint : ∀ id ∈ expr.ids, id ∉ done) (nodup : expr.ids.Nodup)
    (run : inferExpr ⟨signatures, table, n.scopeTree⟩ state expr = .ok after) :
    Between signatures m (done ++ expr.ids) after ∧
      Evolves (Stable signatures m) state.effects (· ∈ expr.ids) after.effects ∧
      ∀ node ∈ expr.nodes, Consistent (Stable signatures m) ⟨signatures, table, n.scopeTree⟩
        after.effects node := by
  have missing : ∀ id ∈ expr.ids, state.effects.get? id = none :=
    fun id member => between.missing (disjoint id member)
  have recorded : Evolves (Stable signatures m) state.effects (· ∈ expr.ids) after.effects →
      ∀ {id effect}, after.effects.get? id = some effect → id ∈ done ++ expr.ids := by
    rintro ⟨σ, evolves⟩ id effect recorded
    by_cases inside : id ∈ expr.ids
    · exact List.mem_append_right _ inside
    · obtain ⟨earlier, found, _⟩ := evolves.origin inside recorded
      exact List.mem_append_left _ (between.recorded found)
  -- If signatures are not kept apart no node is stable, and the whole run is one stretch.
  by_cases apart : Apart signatures m
  · have all := Module.mem_all_of_mem_declarations within present
    have unspoken : ∀ name ∈ expr.placeholders, ¬ Mentioned signatures name := by
      intro name member
      refine apart name (List.mem_flatMap.mpr ⟨declaration, all, ?_⟩)
      rw [holds]
      exact member
    have begun := (between.apart apart).start disjoint missing unspoken
    have done := inferExpr_extends
      (fitting_expr fixed distinct within found present holds disjoint) expr run begun
      ⟨nodup, fun _ member => member, missing, fun _ member => member⟩
    exact ⟨⟨recorded done.evolves, fun _ => .of_holds done.holds, fun mixed => absurd apart mixed⟩,
      done.evolves, done.consistent⟩
  · have done := inferExpr_extends (fitting_whole fixed apart) expr run (between.mixed apart)
      ⟨nodup, fun _ _ => trivial, missing, fun _ member => isPlaceholder_of_mem member⟩
    exact ⟨⟨recorded done.evolves, fun kept => absurd kept apart, fun _ => done.holds⟩,
      done.evolves, done.consistent⟩

end Module

theorem copyEffect_between {signatures : SignatureTable} {m : Module} {done : List NodeId}
    {state : State} (between : Between signatures m done state) {id : NodeId} (source : NodeId)
    (new : id ∉ done) :
    Between signatures m (id :: done) (state.copyEffect id source) ∧
      Evolves (Stable signatures m) state.effects (· ∈ [id]) (state.copyEffect id source).effects ∧
      ∀ effect, (state.copyEffect id source).effects.get? id = some effect →
        (state.copyEffect id source).effects.get? source = some effect := by
  have missing := between.missing new
  have wider := between.mono (List.subset_cons_self id done)
  have step := copyEffect_step state id source
  generalize state.copyEffect id source = after at step ⊢
  cases step with
  | @copied effect recorded =>
    refine ⟨⟨?_, ?_, ?_⟩, ?_, fun _ => get?_of_copy missing recorded⟩
    · intro other found recorded'
      rw [get?_record] at recorded'
      split at recorded'
      · rename_i same
        exact List.mem_cons.mpr (Or.inl same.symm)
      · exact wider.recorded recorded'
    · intro apart
      exact (wider.apart apart).copy recorded
    · intro mixed
      have holds := between.mixed mixed
      exact holds.record trivial (holds.canonical recorded) (holds.inside recorded trivial)
    · apply (Evolves.insert missing effect).mono
      intro other same
      exact List.mem_singleton.mpr same
  | skipped =>
    refine ⟨wider, Evolves.refl _ _ _, fun effect found => ?_⟩
    cases missing.symm.trans found

end SpecEffects.Inference
