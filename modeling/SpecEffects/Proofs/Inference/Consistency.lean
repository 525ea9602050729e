import SpecEffects.Inference.Traversal
import SpecEffects.Proofs.Inference.Instances
import SpecEffects.Proofs.Tree

/-!
When recorded effects fit together at a node, and why they go on to do so. Inference changes what is
recorded in two ways only: it puts what it has learned into every effect, and it records effects of
nodes that have none yet.
-/
namespace SpecEffects.Inference

open Substitution

def MeansBuiltin : Option NameDefinition → Prop
  | none => True
  | some definition => definition.kind = .operator ∧ definition.reference = none

def MeansOperator (definition : NameDefinition) (site : NodeId) : Prop :=
  definition.kind = .operator ∧ definition.scope = none ∧ definition.reference = some site

variable (stable : NodeId → Prop) (context : Context) (effects : SortedMap NodeId Effect)

/-- The arrow from what the arguments do to what the application does is an instance of what the
operator does. Operators of modules are spoken of when they are stable. -/
structure FitsApplication (id : NodeId) (operator : String) (arity : Nat) (inputs : List Effect)
    (result : Effect) : Prop where
  builtin : ∀ definition?, context.resolve operator id = .ok definition? →
    MeansBuiltin definition? →
    ∃ signature, context.signatures.signature? operator arity = some signature ∧
      IsInstance signature (.arrow inputs result)
  defined : ∀ definition site, context.resolve operator id = .ok (some definition) →
    MeansOperator definition site → stable site →
    ∃ general, effects.get? site = some general ∧ IsInstance general (.arrow inputs result)

def Consistent : Expr → Prop
  | .literal _ _ => True
  | .ref id name =>
    ∀ definition, context.resolve name id = .ok (some definition) → definition.kind = .parameter →
      ∃ site effect, definition.reference = some site ∧ effects.get? site = some effect ∧
        effects.get? id = some effect
  | .app id operator args =>
    ∀ result, effects.get? id = some result →
      ∃ inputs, List.Forall₂ (fun arg input => effects.get? arg.id = some input) args inputs ∧
        FitsApplication stable context effects id operator args.length inputs result
  | .lambda id params body =>
    ∀ effect, effects.get? id = some effect →
      ∃ inputs output, effect = .arrow inputs output ∧ inputs.length = params.length ∧
        effects.get? body.id = some output
  | .letIn id defId _ bound body =>
    (∀ effect, effects.get? id = some effect → effects.get? body.id = some effect) ∧
      ∀ effect, effects.get? defId = some effect → effects.get? bound.id = some effect

/-- What the effects become: the substitution is put into all of them, without a change to stable
ones, and nodes may get effects if they are touched. -/
structure EvolvesBy (σ : Substitution) (touched : NodeId → Prop)
    (after : SortedMap NodeId Effect) : Prop where
  canonical : σ.Canonical
  bounded : σ.Over possible
  kept : ∀ {id effect}, effects.get? id = some effect →
    ∃ result, σ.apply effect = .ok result ∧ after.get? id = some result ∧
      (stable id → result = effect)
  unrecorded : ∀ {id}, effects.get? id = none → ¬ touched id → after.get? id = none

def Evolves (touched : NodeId → Prop) (after : SortedMap NodeId Effect) : Prop :=
  ∃ σ, EvolvesBy stable effects σ touched after

variable {stable context effects} {touched others : NodeId → Prop}
  {after last : SortedMap NodeId Effect}

theorem Evolves.refl (stable : NodeId → Prop) (effects : SortedMap NodeId Effect)
    (touched : NodeId → Prop) : Evolves stable effects touched effects := by
  refine ⟨∅, everySet_empty, over_empty, ?_, ?_⟩
  · intro id effect recorded
    exact ⟨effect, rfl, recorded, fun _ => rfl⟩
  · intro id missing _
    exact missing

theorem Evolves.mono (evolves : Evolves stable effects touched after)
    (more : ∀ id, touched id → others id) : Evolves stable effects others after := by
  obtain ⟨σ, evolves⟩ := evolves
  refine ⟨σ, evolves.canonical, evolves.bounded, evolves.kept, ?_⟩
  intro id missing untouched
  exact evolves.unrecorded missing fun touch => untouched (more id touch)

theorem Evolves.trans (first : Evolves stable effects touched after)
    (second : Evolves stable after others last) :
    Evolves stable effects (fun id => touched id ∨ others id) last := by
  obtain ⟨σ, first⟩ := first
  obtain ⟨τ, second⟩ := second
  -- Names that inference makes up have one kind each, so there is no clash.
  obtain ⟨composed, run⟩ := exists_compose fun binding member =>
    exists_applyToTerm_of_over second.bounded possible_separate
      (first.bounded.values binding member)
  refine ⟨composed, canonical_compose second.canonical first.canonical run,
    over_compose second.bounded first.bounded run, ?_, ?_⟩
  · intro id effect recorded
    obtain ⟨between, applied, found, same⟩ := first.kept recorded
    obtain ⟨result, applied', found', same'⟩ := second.kept found
    refine ⟨result, (apply_compose second.canonical first.canonical run).mpr
      ⟨between, applied, applied'⟩, found', fun fixed => ?_⟩
    rw [same' fixed, same fixed]
  · intro id missing untouched
    apply second.unrecorded (first.unrecorded missing fun touch => untouched (Or.inl touch))
    exact fun touch => untouched (Or.inr touch)

theorem Evolves.insert {id : NodeId} (missing : effects.get? id = none) (effect : Effect) :
    Evolves stable effects (fun other => other = id) (effects.insert id effect) := by
  refine ⟨∅, everySet_empty, over_empty, ?_, ?_⟩
  · intro other found recorded
    refine ⟨found, rfl, ?_, fun _ => rfl⟩
    rw [SortedMap.get?_insert, if_neg]
    · exact recorded
    · intro same
      subst same
      cases missing.symm.trans recorded
  · intro other missing' different
    rw [SortedMap.get?_insert, if_neg fun same => different same.symm]
    exact missing'

theorem EvolvesBy.origin {σ : Substitution} (evolves : EvolvesBy stable effects σ touched after)
    {id : NodeId} (untouched : ¬ touched id) {result : Effect}
    (recorded : after.get? id = some result) :
    ∃ effect, effects.get? id = some effect ∧ σ.apply effect = .ok result := by
  cases before : effects.get? id with
  | none => cases (evolves.unrecorded before untouched).symm.trans recorded
  | some effect =>
    obtain ⟨result', applied, found, _⟩ := evolves.kept before
    cases recorded.symm.trans found
    exact ⟨effect, rfl, applied⟩

theorem EvolvesBy.copied {σ : Substitution} (evolves : EvolvesBy stable effects σ touched after)
    {id source : NodeId} (untouched : ¬ touched id)
    (same : ∀ effect, effects.get? id = some effect → effects.get? source = some effect) :
    ∀ effect, after.get? id = some effect → after.get? source = some effect := by
  intro result recorded
  obtain ⟨effect, before, applied⟩ := evolves.origin untouched recorded
  obtain ⟨result', applied', found, _⟩ := evolves.kept (same effect before)
  cases applied.symm.trans applied'
  exact found

theorem EvolvesBy.inputs {σ : Substitution} (evolves : EvolvesBy stable effects σ touched after)
    {args : List Expr} {inputs : List Effect}
    (each : List.Forall₂ (fun arg input => effects.get? arg.id = some input) args inputs) :
    ∃ inputs', List.Forall₂ (fun arg input => after.get? arg.id = some input) args inputs' ∧
      List.Forall₂ (fun input after => σ.apply input = .ok after) inputs inputs' := by
  induction each with
  | nil => exact ⟨[], .nil, .nil⟩
  | cons head _ ih =>
    obtain ⟨result, applied, found, _⟩ := evolves.kept head
    obtain ⟨rest, found', applied'⟩ := ih
    exact ⟨result :: rest, .cons found found', .cons applied applied'⟩

theorem FitsApplication.evolves {σ : Substitution} {id : NodeId} {operator : String} {arity : Nat}
    {inputs inputs' : List Effect} {result result' : Effect}
    (fits : FitsApplication stable context effects id operator arity inputs result)
    (evolves : EvolvesBy stable effects σ touched after)
    (arrow : σ.apply (.arrow inputs result) = .ok (.arrow inputs' result')) :
    FitsApplication stable context after id operator arity inputs' result' := by
  constructor
  · intro definition? resolved means
    obtain ⟨signature, found, instanced⟩ := fits.builtin definition? resolved means
    exact ⟨signature, found, instanced.apply evolves.canonical evolves.bounded arrow⟩
  · intro definition site resolved means fixed
    obtain ⟨general, found, instanced⟩ := fits.defined definition site resolved means fixed
    obtain ⟨general', _, found', same⟩ := evolves.kept found
    rw [same fixed] at found'
    exact ⟨general, found', instanced.apply evolves.canonical evolves.bounded arrow⟩

theorem Consistent.evolves {expr : Expr} (consistent : Consistent stable context effects expr)
    (evolves : Evolves stable effects touched after)
    (untouched : ∀ id ∈ expr.ownIds, ¬ touched id) : Consistent stable context after expr := by
  obtain ⟨σ, evolves⟩ := evolves
  have self := untouched expr.id expr.id_mem_ownIds
  cases expr with
  | literal id value => trivial
  | ref id name =>
    intro definition resolved at_parameter
    obtain ⟨site, effect, reference, recorded, same⟩ := consistent definition resolved at_parameter
    obtain ⟨result, applied, found, _⟩ := evolves.kept recorded
    obtain ⟨result', applied', found', _⟩ := evolves.kept same
    cases applied.symm.trans applied'
    exact ⟨site, result, reference, found, found'⟩
  | app id operator args =>
    intro result' recorded
    obtain ⟨result, before, applied⟩ := evolves.origin self recorded
    obtain ⟨inputs, each, fits⟩ := consistent result before
    obtain ⟨inputs', each', changed⟩ := evolves.inputs each
    exact ⟨inputs', each', fits.evolves evolves
      (apply_arrow.mpr ⟨inputs', result', changed, applied, rfl⟩)⟩
  | lambda id params body =>
    intro effect' recorded
    obtain ⟨effect, before, applied⟩ := evolves.origin self recorded
    obtain ⟨inputs, output, rfl, arity, found⟩ := consistent effect before
    obtain ⟨inputs', output', each, out, rfl⟩ := apply_arrow.mp applied
    obtain ⟨result, applied', found', _⟩ := evolves.kept found
    cases out.symm.trans applied'
    exact ⟨inputs', output', rfl, each.length_eq.symm.trans arity, found'⟩
  | letIn id defId name bound body =>
    exact ⟨evolves.copied self consistent.1,
      evolves.copied (untouched defId (by simp [Expr.ownIds])) consistent.2⟩

end SpecEffects.Inference
