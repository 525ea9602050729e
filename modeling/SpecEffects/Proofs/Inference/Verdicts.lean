import SpecEffects.Proofs.Inference.Propagation

/-!
What becomes of the nodes of a module without lambdas, lets and nested modules whose builtins all
pass on components, by direct recursion and without quantified names. Literals and constants do
nothing and a state variable reads itself. An operator does what its body does, and it can be
referred to from where its body has been gone through. A builtin does what its arguments do at the
components that it passes on, and cannot be applied to arguments that do anything else.
-/
namespace SpecEffects

namespace SignatureTable

def Propagates (signatures : SignatureTable) : Prop :=
  ∀ operator signature, signatures.get? operator = some signature →
    ∃ components, signature = .propagate components

def passes (signatures : SignatureTable) (operator : String) : List Component :=
  match signatures.get? operator with
  | some (.propagate components) => components
  | _ => []

end SignatureTable

inductive Verdict where
  | does (slots : Slots)
  | unresolved (name : String)
  | misapplied (expr : Expr)
  /-- Neither effect nor error, because something below has no effect. -/
  | skipped

namespace Verdict

def slots? : Verdict → Option Slots
  | .does slots => some slots
  | _ => none

def inherited : Verdict → Verdict
  | .does slots => .does slots
  | _ => .skipped

def Explains : Verdict → Option InferenceError → Prop
  | .does _, error? => error? = none
  | .unresolved name, error? => error? = some (.unresolvedSignature name)
  | .misapplied expr, error? => ∃ cause, error? = some (.application expr cause)
  | .skipped, error? => error? = none

theorem slots?_inherited (verdict : Verdict) : verdict.inherited.slots? = verdict.slots? := by
  cases verdict <;> rfl

end Verdict

/-- What references to names do. A name that is not known cannot be referred to. -/
abbrev Meanings := String → Option Slots

namespace Expr

inductive Ground (signatures : SignatureTable) (declared : List String) : Expr → Prop
  | literal (id : NodeId) (value : Literal) : Ground signatures declared (.literal id value)
  | ref (id : NodeId) {name : String} (known : name ∈ declared) :
    Ground signatures declared (.ref id name)
  | app (id : NodeId) {operator : String} {args : List Expr}
    (builtin : signatures.contains operator = true)
    (each : ∀ arg ∈ args, Ground signatures declared arg) :
    Ground signatures declared (.app id operator args)

mutual

def verdict (signatures : SignatureTable) (known : Meanings) : Expr → Verdict
  | .literal _ _ => .does .nothing
  | .ref _ name =>
    match known name with
    | some slots => .does slots
    | none => .unresolved name
  | .app id operator args =>
    match slotsOf? signatures known args with
    | none => .skipped
    | some inputs =>
      if Slots.Fits (signatures.passes operator) inputs then
        .does (.passOn (signatures.passes operator) inputs)
      else .misapplied (.app id operator args)
  | .lambda _ _ _ => .skipped
  | .letIn _ _ _ _ _ => .skipped

def slotsOf? (signatures : SignatureTable) (known : Meanings) : List Expr → Option (List Slots)
  | [] => some []
  | expr :: rest => do
    let slots ← (verdict signatures known expr).slots?
    let others ← slotsOf? signatures known rest
    return slots :: others

end

/-- What becomes of the expression and all its parts. -/
def verdicts (signatures : SignatureTable) (known : Meanings) (expr : Expr) :
    List (NodeId × Verdict) :=
  expr.nodes.map fun node => (node.id, node.verdict signatures known)

end Expr

namespace Declaration

def name? : Declaration → Option String
  | .stateVariable _ name => some name
  | .constant _ name => some name
  | .operator definition => some definition.name
  | _ => none

def initial? : Declaration → Option Slots
  | .stateVariable _ name => some (.reads name)
  | .constant _ _ => some .nothing
  | _ => none

def Ground (signatures : SignatureTable) (declared : List String) : Declaration → Prop
  | .operator definition => definition.body.Ground signatures declared
  | .assumption _ _ expr => expr.Ground signatures declared
  | .submodule _ _ _ => False
  | _ => True

def verdicts (signatures : SignatureTable) (known : Meanings) : Declaration → List (NodeId × Verdict)
  | .operator definition =>
    (definition.id, (definition.body.verdict signatures known).inherited) ::
      definition.body.verdicts signatures known
  | .assumption _ _ expr => expr.verdicts signatures known
  | _ => []

def learn (signatures : SignatureTable) (known : Meanings) : Declaration → Meanings
  | .operator definition =>
    Function.update known definition.name (definition.body.verdict signatures known).slots?
  | _ => known

def verdictsOf (signatures : SignatureTable) (known : Meanings) :
    List Declaration → List (NodeId × Verdict)
  | [] => []
  | declaration :: rest =>
    declaration.verdicts signatures known ++
      verdictsOf signatures (declaration.learn signatures known) rest

end Declaration

namespace Module

def declaredNames (m : Module) : List String := m.declarations.filterMap Declaration.name?

/-- Ground expressions and no nested modules, with distinct names other than those of builtins. -/
structure Ground (signatures : SignatureTable) (m : Module) : Prop where
  distinct : m.declaredNames.Nodup
  apart : ∀ name ∈ m.declaredNames, signatures.contains name = false
  each : ∀ declaration ∈ m.declarations, declaration.Ground signatures m.declaredNames

def initially (m : Module) : Meanings := fun name =>
  (m.declarations.find? fun declaration => declaration.name? = some name).bind Declaration.initial?

def verdicts (signatures : SignatureTable) (m : Module) : List (NodeId × Verdict) :=
  Declaration.verdictsOf signatures m.initially m.declarations

end Module

namespace Expr

variable {signatures : SignatureTable} {known : Meanings}

theorem slotsOf?_eq (args : List Expr) :
    slotsOf? signatures known args = args.mapM fun arg => (arg.verdict signatures known).slots? := by
  induction args with
  | nil => rfl
  | cons arg rest ih => rw [slotsOf?, ih, List.mapM_cons]

theorem mem_verdicts_app {id : NodeId} {operator : String} {args : List Expr}
    {entry : NodeId × Verdict} : entry ∈ (Expr.app id operator args).verdicts signatures known ↔
      entry = (id, (Expr.app id operator args).verdict signatures known) ∨
        entry ∈ args.flatMap (verdicts signatures known) := by
  rw [verdicts, nodes, nodesOf_eq, List.map_cons, List.mem_cons, List.map_flatMap]
  rfl

theorem mem_verdicts_self (expr : Expr) :
    (expr.id, expr.verdict signatures known) ∈ expr.verdicts signatures known :=
  List.mem_map.mpr ⟨expr, expr.mem_nodes_self, rfl⟩

theorem verdicts_ids_subset (expr : Expr) :
    (expr.verdicts signatures known).map Prod.fst ⊆ expr.ids := by
  intro id member
  rw [verdicts, List.map_map] at member
  obtain ⟨node, inside, rfl⟩ := List.mem_map.mp member
  exact ownIds_subset inside node.id_mem_ownIds

theorem verdicts_args_subset (args : List Expr) :
    (args.flatMap (verdicts signatures known)).map Prod.fst ⊆ args.flatMap ids := by
  intro id member
  rw [List.map_flatMap] at member
  obtain ⟨arg, present, inside⟩ := List.mem_flatMap.mp member
  exact List.mem_flatMap.mpr ⟨arg, present, arg.verdicts_ids_subset inside⟩

end Expr

namespace Declaration

theorem verdicts_ids_subset (signatures : SignatureTable) (known : Meanings)
    (declaration : Declaration) :
    (declaration.verdicts signatures known).map Prod.fst ⊆ declaration.ownIds := by
  cases declaration with
  | operator definition =>
    exact List.cons_subset_cons _ definition.body.verdicts_ids_subset
  | assumption id name expr =>
    exact List.subset_cons_of_subset _ expr.verdicts_ids_subset
  | _ => exact List.nil_subset _

theorem verdictsOf_ids_subset (signatures : SignatureTable) (known : Meanings)
    (declarations : List Declaration) :
    (verdictsOf signatures known declarations).map Prod.fst ⊆ declarations.flatMap ids := by
  induction declarations generalizing known with
  | nil => exact List.nil_subset _
  | cons declaration rest ih =>
    rw [verdictsOf, List.map_append, List.flatMap_cons]
    refine List.append_subset.mpr ⟨?_, List.subset_append_of_subset_right _ (ih _)⟩
    intro id inside
    exact List.mem_append_left _ (ownIds_subset declaration.mem_all_self
      (declaration.verdicts_ids_subset signatures known inside))

end Declaration

namespace Module

variable {signatures : SignatureTable} {m : Module}

theorem Ground.eq_of_name? (ground : m.Ground signatures) {declaration declaration' : Declaration}
    (present : declaration ∈ m.declarations) (present' : declaration' ∈ m.declarations) {name : String}
    (named : declaration.name? = some name) (named' : declaration'.name? = some name) :
    declaration = declaration' := by
  by_contra different
  have apart := List.pairwise_filterMap.mp ground.distinct
  have : Std.Symm fun a b : Declaration => ∀ n, a.name? = some n → ∀ n', b.name? = some n' → n ≠ n' :=
    ⟨fun a b apart n named n' named' => (apart n' named' n named).symm⟩
  exact apart.forall present present' different name named name named' rfl

theorem Ground.initially_eq (ground : m.Ground signatures) {declaration : Declaration}
    (present : declaration ∈ m.declarations) {name : String} (named : declaration.name? = some name) :
    m.initially name = declaration.initial? := by
  rw [initially]
  cases found : m.declarations.find? fun other => other.name? = some name with
  | none => exact absurd named (by simpa using List.find?_eq_none.mp found declaration present)
  | some other =>
    have named' : other.name? = some name := by simpa using List.find?_some found
    rw [ground.eq_of_name? present (List.mem_of_find?_eq_some found) named named']
    rfl

end Module

end SpecEffects
