import SpecEffects.Proofs.Application
import SpecEffects.Proofs.ScopePaths
import SpecEffects.Tree.Builder

/-!
The ids of built trees. A builder numbers what it makes, and a node is made after everything inside of
it. So ids grow from the inside out, whatever is used again and again, and following the links of a
scope tree ends. If nothing is used twice, no id is there twice.
-/
namespace SpecEffects

namespace Node

def ids : Node → List NodeId
  | .ofDeclaration declaration => declaration.ids
  | .ofDefinition definition => definition.id :: definition.body.ids
  | .ofParam param => [param.id]
  | .ofExpr expr => expr.ids

theorem ids_eq (node : Node) : node.ids = node.id :: node.children.flatMap ids := by
  cases node with
  | ofDeclaration declaration =>
    cases declaration with
    | operator definition => simp [ids, id, children, Declaration.ids_operator, Declaration.id]
    | assumption own name expr => simp [ids, id, children, Declaration.ids_assumption, Declaration.id]
    | submodule own name declarations =>
      simp [ids, id, children, Declaration.ids_submodule, Declaration.id, List.flatMap_map]
    | _ => rfl
  | ofDefinition definition => simp [ids, id, children]
  | ofParam param => rfl
  | ofExpr expr =>
    cases expr with
    | app own operator args => simp [ids, id, children, Expr.ids_app, Expr.id, List.flatMap_map]
    | lambda own params body =>
      show (Expr.lambda own params body).ids = _
      rw [Expr.ids_lambda, children, List.flatMap_append, List.flatMap_map, List.flatMap_singleton,
        List.map_eq_flatMap]
      rfl
    | letIn own defId name bound body => simp [ids, id, children, Expr.ids_letIn, Expr.id]
    | _ => rfl

inductive Below : Node → Node → Prop
  | child {inner outer : Node} (member : inner ∈ outer.children) : Below inner outer
  | deeper {inner middle outer : Node} (below : Below inner middle)
    (member : middle ∈ outer.children) : Below inner outer

inductive Ordered : Node → Prop
  | intro {node : Node} (smaller : ∀ child ∈ node.children, child.id.val < node.id.val)
    (inner : ∀ child ∈ node.children, Ordered child) : Ordered node

namespace Ordered

theorem smaller {node child : Node} (ordered : node.Ordered) (member : child ∈ node.children) :
    child.id.val < node.id.val := by
  cases ordered with
  | intro smaller inner => exact smaller child member

theorem inner {node child : Node} (ordered : node.Ordered) (member : child ∈ node.children) :
    child.Ordered := by
  cases ordered with
  | intro smaller inner => exact inner child member

theorem at_depth {node inner : Node} (ordered : node.Ordered) (below : inner.Below node) :
    inner.id.val < node.id.val ∧ inner.Ordered := by
  induction below with
  | child member => exact ⟨ordered.smaller member, ordered.inner member⟩
  | deeper below member ih =>
    obtain ⟨less, innermost⟩ := ih (ordered.inner member)
    exact ⟨UInt64.lt_trans less (ordered.smaller member), innermost⟩

end Ordered

end Node

namespace ScopeTree

theorem leads_upwards {scopes : ScopeTree}
    (grows : ∀ id parent, scopes.parent? id = some parent → id.val < parent.val) (id : NodeId) :
    ∃ path, scopes.Leads id path ∧ (path.Pairwise fun inner outer => inner.val < outer.val) ∧
      ∀ outer ∈ path, id.val ≤ outer.val := by
  -- Every link leaves fewer ids above.
  induction gap : UInt64.size - id.val.toNat using Nat.strongRecOn generalizing id with
  | ind gap' ih =>
    cases link : scopes.parent? id with
    | none => exact ⟨[id], .root link, List.pairwise_singleton _ _, by simp⟩
    | some parent =>
      have less := grows id parent link
      have bound := parent.val.toNat_lt_size
      rw [UInt64.lt_iff_toNat_lt] at less
      obtain ⟨path, leads, ascending, above⟩ := ih _ (by omega) parent rfl
      have further : ∀ outer ∈ path, id.val < outer.val := by
        intro outer member
        have reached := above outer member
        rw [UInt64.le_iff_toNat_le] at reached
        rw [UInt64.lt_iff_toNat_lt]
        omega
      refine ⟨id :: path, .step link leads, List.pairwise_cons.mpr ⟨further, ascending⟩, ?_⟩
      intro outer member
      rcases List.mem_cons.mp member with rfl | member
      · exact UInt64.le_refl _
      · exact UInt64.le_of_lt (further outer member)

end ScopeTree

namespace Module

variable {m : Module}

theorem Stands.ascending (ordered : (Node.ofDeclaration m.toDeclaration).Ordered) {node : Node}
    {path : List NodeId} (stands : m.Stands node path) :
    node.Ordered ∧ path.Pairwise fun inner outer => inner.val < outer.val := by
  induction stands with
  | root => exact ⟨ordered, List.pairwise_singleton _ _⟩
  | declared present =>
    have member := List.mem_map_of_mem (f := Node.ofDeclaration) present
    refine ⟨ordered.inner member, List.pairwise_cons.mpr ⟨fun id last => ?_, ?_⟩⟩
    · rw [List.mem_singleton.mp last]
      exact ordered.smaller member
    · exact List.pairwise_singleton _ _
  | inside above looked member ih =>
    obtain ⟨outer, ascending⟩ := ih
    obtain ⟨rest, rfl⟩ := above.starts
    have less := outer.smaller member
    refine ⟨outer.inner member, List.pairwise_cons.mpr ⟨fun id later => ?_, ascending⟩⟩
    rcases List.mem_cons.mp later with rfl | later
    · exact less
    · exact UInt64.lt_trans less ((List.pairwise_cons.mp ascending).1 id later)

/-- Where ids grow from the inside out, paths end and their ids grow, ids that are used twice or not
at all included. -/
theorem path_of_ordered (ordered : (Node.ofDeclaration m.toDeclaration).Ordered) (id : NodeId) :
    ∃ path, m.scopeTree.path id = .ok path ∧
      path.Pairwise fun inner outer => inner.val < outer.val := by
  have grows : ∀ id parent, m.scopeTree.parent? id = some parent → id.val < parent.val := by
    intro id parent found
    obtain ⟨node, _, rest, stands, same⟩ := mem_links.mp (link_of_parent? found)
    cases same
    exact (List.pairwise_cons.mp (stands.ascending ordered).2).1 parent List.mem_cons_self
  obtain ⟨path, leads, ascending, _⟩ := ScopeTree.leads_upwards grows id
  exact ⟨path, leads.path_eq, ascending⟩

end Module

theorem toNat_succ {n : UInt64} (fits : n.toNat + 1 < UInt64.size) : (n + 1).toNat = n.toNat + 1 := by
  rw [UInt64.toNat_add]
  exact Nat.mod_eq_of_lt fits

theorem Builder.params_spec {params : List String} {builder : Builder}
    (fits : builder.nextId.toNat + params.length < UInt64.size) :
    ((params.mapM Builder.param).run builder).2.nextId.toNat =
        builder.nextId.toNat + params.length ∧
      ((params.mapM Builder.param).run builder).1.map (fun param => param.id.val.toNat) =
        List.range' builder.nextId.toNat params.length := by
  induction params generalizing builder with
  | nil => exact ⟨rfl, rfl⟩
  | cons name rest ih =>
    rw [List.length_cons] at fits
    have next := toNat_succ (n := builder.nextId) (by omega)
    have later := @ih ⟨builder.nextId + 1⟩ (by rw [next]; omega)
    rw [next] at later
    rw [List.mapM_cons, List.length_cons, List.range'_succ]
    refine ⟨?_, congrArg (builder.nextId.toNat :: ·) later.2⟩
    have last : ((rest.mapM Builder.param).run ⟨builder.nextId + 1⟩).2.nextId.toNat = _ := later.1
    have total : builder.nextId.toNat + 1 + rest.length = builder.nextId.toNat + (rest.length + 1) := by
      omega
    exact last.trans total

namespace Script

namespace Item

def root? : Item → Option Node
  | .id _ => none
  | .expr e => some (.ofExpr e)
  | .definition d => some (.ofDefinition d)
  | .declaration d => some (.ofDeclaration d)
  | .specModule m => some (.ofDeclaration m.toDeclaration)

def ids : Item → List NodeId
  | .id node => [node]
  | .expr e => e.ids
  | .definition d => d.id :: d.body.ids
  | .declaration d => d.ids
  | .specModule m => m.ids

theorem ids_of_root {item : Item} {root : Node} (node : item.root? = some root) :
    item.ids = root.ids := by
  cases item <;> cases node <;> rfl

end Item

namespace Step

def minted : Step → Nat
  | .lambda params _ => params.length + 1
  | .operator _ params _ => params.length + 2
  | _ => 1

def refs : Step → List Nat
  | .app _ args => args
  | .lambda _ body => [body]
  | .letIn definition body => [definition, body]
  | .define _ body => [body]
  | .operator _ _ body => [body]
  | .assumption _ expr => [expr]
  | .specModule _ declarations => declarations
  | _ => []

end Step

def mintedBy : List Step → Nat
  | [] => 0
  | step :: rest => step.minted + mintedBy rest

variable {items : List Item} {step : Step} {item : Item} {next : Nat} {root : Node}

def idsAt (items : List Item) (i : Nat) : List NodeId := items[i]?.elim [] Item.ids

def Reuses (items : List Item) (i : Nat) (node : Node) : Prop :=
  ∃ item root, items[i]? = some item ∧ item.root? = some root ∧
    node.id = root.id ∧ node.children = root.children

/-- Ids grow from the inside out in all items, and ids from this number on are not used. -/
structure Settled (items : List Item) (next : Nat) : Prop where
  ordered : ∀ item ∈ items, ∀ root, item.root? = some root → root.Ordered
  below : ∀ item ∈ items, ∀ id ∈ item.ids, id.val.toNat < next

namespace Reuses

variable {i : Nat} {node : Node}

theorem idsAt_eq (reuses : Reuses items i node) : idsAt items i = node.ids := by
  obtain ⟨item, root, present, some, sameId, sameChildren⟩ := reuses
  rw [node.ids_eq, sameId, sameChildren, ← root.ids_eq, idsAt, present]
  exact Item.ids_of_root some

theorem settled (reuses : Reuses items i node) (settled : Settled items next) :
    node.Ordered ∧ node.id.val.toNat < next := by
  obtain ⟨item, root, present, some, sameId, sameChildren⟩ := reuses
  have member := List.mem_of_getElem? present
  have ordered := settled.ordered item member root some
  have own : root.id ∈ item.ids := by
    rw [Item.ids_of_root some, root.ids_eq]
    exact List.mem_cons_self
  refine ⟨⟨fun child inside => ?_, fun child inside => ?_⟩, ?_⟩
  · rw [sameChildren] at inside
    rw [sameId]
    exact ordered.smaller inside
  · rw [sameChildren] at inside
    exact ordered.inner inside
  · rw [sameId]
    exact settled.below item member root.id own

end Reuses

def Shows {α : Type} (view : Item → Option α) (node : α → Node) : Prop :=
  ∀ item a, view item = some a → ∃ root, item.root? = some root ∧
    (node a).id = root.id ∧ (node a).children = root.children

namespace Shows

theorem expr : Shows Item.expr? .ofExpr := by
  intro item e seen
  cases item <;> cases seen
  exact ⟨_, rfl, rfl, rfl⟩

theorem definition : Shows Item.definition? .ofDefinition := by
  intro item d seen
  cases item <;> cases seen
  exact ⟨_, rfl, rfl, rfl⟩

theorem declaration : Shows Item.declaration? .ofDeclaration := by
  intro item d seen
  cases item <;> cases seen <;> exact ⟨_, rfl, rfl, rfl⟩

variable {α : Type} {view : Item → Option α} {node : α → Node} (shows : Shows view node)

include shows

theorem reuses {i : Nat} {a : α} (found : items[i]?.bind view = some a) : Reuses items i (node a) := by
  obtain ⟨item, present, seen⟩ := Option.bind_eq_some_iff.mp found
  obtain ⟨root, some, same⟩ := shows item a seen
  exact ⟨item, root, present, some, same⟩

theorem reuses_all {refs : List Nat} {seen : List α}
    (found : (refs.mapM fun i => items[i]?.bind view) = some seen) :
    List.Forall₂ (Reuses items) refs (seen.map node) := by
  rw [List.forall₂_map_right_iff]
  exact (mapM_eq_some.mp found).imp fun i a => shows.reuses

end Shows

theorem ordered_of_new (settled : Settled items next) (new : next ≤ root.id.val.toNat)
    (each : ∀ child ∈ root.children, (∃ i, Reuses items i child) ∨
      child.Ordered ∧ child.id.val.toNat < root.id.val.toNat) : root.Ordered := by
  constructor
  · intro child member
    rw [UInt64.lt_iff_toNat_lt]
    rcases each child member with ⟨i, reuses⟩ | ⟨_, less⟩
    · have old := (reuses.settled settled).2
      omega
    · exact less
  · intro child member
    rcases each child member with ⟨i, reuses⟩ | ⟨ordered, _⟩
    · exact (reuses.settled settled).1
    · exact ordered

theorem flatMap_idsAt {refs : List Nat} {nodes : List Node}
    (drawn : List.Forall₂ (Reuses items) refs nodes) :
    refs.flatMap (idsAt items) = nodes.flatMap Node.ids := by
  induction drawn with
  | nil => rfl
  | cons reuses rest ih => rw [List.flatMap_cons, List.flatMap_cons, reuses.idsAt_eq, ih]

theorem number_of_mem {ids : List NodeId} {count : Nat}
    (numbered : ids.map (fun id => id.val.toNat) = List.range' next count) {id : NodeId}
    (member : id ∈ ids) : next ≤ id.val.toNat ∧ id.val.toNat < next + count := by
  have listed := List.mem_map_of_mem (f := fun id => id.val.toNat) member
  rwa [numbered, List.mem_range'_1] at listed

/-- What a step makes of the items: it takes the next ids, beside those of the items that it uses, and
where these are settled ids grow in what it makes as well. -/
structure Makes (items : List Item) (step : Step) (next : Nat) (item : Item) : Prop where
  ids : ∃ new : List NodeId, new.map (fun id => id.val.toNat) = List.range' next step.minted ∧
    item.ids.Perm (new ++ step.refs.flatMap (idsAt items))
  ordered : Settled items next → ∀ root, item.root? = some root → root.Ordered

namespace Makes

/-- The node that gets the last id holds parameters, numbered before it, and nodes that are used. -/
theorem of_root {params : List Param} {used : List Node} (node : item.root? = some root)
    (children : root.children = params.map .ofParam ++ used)
    (drawn : List.Forall₂ (Reuses items) step.refs used) (count : step.minted = params.length + 1)
    (numbered : params.map (fun param => param.id.val.toNat) = List.range' next params.length)
    (last : root.id.val.toNat = next + params.length) : Makes items step next item := by
  refine ⟨⟨params.map Param.id ++ [root.id], ?_, ?_⟩, fun settled root' same => ?_⟩
  · rw [List.map_append, List.map_map, count, List.range'_1_concat, ← numbered, ← last]
    rfl
  · have parts : item.ids = root.id :: (params.map Param.id ++ used.flatMap Node.ids) := by
      rw [Item.ids_of_root node, root.ids_eq, children, List.flatMap_append, List.flatMap_map,
        List.map_eq_flatMap]
      rfl
    rw [parts, flatMap_idsAt drawn, List.append_assoc]
    exact List.perm_middle.symm
  · cases node.symm.trans same
    refine ordered_of_new settled (by omega) fun child member => ?_
    rw [children] at member
    rcases List.mem_append.mp member with new | old
    · obtain ⟨param, present, rfl⟩ := List.mem_map.mp new
      have listed := List.mem_map_of_mem (f := fun param => param.id.val.toNat) present
      rw [numbered, List.mem_range'_1] at listed
      refine Or.inr ⟨⟨List.forall_mem_nil _, List.forall_mem_nil _⟩, ?_⟩
      rw [last]
      exact listed.2
    · obtain ⟨i, _, reuses⟩ := forall₂_mem_right drawn old
      exact Or.inl ⟨i, reuses⟩

theorem of_one {used : List Node} (node : item.root? = some root) (children : root.children = used)
    (drawn : List.Forall₂ (Reuses items) step.refs used) (count : step.minted = 1)
    (last : root.id.val.toNat = next) : Makes items step next item := by
  have none : root.children = ([] : List Param).map .ofParam ++ used := children
  exact of_root node none drawn count rfl last

theorem operator {name : String} {params : List String} {body : Nat} {lambda : Expr} {id : NodeId}
    (made : Makes items (.lambda params body) next (.expr lambda))
    (before : lambda.id.val.toNat = next + params.length)
    (last : id.val.toNat = next + params.length + 1) :
    Makes items (.operator name params body) next (.definition ⟨id, name, lambda⟩) := by
  obtain ⟨new, numbered, all⟩ := made.ids
  refine ⟨⟨new ++ [id], ?_, ?_⟩, fun settled root same => ?_⟩
  · have count : (Step.operator name params body).minted = (Step.lambda params body).minted + 1 := rfl
    rw [List.map_append, numbered, count, List.range'_1_concat]
    simp [last, Step.minted, Nat.add_assoc]
  · rw [List.append_assoc]
    exact (all.cons id).trans List.perm_middle.symm
  · cases same
    have ordered := made.ordered settled _ rfl
    refine ordered_of_new settled (by simp only [Node.id]; omega) fun child member => ?_
    rw [List.mem_singleton.mp member]
    exact Or.inr ⟨ordered, by simp only [Node.id]; omega⟩

end Makes

theorem makes_lambda {builder : Builder} {params : List String} {body : Nat} {e : Expr}
    (found : items[body]?.bind Item.expr? = some e)
    (fits : builder.nextId.toNat + (params.length + 1) < UInt64.size) :
    Makes items (.lambda params body) builder.nextId.toNat
        (.expr ((Builder.lambda params e).run builder).1) ∧
      ((Builder.lambda params e).run builder).1.id.val.toNat =
        builder.nextId.toNat + params.length ∧
      ((Builder.lambda params e).run builder).2.nextId.toNat =
        builder.nextId.toNat + (params.length + 1) := by
  obtain ⟨next, numbered⟩ := @Builder.params_spec params builder (by omega)
  have length : ((params.mapM Builder.param).run builder).1.length = params.length := by
    simpa using congrArg List.length numbered
  rw [← length] at numbered
  refine ⟨.of_root rfl rfl (.cons (Shows.expr.reuses found) .nil) ?_ numbered (next.trans ?_), next, ?_⟩
  · exact congrArg (· + 1) length.symm
  · exact congrArg (builder.nextId.toNat + ·) length.symm
  · have succ := toNat_succ (n := ((params.mapM Builder.param).run builder).2.nextId) (by omega)
    exact succ.trans (congrArg (· + 1) next)

theorem makes_of_build {builder : Builder} {build : StateM Builder Item}
    (known : step.build? items = some build) (fits : builder.nextId.toNat + step.minted < UInt64.size) :
    Makes items step builder.nextId.toNat (build.run builder).1 ∧
      (build.run builder).2.nextId.toNat = builder.nextId.toNat + step.minted := by
  cases step with
  | id =>
    cases known
    refine ⟨⟨⟨[⟨builder.nextId⟩], rfl, List.Perm.refl _⟩, fun _ _ none => ?_⟩, toNat_succ fits⟩
    cases none
  | literal value =>
    cases known
    exact ⟨.of_one rfl rfl .nil rfl rfl, toNat_succ fits⟩
  | ref name =>
    cases known
    exact ⟨.of_one rfl rfl .nil rfl rfl, toNat_succ fits⟩
  | app name args =>
    obtain ⟨exprs, found, built⟩ := Option.bind_eq_some_iff.mp known
    cases built
    exact ⟨.of_one rfl rfl (Shows.expr.reuses_all found) rfl rfl, toNat_succ fits⟩
  | lambda params body =>
    obtain ⟨e, found, built⟩ := Option.bind_eq_some_iff.mp known
    cases built
    obtain ⟨made, _, after⟩ := makes_lambda found fits
    exact ⟨made, after⟩
  | letIn definition body =>
    obtain ⟨d, found, rest⟩ := Option.bind_eq_some_iff.mp known
    obtain ⟨e, found', built⟩ := Option.bind_eq_some_iff.mp rest
    cases built
    have drawn : List.Forall₂ (Reuses items) [definition, body] [.ofDefinition d, .ofExpr e] :=
      .cons (Shows.definition.reuses found) (.cons (Shows.expr.reuses found') .nil)
    exact ⟨.of_one rfl rfl drawn rfl rfl, toNat_succ fits⟩
  | define name body =>
    obtain ⟨e, found, built⟩ := Option.bind_eq_some_iff.mp known
    cases built
    exact ⟨.of_one rfl rfl (.cons (Shows.expr.reuses found) .nil) rfl rfl, toNat_succ fits⟩
  | operator name params body =>
    obtain ⟨e, found, built⟩ := Option.bind_eq_some_iff.mp known
    cases built
    -- The lambda takes all ids but the last, which the definition takes.
    rw [Step.minted] at fits
    obtain ⟨made, before, after⟩ := @makes_lambda items builder params body e found (by omega)
    refine ⟨made.operator before after, ?_⟩
    have succ := toNat_succ (n := ((Builder.lambda params e).run builder).2.nextId) (by omega)
    exact succ.trans (congrArg (· + 1) after)
  | stateVariable name =>
    cases known
    exact ⟨.of_one rfl rfl .nil rfl rfl, toNat_succ fits⟩
  | constant name =>
    cases known
    exact ⟨.of_one rfl rfl .nil rfl rfl, toNat_succ fits⟩
  | assumption name body =>
    obtain ⟨e, found, built⟩ := Option.bind_eq_some_iff.mp known
    cases built
    exact ⟨.of_one rfl rfl (.cons (Shows.expr.reuses found) .nil) rfl rfl, toNat_succ fits⟩
  | specModule name declarations =>
    obtain ⟨declared, found, built⟩ := Option.bind_eq_some_iff.mp known
    cases built
    exact ⟨.of_one rfl rfl (Shows.declaration.reuses_all found) rfl rfl, toNat_succ fits⟩

inductive Built : List Step → List Item → Nat → Prop
  | start : Built [] [] 1
  | step {steps : List Step} {items : List Item} {next : Nat} {step : Step} {item : Item}
    (built : Built steps items next) (makes : Makes items step next item) :
    Built (steps ++ [step]) (items ++ [item]) (next + step.minted)

theorem built_of_runFrom {before steps : List Step} {final : List Item} {builder : Builder}
    (built : Built before items builder.nextId.toNat)
    (run : runFrom items builder steps = some final)
    (few : builder.nextId.toNat + mintedBy steps < UInt64.size) :
    ∃ last, Built (before ++ steps) final last := by
  induction steps generalizing before items builder with
  | nil =>
    cases run
    rw [List.append_nil]
    exact ⟨_, built⟩
  | cons step rest ih =>
    rw [mintedBy] at few
    obtain ⟨build, known, later⟩ := Option.bind_eq_some_iff.mp run
    obtain ⟨makes, after⟩ := @makes_of_build items step builder build known (by omega)
    have extended := built.step makes
    rw [← after] at extended
    have finished := ih extended later (by omega)
    rwa [List.append_assoc] at finished

theorem built_of_run {steps : List Step} (ran : run steps = some items)
    (few : mintedBy steps < UInt64.size - 1) : ∃ last, Built steps items last := by
  have nothing : Built [] [] Builder.new.nextId.toNat := .start
  have first : Builder.new.nextId.toNat = 1 := rfl
  exact built_of_runFrom nothing ran (by omega)

theorem Settled.idsAt_lt (settled : Settled items next) {i : Nat} {id : NodeId}
    (member : id ∈ idsAt items i) : id.val.toNat < next := by
  rw [idsAt] at member
  cases present : items[i]? with
  | none => simp [present] at member
  | some item =>
    rw [present] at member
    exact settled.below item (List.mem_of_getElem? present) id member

theorem Settled.extend (settled : Settled items next) (makes : Makes items step next item) :
    Settled (items ++ [item]) (next + step.minted) := by
  obtain ⟨new, numbered, all⟩ := makes.ids
  constructor
  · intro other member
    rcases List.mem_append.mp member with old | last
    · exact settled.ordered other old
    · rw [List.mem_singleton.mp last]
      exact makes.ordered settled
  · intro other member id own
    rcases List.mem_append.mp member with old | last
    · have less := settled.below other old id own
      omega
    · rw [List.mem_singleton.mp last, all.mem_iff, List.mem_append] at own
      rcases own with fresh | used
      · exact (number_of_mem numbered fresh).2
      · obtain ⟨i, _, inside⟩ := List.mem_flatMap.mp used
        have less := settled.idsAt_lt inside
        omega

theorem Built.settled {steps : List Step} (built : Built steps items next) : Settled items next := by
  induction built with
  | start => exact ⟨List.forall_mem_nil _, List.forall_mem_nil _⟩
  | step built makes ih => exact ih.extend makes

/-- Items have no id twice, and two items have no id in common unless one of them has been used. -/
structure Apart (items : List Item) (used : List Nat) : Prop where
  nodup : ∀ item ∈ items, item.ids.Nodup
  disjoint : ∀ i j, i ≠ j → i ∉ used → j ∉ used → (idsAt items i).Disjoint (idsAt items j)

theorem idsAt_last (items : List Item) (item : Item) : idsAt (items ++ [item]) items.length = item.ids := by
  rw [idsAt, List.getElem?_concat_length]
  rfl

theorem idsAt_other {i : Nat} (other : i ≠ items.length) (item : Item) :
    idsAt (items ++ [item]) i = idsAt items i := by
  rw [idsAt, idsAt, List.getElem?_append]
  split
  · rfl
  · rename_i beyond
    rw [List.getElem?_eq_none (by simp; omega), List.getElem?_eq_none (by omega)]

namespace Apart

variable {used : List Nat} (apart : Apart items used) (settled : Settled items next)
  (makes : Makes items step next item) (once : (used ++ step.refs).Nodup)

include apart settled makes once

theorem nodup_made : item.ids.Nodup := by
  obtain ⟨new, numbered, all⟩ := makes.ids
  obtain ⟨_, refs, unused⟩ := List.nodup_append'.mp once
  rw [all.nodup_iff, List.nodup_append', List.nodup_flatMap]
  refine ⟨?_, ⟨fun i _ => ?_, ?_⟩, fun id fresh old => ?_⟩
  · exact List.Nodup.of_map _ (numbered ▸ List.nodup_range')
  · rw [idsAt]
    cases present : items[i]? with
    | none => exact List.nodup_nil
    | some item => exact apart.nodup item (List.mem_of_getElem? present)
  · -- Two items that are used here are different and have not been used before.
    refine refs.imp_of_mem fun member member' different => ?_
    exact apart.disjoint _ _ different (fun early => unused early member)
      fun early => unused early member'
  · have reached := number_of_mem numbered fresh
    obtain ⟨i, _, inside⟩ := List.mem_flatMap.mp old
    have less := settled.idsAt_lt inside
    omega

theorem disjoint_made {j : Nat} (free : j ∉ used ++ step.refs) : item.ids.Disjoint (idsAt items j) := by
  obtain ⟨new, numbered, all⟩ := makes.ids
  obtain ⟨_, _, unused⟩ := List.nodup_append'.mp once
  rw [List.mem_append, not_or] at free
  intro id own elsewhere
  rcases List.mem_append.mp (all.mem_iff.mp own) with fresh | inside
  · have reached := number_of_mem numbered fresh
    have less := settled.idsAt_lt elsewhere
    omega
  · obtain ⟨i, member, inside⟩ := List.mem_flatMap.mp inside
    have different : i ≠ j := fun same => free.2 (same ▸ member)
    exact apart.disjoint i j different (fun early => unused early member) free.1 inside elsewhere

theorem extend : Apart (items ++ [item]) (used ++ step.refs) := by
  constructor
  · intro other member
    rcases List.mem_append.mp member with old | last
    · exact apart.nodup other old
    · rw [List.mem_singleton.mp last]
      exact apart.nodup_made settled makes once
  · intro i j different free free'
    have made : ∀ k, k ∉ used ++ step.refs → item.ids.Disjoint (idsAt items k) := fun k =>
      apart.disjoint_made settled makes once
    -- Only a pair with the new item says something new.
    by_cases last : i = items.length
    · subst last
      rw [idsAt_last, idsAt_other (Ne.symm different)]
      exact made j free'
    · rw [idsAt_other last]
      by_cases last' : j = items.length
      · subst last'
        rw [idsAt_last]
        exact List.disjoint_symm (made i free)
      · rw [idsAt_other last']
        rw [List.mem_append, not_or] at free free'
        exact apart.disjoint i j different free.1 free'.1

end Apart

theorem Built.apart {steps : List Step} (built : Built steps items next)
    (once : (steps.flatMap Step.refs).Nodup) : Apart items (steps.flatMap Step.refs) := by
  induction built with
  | start => exact ⟨List.forall_mem_nil _, fun _ _ _ _ _ => List.disjoint_nil_left _⟩
  | step built makes ih =>
    rw [List.flatMap_append, List.flatMap_singleton] at once ⊢
    exact (ih (List.nodup_append'.mp once).1).extend built.settled makes once

/-- Built ids are ordered and unique. However often items are used, the id of a node is greater than
those of all nodes below it, and the path from every id to the module is found and has growing ids. If
no item is used twice, no id of a module is there twice. -/
theorem built_ids_are_ordered_and_unique {steps : List Step}
    (few : mintedBy steps < UInt64.size - 1) (built : run steps = some items) :
    (∀ item ∈ items, ∀ root, item.root? = some root → ∀ node : Node, node = root ∨ node.Below root →
      ∀ inner : Node, inner.Below node → inner.id.val < node.id.val) ∧
    (∀ m, .specModule m ∈ items → ∀ id, ∃ path, m.scopeTree.path id = .ok path ∧
      path.Pairwise fun inner outer => inner.val < outer.val) ∧
    ((steps.flatMap Step.refs).Nodup → ∀ m, .specModule m ∈ items → m.ids.Nodup) := by
  obtain ⟨last, built⟩ := built_of_run built few
  have settled := built.settled
  refine ⟨fun item member root some node within inner below => ?_, fun m member id => ?_,
    fun once m member => ?_⟩
  · have ordered := settled.ordered item member root some
    rcases within with rfl | within
    · exact (ordered.at_depth below).1
    · exact ((ordered.at_depth within).2.at_depth below).1
  · exact Module.path_of_ordered (settled.ordered _ member _ rfl) id
  · exact (built.apart once).nodup _ member

/-- A tree in which a definition, an application and a name are used twice, and one in which nothing
is. -/
theorem built_ids_with_and_without_reuse :
    let again : List Step := [.ref "x", .app "f" [0, 0], .operator "g" ["p"] 1, .letIn 2 1,
      .define "h" 3, .specModule "M" [2, 4]]
    let app : Expr := .app ⟨2⟩ "f" [.ref ⟨1⟩ "x", .ref ⟨1⟩ "x"]
    let g : Definition := ⟨⟨5⟩, "g", .lambda ⟨4⟩ [⟨⟨3⟩, "p"⟩] app⟩
    let h : Definition := ⟨⟨7⟩, "h", .letIn ⟨6⟩ g.id g.name g.body app⟩
    let m : Module := ⟨⟨8⟩, "M", [.operator g, .operator h]⟩
    let once : List Step := [.ref "x", .operator "g" ["p", "q"] 0, .specModule "M" [1]]
    let m' : Module :=
      ⟨⟨6⟩, "M", [.operator ⟨⟨5⟩, "g", .lambda ⟨4⟩ [⟨⟨2⟩, "p"⟩, ⟨⟨3⟩, "q"⟩] (.ref ⟨1⟩ "x")⟩]⟩
    (∃ items, run again = some items ∧ .specModule m ∈ items) ∧ ¬ m.ids.Nodup ∧
      (Node.ofExpr app).id.val < (Node.ofDefinition g).id.val ∧
      (∃ path, m.scopeTree.path ⟨1⟩ = .ok path ∧
        path.Pairwise fun inner outer => inner.val < outer.val) ∧
      (∃ items, run once = some items ∧ .specModule m' ∈ items) ∧ m'.ids.Nodup := by
  intro again app g h m once m'
  have ran : run again = some [.expr (.ref ⟨1⟩ "x"), .expr app, .definition g,
      .expr (.letIn ⟨6⟩ g.id g.name g.body app), .definition h, .specModule m] := rfl
  have ran' : run once = some [.expr (.ref ⟨1⟩ "x"),
      .definition ⟨⟨5⟩, "g", .lambda ⟨4⟩ [⟨⟨2⟩, "p"⟩, ⟨⟨3⟩, "q"⟩] (.ref ⟨1⟩ "x")⟩,
      .specModule m'] := rfl
  obtain ⟨order, paths, _⟩ := built_ids_are_ordered_and_unique (by decide) ran
  obtain ⟨_, _, unique⟩ := built_ids_are_ordered_and_unique (by decide) ran'
  have below : (Node.ofExpr app).Below (.ofDefinition g) :=
    .deeper (.child (List.mem_cons_of_mem _ List.mem_cons_self)) List.mem_cons_self
  refine ⟨⟨_, ran, by simp⟩, by decide, ?_, paths m (by simp) ⟨1⟩, ⟨_, ran', by simp⟩,
    unique (by decide) m' (by simp)⟩
  exact order (.definition g) (by simp) _ rfl _ (Or.inl rfl) _ below

end Script

end SpecEffects
