import SpecEffects.Proofs.Lexical

/-!
The way from a node to its module. The nodes of a module form a tree, in which every node other than
the module stands directly in one other node. Where ids are distinct, the scope tree has exactly the
nodes outside of nested modules, and following its links from a node goes through the nodes that the
node stands in, one after another, up to the module.
-/
namespace SpecEffects

/-- What can have an id. The definition of an operator and its declaration are one node. -/
inductive Node where
  | ofDeclaration (declaration : Declaration)
  | ofDefinition (definition : Definition)
  | ofParam (param : Param)
  | ofExpr (expr : Expr)

namespace Node

def id : Node → NodeId
  | .ofDeclaration declaration => declaration.id
  | .ofDefinition definition => definition.id
  | .ofParam param => param.id
  | .ofExpr expr => expr.id

def children : Node → List Node
  | .ofDeclaration (.operator definition) => [.ofExpr definition.body]
  | .ofDeclaration (.assumption _ _ expr) => [.ofExpr expr]
  | .ofDeclaration (.submodule _ _ declarations) => declarations.map .ofDeclaration
  | .ofDeclaration _ => []
  | .ofDefinition definition => [.ofExpr definition.body]
  | .ofParam _ => []
  | .ofExpr (.app _ _ args) => args.map .ofExpr
  | .ofExpr (.lambda _ params body) => params.map .ofParam ++ [.ofExpr body]
  | .ofExpr (.letIn _ defId name bound body) => [.ofDefinition ⟨defId, name, bound⟩, .ofExpr body]
  | .ofExpr _ => []

def isModule : Node → Bool
  | .ofDeclaration (.submodule _ _ _) => true
  | _ => false

theorem induct_children {motive : Node → Prop}
    (step : ∀ node, (∀ child ∈ node.children, motive child) → motive node) (node : Node) :
    motive node := by
  have leaf : ∀ node : Node, node.children = [] → motive node := by
    intro node none
    exact step node (by simp [none])
  have exprs : ∀ expr, motive (.ofExpr expr) := by
    intro expr
    induction expr with
    | literal id value => exact leaf _ rfl
    | ref id name => exact leaf _ rfl
    | app id operator args ih =>
      refine step _ fun child member => ?_
      obtain ⟨arg, present, rfl⟩ := List.mem_map.mp member
      exact ih arg present
    | lambda id params body ih =>
      refine step _ fun child member => ?_
      rcases List.mem_append.mp member with member | member
      · obtain ⟨param, _, rfl⟩ := List.mem_map.mp member
        exact leaf _ rfl
      · rw [List.mem_singleton.mp member]
        exact ih
    | letIn id defId name bound body ih ih' =>
      refine step _ fun child member => ?_
      simp only [children, List.mem_cons, List.not_mem_nil, or_false] at member
      rcases member with rfl | rfl
      · exact step _ (by simpa [children] using ih)
      · exact ih'
  cases node with
  | ofDeclaration declaration =>
    induction declaration with
    | submodule id name declarations ih =>
      refine step _ fun child member => ?_
      obtain ⟨declaration, present, rfl⟩ := List.mem_map.mp member
      exact ih declaration present
    | operator definition => exact step _ (by simpa [children] using exprs _)
    | assumption id name expr => exact step _ (by simpa [children] using exprs _)
    | _ => exact leaf _ rfl
  | ofDefinition definition => exact step _ (by simpa [children] using exprs _)
  | ofParam param => exact leaf _ rfl
  | ofExpr expr => exact exprs expr

def links : Node → List ScopeLink
  | .ofDeclaration declaration => declaration.expr?.elim [] (Expr.scopeLinks declaration.id)
  | .ofDefinition definition => definition.body.scopeLinks definition.id
  | .ofParam _ => []
  | .ofExpr expr => (expr.scopeLinks expr.id).tail

theorem scopeLinks_expr (expr : Expr) (parent : NodeId) :
    expr.scopeLinks parent = ⟨expr.id, parent⟩ :: (Node.ofExpr expr).links := by
  cases expr <;> rfl

theorem scopeLinks_declaration (declaration : Declaration) (parent : NodeId) :
    declaration.scopeLinks parent =
      ⟨declaration.id, parent⟩ :: (Node.ofDeclaration declaration).links := by
  cases declaration <;> rfl

theorem links_of_module {node : Node} (nested : node.isModule = true) : node.links = [] := by
  cases node with
  | ofDeclaration declaration =>
    cases declaration with
    | submodule id name declarations => rfl
    | _ => cases nested
  | _ => cases nested

/-- Except in modules, whatever stands inside of a node is linked to what it stands in. -/
theorem links_eq {node : Node} (looked : node.isModule = false) :
    node.links = node.children.flatMap fun child => ⟨child.id, node.id⟩ :: child.links := by
  cases node with
  | ofDeclaration declaration =>
    cases declaration with
    | operator definition =>
      exact (scopeLinks_expr definition.body definition.id).trans (List.append_nil _).symm
    | assumption id name expr => exact (scopeLinks_expr expr id).trans (List.append_nil _).symm
    | submodule id name declarations => cases looked
    | _ => rfl
  | ofDefinition definition =>
    exact (scopeLinks_expr definition.body definition.id).trans (List.append_nil _).symm
  | ofParam param => rfl
  | ofExpr expr =>
    cases expr with
    | app id operator args =>
      show Expr.scopeLinksOf id args = _
      rw [Expr.scopeLinksOf_eq, children, List.flatMap_map]
      exact List.flatMap_congr fun arg _ => scopeLinks_expr arg id
    | lambda id params body =>
      show params.map (fun param => ⟨param.id, id⟩) ++ body.scopeLinks id = _
      rw [children, List.flatMap_append, List.flatMap_map, List.flatMap_singleton, scopeLinks_expr,
        List.map_eq_flatMap]
      rfl
    | letIn id defId name bound body =>
      show ⟨defId, id⟩ :: bound.scopeLinks defId ++ body.scopeLinks id = _
      rw [children, List.flatMap_cons, List.flatMap_singleton, scopeLinks_expr body]
      rfl
    | _ => rfl

end Node

namespace Module

variable {m : Module} {node : Node} {path : List NodeId}

/-- The node stands in the module and outside of the modules nested in it. The path has the ids of the
node, of the node in which it stands, and so on up to the module. -/
inductive Stands (m : Module) : Node → List NodeId → Prop
  | root : m.Stands (.ofDeclaration m.toDeclaration) [m.id]
  | declared {declaration : Declaration} (present : declaration ∈ m.declarations) :
    m.Stands (.ofDeclaration declaration) [declaration.id, m.id]
  | inside {parent child : Node} {path : List NodeId} (above : m.Stands parent path)
    (looked : parent.isModule = false) (member : child ∈ parent.children) :
    m.Stands child (child.id :: path)

def links (m : Module) : List ScopeLink := m.declarations.flatMap (Declaration.scopeLinks m.id)

namespace Stands

theorem starts (stands : m.Stands node path) : ∃ rest, path = node.id :: rest := by
  cases stands with
  | root => exact ⟨[], rfl⟩
  | declared present => exact ⟨[m.id], rfl⟩
  | inside above looked member => exact ⟨_, rfl⟩

theorem links_subset (stands : m.Stands node path) : node.links ⊆ m.links := by
  induction stands with
  | root => exact List.nil_subset _
  | declared present =>
    intro link member
    refine List.mem_flatMap.mpr ⟨_, present, ?_⟩
    rw [Node.scopeLinks_declaration]
    exact List.mem_cons_of_mem _ member
  | inside above looked member ih =>
    intro link within
    apply ih
    rw [Node.links_eq looked]
    exact List.mem_flatMap.mpr ⟨_, member, List.mem_cons_of_mem _ within⟩

theorem link_mem {parent : NodeId} {rest : List NodeId}
    (stands : m.Stands node (node.id :: parent :: rest)) : ⟨node.id, parent⟩ ∈ m.links := by
  cases stands with
  | declared present =>
    refine List.mem_flatMap.mpr ⟨_, present, ?_⟩
    rw [Node.scopeLinks_declaration]
    exact List.mem_cons_self
  | inside above looked member =>
    obtain ⟨rest', start⟩ := above.starts
    cases start
    apply above.links_subset
    rw [Node.links_eq looked]
    exact List.mem_flatMap.mpr ⟨_, member, List.mem_cons_self⟩

theorem of_mem_links (stands : m.Stands node path) {link : ScopeLink} (member : link ∈ node.links) :
    ∃ inner parent rest, m.Stands inner (inner.id :: parent :: rest) ∧ link = ⟨inner.id, parent⟩ := by
  induction node using Node.induct_children generalizing path with
  | step node ih =>
    cases looked : node.isModule with
    | true =>
      rw [Node.links_of_module looked] at member
      cases member
    | false =>
      rw [Node.links_eq looked] at member
      obtain ⟨child, directly, member⟩ := List.mem_flatMap.mp member
      have below : m.Stands child (child.id :: path) := .inside stands looked directly
      rcases List.mem_cons.mp member with rfl | member
      · obtain ⟨rest, rfl⟩ := stands.starts
        exact ⟨child, node.id, rest, below, rfl⟩
      · exact ih child directly below member

end Stands

theorem mem_links {link : ScopeLink} : link ∈ m.links ↔
    ∃ node parent rest, m.Stands node (node.id :: parent :: rest) ∧ link = ⟨node.id, parent⟩ := by
  constructor
  · intro member
    obtain ⟨declaration, present, member⟩ := List.mem_flatMap.mp member
    rw [Node.scopeLinks_declaration] at member
    rcases List.mem_cons.mp member with rfl | member
    · exact ⟨.ofDeclaration declaration, m.id, [], .declared present, rfl⟩
    · exact (Stands.declared present).of_mem_links member
  · rintro ⟨node, parent, rest, stands, rfl⟩
    exact stands.link_mem

theorem link_of_parent? {id parent : NodeId} (found : m.scopeTree.parent? id = some parent) :
    ⟨id, parent⟩ ∈ m.links := by
  obtain ⟨link, member, same⟩ := List.mem_map.mp (SortedMap.mem_of_get?_ofList found)
  cases same
  exact member

section Distinct

variable (distinct : m.ids.Nodup)

include distinct

theorem parent?_of_mem_links {link : ScopeLink} (member : link ∈ m.links) :
    m.scopeTree.parent? link.child = some link.parent := by
  obtain ⟨declaration, present, member⟩ := List.mem_flatMap.mp member
  exact parent?_of_link distinct present member

theorem leads_of_stands (stands : m.Stands node path) : m.scopeTree.Leads node.id path := by
  induction stands with
  | root => exact leads_root distinct
  | declared present =>
    exact .step (parent?_of_mem_links distinct (Stands.declared present).link_mem)
      (leads_root distinct)
  | inside above looked member ih =>
    obtain ⟨rest, rfl⟩ := above.starts
    exact .step (parent?_of_mem_links distinct (Stands.inside above looked member).link_mem) ih

theorem contains_iff_stands {id : NodeId} :
    m.scopeTree.contains id = true ↔ ∃ node path, m.Stands node path ∧ node.id = id := by
  have split : m.scopeTree.contains id = true ↔
      id = m.id ∨ (m.scopeTree.parent? id).isSome = true := by
    rw [ScopeTree.contains, Bool.or_eq_true, decide_eq_true_eq]
    rfl
  rw [split, Option.isSome_iff_exists]
  constructor
  · rintro (rfl | ⟨parent, found⟩)
    · exact ⟨_, _, .root, rfl⟩
    · obtain ⟨node, _, _, stands, same⟩ := mem_links.mp (link_of_parent? found)
      exact ⟨node, _, stands, (ScopeLink.mk.inj same).1.symm⟩
  · rintro ⟨node, path, stands, rfl⟩
    obtain ⟨rest, rfl⟩ := stands.starts
    cases rest with
    | nil =>
      -- Only the module itself has a path of one node.
      cases stands with
      | root => exact Or.inl rfl
      | inside above looked member =>
        obtain ⟨_, start⟩ := above.starts
        cases start
    | cons parent rest =>
      exact Or.inr ⟨parent, parent?_of_mem_links distinct stands.link_mem⟩

end Distinct

/-- The scope chain is the syntactic path. Where ids are distinct, the scope tree has the module and
exactly the nodes that stand in it outside of nested modules, and the path from each of them is found:
it goes through what the node stands in up to the module, without repetition. -/
theorem scope_chain_is_syntactic_path (distinct : m.ids.Nodup) :
    (∀ id, m.scopeTree.contains id = true ↔ ∃ node path, m.Stands node path ∧ node.id = id) ∧
    ∀ node path, m.Stands node path → m.scopeTree.path node.id = .ok path ∧ path.Nodup := by
  refine ⟨fun id => contains_iff_stands distinct, fun node path stands => ?_⟩
  have leads := leads_of_stands distinct stands
  exact ⟨leads.path_eq, leads.nodup⟩

/-- From what a let defines in a lambda to the module, with a parameter and a nested module beside. -/
theorem scope_chain_out_of_definition :
    let bound : Expr := .app ⟨8⟩ "g" [.ref ⟨9⟩ "p"]
    let body : Expr := .letIn ⟨6⟩ ⟨7⟩ "y" bound (.ref ⟨10⟩ "y")
    let f : Declaration := .operator ⟨⟨3⟩, "f", .lambda ⟨4⟩ [⟨⟨5⟩, "p"⟩] body⟩
    let n : Declaration := .submodule ⟨11⟩ "N" [.constant ⟨12⟩ "c"]
    let m : Module := ⟨⟨1⟩, "M", [.stateVariable ⟨2⟩ "x", f, n]⟩
    m.ids.Nodup ∧ m.Stands (.ofExpr (.ref ⟨9⟩ "p")) [⟨9⟩, ⟨8⟩, ⟨7⟩, ⟨6⟩, ⟨4⟩, ⟨3⟩, ⟨1⟩] ∧
      m.scopeTree.path ⟨9⟩ = .ok [⟨9⟩, ⟨8⟩, ⟨7⟩, ⟨6⟩, ⟨4⟩, ⟨3⟩, ⟨1⟩] ∧
      m.scopeTree.path ⟨5⟩ = .ok [⟨5⟩, ⟨4⟩, ⟨3⟩, ⟨1⟩] ∧
      m.scopeTree.contains ⟨11⟩ = true ∧ m.scopeTree.contains ⟨12⟩ = false := by
  intro bound body f n m
  have distinct : m.ids.Nodup := by decide
  have lambda : m.Stands (.ofExpr (.lambda ⟨4⟩ [⟨⟨5⟩, "p"⟩] body)) [⟨4⟩, ⟨3⟩, ⟨1⟩] := by
    have operator : m.Stands (.ofDeclaration f) [⟨3⟩, ⟨1⟩] :=
      .declared (List.mem_cons_of_mem _ List.mem_cons_self)
    exact .inside operator rfl List.mem_cons_self
  have param : m.Stands (.ofParam ⟨⟨5⟩, "p"⟩) [⟨5⟩, ⟨4⟩, ⟨3⟩, ⟨1⟩] :=
    .inside lambda rfl List.mem_cons_self
  have letIn : m.Stands (.ofExpr body) [⟨6⟩, ⟨4⟩, ⟨3⟩, ⟨1⟩] :=
    .inside lambda rfl (List.mem_cons_of_mem _ List.mem_cons_self)
  have arg : m.Stands (.ofExpr (.ref ⟨9⟩ "p")) [⟨9⟩, ⟨8⟩, ⟨7⟩, ⟨6⟩, ⟨4⟩, ⟨3⟩, ⟨1⟩] := by
    have definition : m.Stands (.ofDefinition ⟨⟨7⟩, "y", bound⟩) [⟨7⟩, ⟨6⟩, ⟨4⟩, ⟨3⟩, ⟨1⟩] :=
      .inside letIn rfl List.mem_cons_self
    have app : m.Stands (.ofExpr bound) [⟨8⟩, ⟨7⟩, ⟨6⟩, ⟨4⟩, ⟨3⟩, ⟨1⟩] :=
      .inside definition rfl List.mem_cons_self
    exact .inside app rfl List.mem_cons_self
  have nested : m.Stands (.ofDeclaration n) [⟨11⟩, ⟨1⟩] :=
    .declared (List.mem_cons_of_mem _ (List.mem_cons_of_mem _ List.mem_cons_self))
  obtain ⟨contained, paths⟩ := scope_chain_is_syntactic_path distinct
  exact ⟨distinct, arg, (paths _ _ arg).1, (paths _ _ param).1,
    (contained ⟨11⟩).mpr ⟨_, _, nested, rfl⟩, by decide⟩

end Module

end SpecEffects
