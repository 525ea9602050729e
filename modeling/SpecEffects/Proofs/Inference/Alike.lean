import SpecEffects.Proofs.Inference.Lockstep
import SpecEffects.Proofs.Inference.ModuleNames
import SpecEffects.Proofs.Variation

/-!
Expressions that are built alike are inferred in lockstep, wherever this is known of the parts that
are swapped. What has to be seen is that names mean what corresponds: a name that is bound inside
means the definition at the same place of the other expression, and all other names mean what they
mean around the expressions.
-/
namespace SpecEffects

namespace NameTable

variable (table : NameTable)

theorem meaning_append {inner : List NameDefinition} {name : String}
    (absent : ∀ definition ∈ inner, definition.identifier ≠ name) (visible : List NameDefinition) :
    table.meaning (inner ++ visible) name = table.meaning visible name := by
  have nothing : inner.find? (fun definition => definition.identifier = name) = none :=
    List.find?_eq_none.mpr fun definition member => by simpa using absent definition member
  rw [meaning, meaning, List.find?_append, nothing, Option.none_or]

theorem meaning_of_found {inner : List NameDefinition} {name : String} {definition : NameDefinition}
    (found : inner.find? (fun definition => definition.identifier = name) = some definition)
    (visible : List NameDefinition) : table.meaning (inner ++ visible) name = some definition := by
  rw [meaning, List.find?_append, found, Option.some_or, Option.some_or]

end NameTable

namespace Inference

/-- The expression stands where these local definitions are seen, and the table has these definitions
at its nodes. -/
structure Placed (locals : Expr → List NameDefinition) (context : Context)
    (visible : List NameDefinition) (expr : Expr) : Prop where
  names : context.table.Scoped context.scopes visible expr
  own : ∀ node ∈ expr.nodes, context.table.localsAt node.id = locals node

namespace Placed

variable {locals : Expr → List NameDefinition} {context : Context} {visible : List NameDefinition}
  {id defId : NodeId} {name : String}

theorem resolve_ref (placed : Placed locals context visible (.ref id name)) :
    context.resolve name id = .ok (context.table.meaning visible name) := by
  cases placed.names with
  | ref resolved => rw [Context.resolve, resolved]; rfl

theorem resolve_app {args : List Expr} (placed : Placed locals context visible (.app id name args)) :
    context.resolve name id = .ok (context.table.meaning visible name) := by
  cases placed.names with
  | app resolved _ => rw [Context.resolve, resolved]; rfl

theorem arg {args : List Expr} (placed : Placed locals context visible (.app id name args)) {arg : Expr}
    (member : arg ∈ args) : Placed locals context visible arg := by
  cases placed.names with
  | app _ each =>
    refine ⟨each arg member, fun node inside => placed.own node ?_⟩
    rw [Expr.nodes, Expr.nodesOf_eq]
    exact List.mem_cons_of_mem _ (List.mem_flatMap.mpr ⟨arg, member, inside⟩)

theorem lambda_body {params : List Param} {body : Expr}
    (placed : Placed locals context visible (.lambda id params body)) :
    Placed locals context (locals (.lambda id params body) ++ visible) body := by
  have here := placed.own _ (Expr.mem_nodes_self _)
  cases placed.names with
  | lambda inner =>
    refine ⟨here ▸ inner, fun node inside => placed.own node ?_⟩
    rw [Expr.nodes]
    exact List.mem_cons_of_mem _ inside

theorem let_parts {first second : Expr}
    (placed : Placed locals context visible (.letIn id defId name first second)) :
    Placed locals context (locals (.letIn id defId name first second) ++ visible) first ∧
      Placed locals context (locals (.letIn id defId name first second) ++ visible) second := by
  have here := placed.own _ (Expr.mem_nodes_self _)
  cases placed.names with
  | letIn outer inner =>
    refine ⟨⟨here ▸ outer, fun node inside => placed.own node ?_⟩,
      ⟨here ▸ inner, fun node inside => placed.own node ?_⟩⟩
    · simp [Expr.nodes, inside]
    · simp [Expr.nodes, inside]

end Placed

def Link.within (link : Link) (sites : NodeId → NodeId → Prop) : Link := { link with nodes := sites }

structure Link.Refines (link link' : Link) : Prop where
  nodes : ∀ {a b}, link.nodes a b → link'.nodes a b
  holes : ∀ {h h'}, link'.holes h h' ↔ link.holes h h'
  stored : ∀ {h}, link'.watch.stored .effect h → link.watch.stored .effect h
  stored' : ∀ {h}, link'.watch'.stored .effect h → link.watch'.stored .effect h
  watched : ∀ {site}, link.watch.nodes site → link'.watch.nodes site ∧
    link'.watch.past.effects.get? site = link.watch.past.effects.get? site
  watched' : ∀ {site}, link.watch'.nodes site → link'.watch'.nodes site ∧
    link'.watch'.past.effects.get? site = link.watch'.past.effects.get? site

section Refines

variable {link link' : Link} {sites : NodeId → NodeId → Prop}

theorem Link.within_refines (part : ∀ {a b}, sites a b → link.nodes a b) :
    (link.within sites).Refines link :=
  ⟨part, Iff.rfl, id, id, fun watched => ⟨watched, rfl⟩, fun watched => ⟨watched, rfl⟩⟩

theorem Link.Proper.within (proper : link.Proper) (part : ∀ {a b}, sites a b → link.nodes a b) :
    (link.within sites).Proper :=
  ⟨fun pair pair' => proper.left (part pair) (part pair'),
    fun pair pair' => proper.right (part pair) (part pair'), proper.marked, proper.holes_left,
    proper.holes_right, proper.watch, proper.watch', proper.free, proper.free'⟩

variable (refines : link.Refines link')

include refines

theorem Link.Refines.akin {effect? effect?' : Option Effect} (akin : link.Akin effect? effect?') :
    link'.Akin effect? effect?' := by
  cases akin with
  | none => exact .none
  | some same =>
    obtain ⟨τ, renamed, canonical, separate, injective, each⟩ := same
    refine .some ⟨τ, renamed, canonical, separate, injective, fun used => ?_⟩
    refine (each used).imp refines.holes.mpr fun quiet => ?_
    exact ⟨fun k' hole => quiet.left k' (refines.holes.mp hole),
      fun k hole => quiet.right k (refines.holes.mp hole),
      fun marked stored => quiet.stored marked (refines.stored stored),
      fun marked stored => quiet.stored' marked (refines.stored' stored)⟩
  | mixed mixed => exact .mixed mixed

theorem Link.Refines.agree {context context' : Context} {name : String}
    {definition? definition?' : Option NameDefinition}
    (agree : Agree link context context' name definition? definition?') :
    Agree link' context context' name definition? definition?' := by
  cases agree with
  | builtin means means' signatures =>
    exact .builtin means means' fun arity => refines.akin (signatures arity)
  | constant kind kind' => exact .constant kind kind'
  | stateVariable kind kind' => exact .stateVariable kind kind'
  | parameter kind kind' reference reference' linked =>
    exact .parameter kind kind' reference reference' (refines.nodes linked)
  | operator kind kind' reference reference' linked =>
    exact .operator kind kind' reference reference' (refines.nodes linked)
  | watched kind kind' reference reference' watched watched' akin =>
    obtain ⟨held, same⟩ := refines.watched watched
    obtain ⟨held', same'⟩ := refines.watched' watched'
    exact .watched kind kind' reference reference' held held' (by
      rw [same, same']
      exact refines.akin akin)
  | astray kind reference => exact .astray kind reference

end Refines

/-- Names that are kept mean what corresponds, and names that have not been bound since the start mean
what they meant there. The binding sites are among these linked nodes. -/
structure Views (link : Link) (sites : NodeId → NodeId → Prop) (context context' : Context)
    (keeps : List String → String → Prop) (start start' : List NameDefinition) (bound : List String)
    (visible visible' : List NameDefinition) : Prop where
  sees : ∀ {name}, keeps bound name → Agree (link.within sites) context context' name
    (context.table.meaning visible name) (context'.table.meaning visible' name)
  outer : ∀ {name}, name ∉ bound →
    context.table.meaning visible name = context.table.meaning start name
  outer' : ∀ {name}, name ∉ bound →
    context'.table.meaning visible' name = context'.table.meaning start' name

inductive Binds (sites : NodeId → NodeId → Prop) : List String → Expr → Expr → Prop
  | lambda {id id' : NodeId} {params params' : List Param} {body body' : Expr}
    (same : List.Forall₂ (fun param param' => sites param.id param'.id ∧ param'.name = param.name)
      params params') :
    Binds sites (params.map Param.name) (.lambda id params body) (.lambda id' params' body')
  | letIn {id id' defId defId' : NodeId} {name : String} {first first' second second' : Expr}
    (linked : sites defId defId') :
    Binds sites [name] (.letIn id defId name first second) (.letIn id' defId' name first' second')

def Opens (link : Link) (sites : NodeId → NodeId → Prop) (context context' : Context)
    (keeps : List String → String → Prop) (start start' : List NameDefinition)
    (locals : Expr → List NameDefinition) : Prop :=
  ∀ ⦃names node node' bound visible visible'⦄, Binds sites names node node' →
    Views link sites context context' keeps start start' bound visible visible' →
    Views link sites context context' keeps start start' (names ++ bound) (locals node ++ visible)
      (locals node' ++ visible')

variable {link : Link} {sites : NodeId → NodeId → Prop} {context context' : Context}
  {keeps : List String → String → Prop} {start start' : List NameDefinition}
  {locals : Expr → List NameDefinition} {bound : List String}
  {visible visible' : List NameDefinition}

theorem Binds.agree {names : List String} {node node' : Expr} (binds : Binds sites names node node') :
    node.binders.map NameDefinition.identifier = names ∧
    node'.binders.map NameDefinition.identifier = names ∧
    ∀ name ∈ names, ∃ definition definition',
      node.binders.find? (fun definition => definition.identifier = name) = some definition ∧
      node'.binders.find? (fun definition => definition.identifier = name) = some definition' ∧
      Agree (link.within sites) context context' name (some definition) (some definition') := by
  cases binds with
  | @lambda id id' params params' body body' same =>
    have names_eq : params'.map Param.name = params.map Param.name := by
      induction same with
      | nil => rfl
      | cons head _ ih => rw [List.map_cons, List.map_cons, head.2, ih]
    refine ⟨by simp [Expr.binders], by simp [Expr.binders, ← names_eq], fun name member => ?_⟩
    clear names_eq
    induction same with
    | nil => cases member
    | @cons param param' rest rest' head _ ih =>
      simp only [Expr.binders, List.map_cons, List.find?_cons, head.2]
      by_cases first : param.name = name
      · refine ⟨_, _, by simp [first]; rfl, by simp [first]; rfl, ?_⟩
        exact .parameter rfl rfl rfl rfl head.1
      · have later := (List.mem_cons.mp member).resolve_left fun eq => first eq.symm
        simpa [first, Expr.binders] using ih later
  | letIn linked =>
    refine ⟨rfl, rfl, fun name member => ?_⟩
    cases List.mem_singleton.mp member
    exact ⟨_, _, by simp [Expr.binders]; rfl, by simp [Expr.binders]; rfl,
      .operator rfl rfl rfl rfl linked⟩

theorem opens_own
    (narrows : ∀ {names bound name}, keeps (names ++ bound) name → name ∉ names → keeps bound name) :
    Opens link sites context context' keeps start start' Expr.binders := by
  intro names node node' bound visible visible' binds views
  obtain ⟨names_eq, names_eq', each⟩ : _ ∧ _ ∧ ∀ name ∈ names, ∃ definition definition',
      _ ∧ _ ∧ Agree (link.within sites) context context' name (some definition) (some definition') :=
    binds.agree
  have absent : ∀ {node : Expr} {name}, node.binders.map NameDefinition.identifier = names →
      name ∉ names → ∀ definition ∈ node.binders, definition.identifier ≠ name := by
    intro node name same own definition member eq
    exact own (eq ▸ same ▸ List.mem_map_of_mem member)
  refine ⟨fun {name} kept => ?_, fun {name} free => ?_, fun {name} free => ?_⟩
  · by_cases own : name ∈ names
    · obtain ⟨definition, definition', found, found', agree⟩ := each name own
      rw [context.table.meaning_of_found found, context'.table.meaning_of_found found']
      exact agree
    · rw [context.table.meaning_append (absent names_eq own),
        context'.table.meaning_append (absent names_eq' own)]
      exact views.sees (narrows kept own)
  · rw [List.mem_append, not_or] at free
    rw [context.table.meaning_append (absent names_eq free.1)]
    exact views.outer free.2
  · rw [List.mem_append, not_or] at free
    rw [context'.table.meaning_append (absent names_eq' free.1)]
    exact views.outer' free.2

/-- In the table of another module, nothing that nodes introduce is seen. -/
theorem opens_foreign (all : ∀ bound name, keeps bound name) :
    Opens link sites context context' keeps start start' fun _ => [] := by
  intro names node node' bound visible visible' _ views
  refine ⟨fun {name} _ => views.sees (all bound name), fun free => ?_, fun free => ?_⟩
  · exact views.outer fun inside => free (List.mem_append_right _ inside)
  · exact views.outer' fun inside => free (List.mem_append_right _ inside)

/-- The nodes of an expression are linked and can be binding sites, and the placeholders of its
lambdas are linked as well. -/
structure Covers (link : Link) (sites links : NodeId → NodeId → Prop) : Prop where
  joins : ∀ {id id'}, links id id' → link.Joins id id'
  holes : ∀ {id id'} (param : String), links id id' →
    link.holes (placeholder param id) (placeholder param id')
  firm : ∀ {id id'}, links id id' → sites id id'
  part : ∀ {id id'}, sites id id' → link.nodes id id'

theorem arg_ids_sublist {id : NodeId} {operator : String} {args : List Expr} {arg : Expr}
    (member : arg ∈ args) : arg.ids.Sublist (Expr.app id operator args).ids := by
  rw [Expr.ids_app]
  exact (List.sublist_flatten_of_mem (List.mem_map_of_mem member)).cons _

def Handles (link : Link) (sites : NodeId → NodeId → Prop) (close : Prop) (context context' : Context)
    (keeps : List String → String → Prop) (swaps : List String → Expr → Expr → Prop)
    (start start' : List NameDefinition) (locals : Expr → List NameDefinition) : Prop :=
  ∀ ⦃bound visible visible' old new⦄, swaps bound old new →
    Views link sites context context' keeps start start' bound visible visible' →
    Placed locals context visible old → Placed locals context' visible' new →
    (close → Tractable context context' old.ids new.ids) →
    link.nodes old.id new.id ∧ Simulates link close context context' old new

theorem simulates_alike {links : NodeId → NodeId → Prop}
    {swaps : List String → Expr → Expr → Prop} {close : Prop} (proper : link.Proper)
    (alert : link.alert) (covers : Covers link sites links)
    (opens : Opens link sites context context' keeps start start' locals)
    (handles : Handles link sites close context context' keeps swaps start start' locals)
    {expr expr' : Expr} (alike : Expr.Alike links keeps swaps bound expr expr')
    (views : Views link sites context context' keeps start start' bound visible visible')
    (placed : Placed locals context visible expr) (placed' : Placed locals context' visible' expr')
    (tractable : close → Tractable context context' expr.ids expr'.ids) :
    link.nodes expr.id expr'.id ∧ Simulates link close context context' expr expr' := by
  have refines : (link.within sites).Refines link := Link.within_refines covers.part
  induction alike generalizing visible visible' with
  | literal linked value =>
    have joins := covers.joins linked
    exact ⟨joins.linked, simulates_literal proper joins value value⟩
  | ref linked kept =>
    have joins := covers.joins linked
    refine ⟨joins.linked, simulates_ref proper joins fun definition? resolved => ?_⟩
    cases placed.resolve_ref.symm.trans resolved
    exact ⟨_, placed'.resolve_ref, refines.agree (views.sees kept)⟩
  | app linked kept length each ih =>
    have joins := covers.joins linked
    have parts := fun {arg arg'} member => ih arg arg' member views
      (placed.arg (List.of_mem_zip member).1) (placed'.arg (List.of_mem_zip member).2)
      fun h => (tractable h).part (arg_ids_sublist (List.of_mem_zip member).1)
        (arg_ids_sublist (List.of_mem_zip member).2)
    refine ⟨joins.linked, simulates_app proper joins (fun definition? resolved => ?_) tractable
      (List.forall₂_iff_zip.mpr ⟨length, fun member => (parts member).1⟩)
      (List.forall₂_iff_zip.mpr ⟨length, fun member => (parts member).2⟩)⟩
    cases placed.resolve_app.symm.trans resolved
    exact ⟨_, placed'.resolve_app, refines.agree (views.sees kept)⟩
  | @lambda bound id id' params params' body body' linked same inner ih =>
    have joins := covers.joins linked
    have binds : Binds sites (params.map Param.name) (.lambda id params body)
        (.lambda id' params' body') := .lambda (same.imp fun _ _ both => ⟨covers.firm both.1, both.2⟩)
    obtain ⟨linked_body, simulates⟩ := ih (opens binds views) placed.lambda_body placed'.lambda_body
      fun h => (tractable h).part
        (by rw [Expr.ids_lambda]; exact (List.sublist_append_right _ _).cons _)
        (by rw [Expr.ids_lambda]; exact (List.sublist_append_right _ _).cons _)
    refine ⟨joins.linked, simulates_lambda proper joins tractable (same.imp fun param param' both => ?_)
      linked_body simulates⟩
    exact ⟨covers.joins both.1, both.2 ▸ covers.holes param.name linked⟩
  | @letIn bound id id' defId defId' name first first' second second' linked linked_def _ _ ih ih' =>
    have joins := covers.joins linked
    have binds : Binds sites [name] (.letIn id defId name first second)
        (.letIn id' defId' name first' second') := .letIn (covers.firm linked_def)
    have inside := opens binds views
    obtain ⟨linked_first, simulates⟩ := ih inside placed.let_parts.1 placed'.let_parts.1
      fun h => (tractable h).part
        (by rw [Expr.ids_letIn]; exact ((List.sublist_append_left _ _).cons _).cons _)
        (by rw [Expr.ids_letIn]; exact ((List.sublist_append_left _ _).cons _).cons _)
    obtain ⟨linked_second, simulates'⟩ := ih' inside placed.let_parts.2 placed'.let_parts.2
      fun h => (tractable h).part
        (by rw [Expr.ids_letIn]; exact ((List.sublist_append_right _ _).cons _).cons _)
        (by rw [Expr.ids_letIn]; exact ((List.sublist_append_right _ _).cons _).cons _)
    exact ⟨joins.linked, simulates_letIn proper joins alert (covers.joins linked_def) tractable
      linked_first linked_second simulates simulates'⟩
  | swap swapped => exact handles swapped views placed placed' tractable

/-- The same effect up to a renaming, or none. -/
inductive Matching : Option Effect → Option Effect → Prop
  | none : Matching none none
  | some {effect : Effect} {τ : String → String} (canonical : effect.Canonical)
    (separate : (Vocabulary.usedIn [effect]).Separate)
    (injective : (Vocabulary.usedIn [effect]).Injective τ) :
    Matching (some effect) (some (effect.rename τ))

def Spares (effect? : Option Effect) (names : String → Prop) : Prop :=
  ∀ ⦃effect⦄, effect? = some effect → ∀ ⦃name⦄, effect.Uses .effect name →
    isPlaceholder name = true → ¬ names name

theorem akin_of_matching (proper : link.Proper) {effect? effect?' : Option Effect}
    (same : Matching effect? effect?')
    (apart : Spares effect? fun name => (∃ h', link.holes name h') ∨ link.watch.stored .effect name)
    (apart' : Spares effect?' fun name => (∃ h, link.holes h name) ∨ link.watch'.stored .effect name) :
    link.Akin effect? effect?' := by
  cases same with
  | none => exact .none
  | @some effect τ canonical separate injective =>
    refine .some ⟨τ, rfl, canonical, separate, injective, fun {name} used => Or.inr ?_⟩
    have used' : (effect.rename τ).Uses .effect (τ name) := Effect.uses_rename.mpr ⟨name, used, rfl⟩
    exact ⟨fun h' hole => apart rfl used (proper.marked hole).1 (Or.inl ⟨h', hole⟩),
      fun h hole => apart' rfl used' (proper.marked hole).2 (Or.inl ⟨h, hole⟩),
      fun marked stored => apart rfl used marked (Or.inr stored),
      fun marked stored => apart' rfl used' marked (Or.inr stored)⟩

theorem akin_builtin (proper : link.Proper) {signatures : SignatureTable} (plain : Plain signatures)
    (name : String) (arity : Nat) :
    link.Akin (signatures.signature? name arity) (signatures.signature? name arity) := by
  cases found : signatures.signature? name arity with
  | none => exact .none
  | some effect =>
    by_cases separate : (Vocabulary.usedIn [effect]).Separate
    case neg => exact .mixed separate
    obtain ⟨canonical, unmarked⟩ := plain found
    have unplaced : ∀ names, Spares (some effect) names := by
      intro names other_effect same other used marked
      cases same
      cases (unmarked other used).symm.trans marked
    have same := Matching.some canonical separate (Vocabulary.injective_id _)
    rw [Effect.rename_id canonical] at same
    exact akin_of_matching proper same (unplaced _) (unplaced _)

structure HeadsMatch (link : Link) (heads : NodeId → Prop) : Prop where
  watched : ∀ {site}, heads site → link.watch.nodes site ∧ link.watch'.nodes site
  same : ∀ {site}, heads site →
    Matching (link.watch.past.effects.get? site) (link.watch'.past.effects.get? site)
  apart : ∀ {site}, heads site → Spares (link.watch.past.effects.get? site) fun name =>
    (∃ h', link.holes name h') ∨ link.watch.stored .effect name
  apart' : ∀ {site}, heads site → Spares (link.watch'.past.effects.get? site) fun name =>
    (∃ h, link.holes h name) ∨ link.watch'.stored .effect name

/-- Both contexts have the same builtins and the same definitions without a scope, with the same
definitions in front of these. -/
structure SameGlobals (context context' : Context) (start : List NameDefinition)
    (heads : NodeId → Prop) : Prop where
  signatures : context'.signatures = context.signatures
  plain : Plain context.signatures
  meaning : ∀ name, context'.table.meaning start name = context.table.meaning start name
  kind : ∀ {name definition}, context.table.meaning start name = some definition →
    definition.kind ≠ .parameter
  listed : ∀ {name definition site}, context.table.meaning start name = some definition →
    definition.kind = .operator → definition.reference = some site → heads site

section Self

variable {heads : NodeId → Prop} (globals : SameGlobals context context' start heads)

include globals

theorem SameGlobals.self : SameGlobals context context start heads :=
  ⟨rfl, globals.plain, fun _ => rfl, globals.kind, globals.listed⟩

theorem SameGlobals.self' : SameGlobals context' context' start heads where
  signatures := rfl
  plain := by
    rw [globals.signatures]
    exact globals.plain
  meaning _ := rfl
  kind means := globals.kind (globals.meaning _ ▸ means)
  listed means := globals.listed (globals.meaning _ ▸ means)

end Self

theorem SameGlobals.bind {heads : NodeId → Prop} (globals : SameGlobals context context' start heads)
    (letId site : NodeId) (name : String) :
    SameGlobals context context' (⟨.operator, name, some site, some letId⟩ :: start)
      fun id => heads id ∨ id = site := by
  let bound : NameDefinition := ⟨.operator, name, some site, some letId⟩
  have own (table : NameTable) : table.meaning (bound :: start) name = some bound := by
    have found : [bound].find? (fun definition => definition.identifier = name) = some bound := by
      simp [bound]
    exact table.meaning_of_found found start
  have other (table : NameTable) {used : String} (different : used ≠ name) :
      table.meaning (bound :: start) used = table.meaning start used := by
    have absent : ∀ definition ∈ [bound], definition.identifier ≠ used := by
      simpa [bound] using Ne.symm different
    exact table.meaning_append absent start
  refine ⟨globals.signatures, globals.plain, fun used => ?_, fun {used definition} means => ?_,
    fun {used definition site'} means kind reference => ?_⟩
  · by_cases same : used = name
    · rw [same, own, own]
    · rw [other _ same, other _ same, globals.meaning]
  · by_cases same : used = name
    · rw [same, own] at means
      cases means
      intro same
      cases same
    · exact globals.kind (other _ same ▸ means)
  · by_cases same : used = name
    · rw [same, own] at means
      cases means
      cases reference
      exact Or.inr rfl
    · exact Or.inl (globals.listed (other _ same ▸ means) kind reference)

theorem SameGlobals.agree {heads : NodeId → Prop} (globals : SameGlobals context context' start heads)
    (proper : link.Proper) (matched : HeadsMatch link heads) (name : String) :
    Agree link context context' name (context.table.meaning start name)
      (context'.table.meaning start name) := by
  rw [globals.meaning]
  refine agree_same (fun arity => globals.signatures ▸ akin_builtin proper globals.plain name arity)
    (fun found kind _ => absurd kind (globals.kind found)) fun found kind reference => Or.inr ?_
  have head := globals.listed found kind reference
  exact ⟨(matched.watched head).1, (matched.watched head).2,
    akin_of_matching proper (matched.same head) (matched.apart head) (matched.apart' head)⟩

end Inference

end SpecEffects
