import SpecEffects.Proofs.Inference.Totality

/-!
What becomes of every node. No node has both an effect and an error. What has an effect has been
inferred as a whole. What has neither has an error below it, or it contains a let that inference came
to after an error. Without errors every expression, parameter and definition has an effect.
-/
namespace SpecEffects

namespace Expr

def parts : Expr → List Expr
  | .app _ _ args => args
  | .lambda _ _ body => [body]
  | .letIn _ _ _ bound body => [bound, body]
  | _ => []

def innerNodes (expr : Expr) : List Expr := expr.parts.flatMap nodes

def isLet : Expr → Bool
  | .letIn _ _ _ _ _ => true
  | _ => false

def params : Expr → List Param
  | .lambda _ params _ => params
  | _ => []

def definition? : Expr → Option Definition
  | .letIn _ defId name bound _ => some ⟨defId, name, bound⟩
  | _ => none

theorem nodes_eq (expr : Expr) : expr.nodes = expr :: expr.innerNodes := by
  cases expr <;> simp [nodes, innerNodes, parts, nodesOf_eq]

theorem ids_eq (expr : Expr) : expr.ids = expr.ownIds ++ expr.parts.flatMap ids := by
  rw [ids, nodes_eq, List.flatMap_cons, innerNodes, List.flatMap_assoc]
  rfl

theorem mem_ownIds {expr : Expr} {id : NodeId} : id ∈ expr.ownIds ↔
    id = expr.id ∨ (∃ param ∈ expr.params, param.id = id) ∨
      ∃ definition, expr.definition? = some definition ∧ definition.id = id := by
  cases expr <;> simp [ownIds, Expr.id, params, definition?, eq_comm]

theorem of_definition? {expr : Expr} {definition : Definition}
    (defines : expr.definition? = some definition) :
    definition.id ∈ expr.ownIds ∧ definition.body ∈ expr.parts := by
  cases expr <;> cases defines
  simp [ownIds, parts]

theorem part_nodes_subset {expr part : Expr} (member : part ∈ expr.parts) :
    part.nodes ⊆ expr.innerNodes :=
  fun _ inside => List.mem_flatMap.mpr ⟨part, member, inside⟩

theorem innerNodes_subset (expr : Expr) : expr.innerNodes ⊆ expr.nodes := by
  rw [nodes_eq]
  exact List.subset_cons_self _ _

theorem induct_parts {motive : Expr → Prop}
    (step : ∀ expr, (∀ part ∈ expr.parts, motive part) → motive expr) (expr : Expr) :
    motive expr := by
  induction expr with
  | literal id value => exact step _ nofun
  | ref id name => exact step _ nofun
  | app id operator args ih => exact step _ ih
  | lambda id params body ih => exact step _ (List.forall_mem_singleton.mpr ih)
  | letIn id defId name bound body ih ih' =>
    exact step _ (List.forall_mem_cons.mpr ⟨ih, List.forall_mem_singleton.mpr ih'⟩)

theorem nodes_subset {expr node : Expr} (member : node ∈ expr.nodes) : node.nodes ⊆ expr.nodes := by
  induction expr using induct_parts with
  | step expr ih =>
    have whole := member
    rw [nodes_eq] at member
    rcases List.mem_cons.mp member with rfl | inside
    · exact List.Subset.refl _
    · obtain ⟨part, among, inside⟩ := List.mem_flatMap.mp inside
      exact List.Subset.trans (ih part among inside)
        (List.Subset.trans (part_nodes_subset among) expr.innerNodes_subset)

theorem node_ids_subset {expr node : Expr} (member : node ∈ expr.nodes) : node.ids ⊆ expr.ids := by
  intro id inside
  obtain ⟨inner, member', own⟩ := List.mem_flatMap.mp inside
  exact ownIds_subset (nodes_subset member member') own

theorem node_id_mem_ids {expr node : Expr} (member : node ∈ expr.nodes) : node.id ∈ expr.ids :=
  ownIds_subset member node.id_mem_ownIds

theorem own_not_mem_parts {expr : Expr} (nodup : expr.ids.Nodup) {id : NodeId}
    (own : id ∈ expr.ownIds) : id ∉ expr.parts.flatMap ids := by
  rw [ids_eq] at nodup
  exact (List.nodup_append'.mp nodup).2.2 own

theorem nodeIds_subset (expr : Expr) : expr.nodes.map Expr.id ⊆ expr.ids := by
  intro id inside
  obtain ⟨node, member, rfl⟩ := List.mem_map.mp inside
  exact node_id_mem_ids member

theorem nodeIds_flatMap_subset (exprs : List Expr) :
    (exprs.flatMap nodes).map Expr.id ⊆ exprs.flatMap ids := by
  intro id inside
  obtain ⟨node, member, rfl⟩ := List.mem_map.mp inside
  obtain ⟨expr, among, member⟩ := List.mem_flatMap.mp member
  exact List.mem_flatMap.mpr ⟨expr, among, node_id_mem_ids member⟩

end Expr

namespace Declaration

def definition? : Declaration → Option Definition
  | .operator definition => some definition
  | _ => none

theorem expr?_of_definition? {declaration : Declaration} {definition : Definition}
    (defines : declaration.definition? = some definition) :
    declaration.expr? = some definition.body := by
  cases declaration <;> cases defines
  rfl

def annotatedIds (declaration : Declaration) : List NodeId :=
  (declaration.definition?.map Definition.id).toList ++ declaration.expr?.elim [] Expr.ids

theorem annotatedIds_subset (declaration : Declaration) :
    declaration.annotatedIds ⊆ declaration.ownIds := by
  cases declaration <;> simp [annotatedIds, ownIds, definition?, expr?, Declaration.id]

theorem nodeIds_subset (declaration : Declaration) :
    declaration.nodes.map Expr.id ⊆ declaration.annotatedIds := by
  intro id inside
  obtain ⟨node, member, rfl⟩ := List.mem_map.mp inside
  refine List.mem_append_right _ ?_
  unfold nodes at member
  cases holds : declaration.expr? with
  | none =>
    rw [holds] at member
    cases member
  | some expr =>
    rw [holds] at member
    exact Expr.node_id_mem_ids member

theorem expr_ids_subset {declaration : Declaration} {expr : Expr}
    (holds : declaration.expr? = some expr) : expr.ids ⊆ declaration.annotatedIds := by
  rw [annotatedIds, holds]
  exact List.subset_append_right _ _

end Declaration

namespace Inference

inductive Enters (context : Context) (target : Expr) (entry : State) : State → Expr → Prop
  | here : Enters context target entry entry target
  | arg {state middle : State} {id : NodeId} {operator : String} {before rest : List Expr}
    {arg : Expr} (early : inferExprs context state before = .ok middle)
    (inside : Enters context target entry middle arg) :
    Enters context target entry state (.app id operator (before ++ arg :: rest))
  | lambda {state : State} {id : NodeId} {params : List Param} {body : Expr}
    (inside : Enters context target entry (state.openLambda id params) body) :
    Enters context target entry state (.lambda id params body)
  | bound {state : State} {id defId : NodeId} {name : String} {bound body : Expr}
    (inside : Enters context target entry state bound) :
    Enters context target entry state (.letIn id defId name bound body)
  | body {state middle : State} {id defId : NodeId} {name : String} {bound body : Expr}
    (early : inferExpr context state bound = .ok middle)
    (inside : Enters context target entry (middle.copyEffect defId bound.id) body) :
    Enters context target entry state (.letIn id defId name bound body)

/-- One of the first expressions has an error, or one of the second is a let that inference came to
after an error. -/
def Excused (Reached : Expr → State → Prop) (state : State) (exprs others : List Expr) : Prop :=
  (∃ inner ∈ exprs, state.Failed inner.id) ∨
    ∃ inner ∈ others, inner.isLet ∧ ∃ entry, Reached inner entry ∧ entry.errors.isEmpty = false

structure Judged (Reached : Expr → State → Prop) (state : State) (expr : Expr) : Prop where
  exclusive : ∀ id ∈ expr.ids, state.Known id → ¬ state.Failed id
  complete : ∀ node ∈ expr.nodes, state.Known node.id → ∀ id ∈ node.ids, state.Known id
  excused : ∀ node ∈ expr.nodes, ¬ state.Known node.id → ¬ state.Failed node.id →
    Excused Reached state node.innerNodes node.nodes
  defined : ∀ node ∈ expr.nodes, ∀ definition, node.definition? = some definition →
    ¬ state.Known definition.id →
      Excused Reached state definition.body.nodes definition.body.nodes

section Judgements

variable {Reached : Expr → State → Prop} {state after : State} {expr : Expr}

theorem Excused.mono {exprs exprs' others others' : List Expr}
    (excused : Excused Reached state exprs others) (more : exprs ⊆ exprs')
    (more' : others ⊆ others') : Excused Reached state exprs' others' := by
  rcases excused with ⟨inner, member, failed⟩ | ⟨inner, member, late⟩
  · exact .inl ⟨inner, more member, failed⟩
  · exact .inr ⟨inner, more' member, late⟩

theorem Excused.later {exprs others : List Expr} (excused : Excused Reached state exprs others)
    (failed : ∀ id, state.Failed id → after.Failed id) : Excused Reached after exprs others :=
  excused.imp_left fun ⟨inner, member, wrong⟩ => ⟨inner, member, failed _ wrong⟩

theorem Judged.excuses (judged : Judged Reached state expr) (unknown : ¬ state.Known expr.id) :
    Excused Reached state expr.nodes expr.nodes := by
  by_cases failed : state.Failed expr.id
  · exact .inl ⟨expr, expr.mem_nodes_self, failed⟩
  · exact (judged.excused expr expr.mem_nodes_self unknown failed).mono expr.innerNodes_subset
      (List.Subset.refl _)

theorem Judged.congr (judged : Judged Reached state expr)
    (same : ∀ id ∈ expr.ids, (after.Known id ↔ state.Known id) ∧ (after.Failed id ↔ state.Failed id)) :
    Judged Reached after expr := by
  have excused : ∀ {exprs others}, exprs ⊆ expr.nodes → Excused Reached state exprs others →
      Excused Reached after exprs others := by
    rintro exprs others part (⟨inner, member, failed⟩ | late)
    · exact .inl ⟨inner, member, (same _ (Expr.node_id_mem_ids (part member))).2.mpr failed⟩
    · exact .inr late
  refine ⟨fun id inside known failed => ?_, fun node member known id inside => ?_,
    fun node member unknown unfailed => ?_, fun node member definition defines unknown => ?_⟩
  · exact judged.exclusive id inside ((same id inside).1.mp known) ((same id inside).2.mp failed)
  · exact (same id (Expr.node_ids_subset member inside)).1.mpr (judged.complete node member
      ((same _ (Expr.node_id_mem_ids member)).1.mp known) id inside)
  · have own := same _ (Expr.node_id_mem_ids member)
    refine excused (List.Subset.trans node.innerNodes_subset (Expr.nodes_subset member)) ?_
    exact judged.excused node member (fun known => unknown (own.1.mpr known))
      fun failed => unfailed (own.2.mpr failed)
  · obtain ⟨own, body⟩ := Expr.of_definition? defines
    refine excused (List.Subset.trans (Expr.part_nodes_subset body)
      (List.Subset.trans node.innerNodes_subset (Expr.nodes_subset member))) ?_
    exact judged.defined node member definition defines fun known =>
      unknown ((same _ (Expr.ownIds_subset member own)).1.mpr known)

theorem Judged.of_parts (each : ∀ part ∈ expr.parts, Judged Reached state part)
    (own : ∀ id ∈ expr.ownIds, state.Known id → ¬ state.Failed id)
    (whole : state.Known expr.id →
      (∀ id ∈ expr.ownIds, state.Known id) ∧ ∀ part ∈ expr.parts, state.Known part.id)
    (excused : ¬ state.Known expr.id → ¬ state.Failed expr.id →
      Excused Reached state expr.innerNodes expr.nodes)
    (defined : ∀ definition, expr.definition? = some definition → ¬ state.Known definition.id →
      Excused Reached state definition.body.nodes definition.body.nodes) :
    Judged Reached state expr := by
  have split : ∀ {P : Expr → Prop}, P expr → (∀ part ∈ expr.parts, ∀ node ∈ part.nodes, P node) →
      ∀ node ∈ expr.nodes, P node := by
    intro P here deeper node member
    rw [Expr.nodes_eq] at member
    rcases List.mem_cons.mp member with rfl | member
    · exact here
    · obtain ⟨part, among, inside⟩ := List.mem_flatMap.mp member
      exact deeper part among node inside
  refine ⟨fun id inside => ?_, split (fun known id inside => ?_) fun part among =>
    (each part among).complete, split excused fun part among => (each part among).excused,
    split defined fun part among => (each part among).defined⟩
  · rw [Expr.ids_eq] at inside
    rcases List.mem_append.mp inside with here | inside
    · exact own id here
    · obtain ⟨part, among, inside⟩ := List.mem_flatMap.mp inside
      exact (each part among).exclusive id inside
  · rw [Expr.ids_eq] at inside
    rcases List.mem_append.mp inside with here | inside
    · exact (whole known).1 id here
    · obtain ⟨part, among, inside⟩ := List.mem_flatMap.mp inside
      exact (each part among).complete part part.mem_nodes_self ((whole known).2 part among) id inside

end Judgements

def Untouched (ids : List NodeId) (state : State) : Prop :=
  ∀ id ∈ ids, ¬ state.Known id ∧ ¬ state.Failed id

theorem Untouched.adds {ids effects errors : List NodeId} {state after : State}
    (untouched : Untouched ids state) (adds : Adds effects errors state after)
    (part : errors ⊆ effects) (apart : ∀ id ∈ ids, id ∉ effects) : Untouched ids after := by
  intro id member
  obtain ⟨known, failed⟩ := adds.same part (apart id member)
  rw [known, failed]
  exact untouched id member

structure Judgement (Reached : Expr → State → Prop) (state after : State) (expr : Expr) : Prop where
  adds : Adds expr.ids (expr.nodes.map Expr.id) state after
  judged : Judged Reached after expr
  clean : after.errors.isEmpty = true → after.Known expr.id

def Judges (context : Context) (expr : Expr) : Prop :=
  ∀ ⦃Reached state after⦄,
    (∀ inner entry, Enters context inner entry state expr → Reached inner entry) →
    expr.ids.Nodup → Untouched expr.ids state → inferExpr context state expr = .ok after →
    Judgement Reached state after expr

section Expressions

variable {Reached : Expr → State → Prop} {context : Context} {state after : State}

theorem Judgement.of_leaf {expr : Expr} (decides : Decides expr.id state after)
    (own : expr.ownIds = [expr.id]) (leaf : expr.parts = [])
    (untouched : Untouched expr.ids state) : Judgement Reached state after expr := by
  have ids : expr.ids = [expr.id] := by rw [Expr.ids_eq, own, leaf]; rfl
  have nodes : expr.nodes = [expr] := by rw [Expr.nodes_eq, Expr.innerNodes, leaf]; rfl
  obtain ⟨unknown, unfailed⟩ := untouched expr.id expr.id_mem_ids
  have decided := decides.decided unknown unfailed
  refine ⟨by rw [ids, nodes]; exact decides.toAdds, .of_parts ?_ ?_ ?_ ?_ ?_, fun calm => ?_⟩
  · rw [leaf]
    exact nofun
  · rw [own, List.forall_mem_singleton]
    grind
  · rw [own, leaf, List.forall_mem_singleton]
    exact fun known => ⟨known, nofun⟩
  · grind
  · intro definition defines
    have body := (Expr.of_definition? defines).2
    rw [leaf] at body
    cases body
  · have calm := SortedMap.isEmpty_iff.mp calm expr.id
    exact (decided.resolve_right fun failed => calm failed.2).1

theorem judgements_of_args {args : List Expr} (each : ∀ arg ∈ args, Judges context arg)
    (reached : ∀ before arg rest middle, args = before ++ arg :: rest →
      inferExprs context state before = .ok middle →
      ∀ inner entry, Enters context inner entry middle arg → Reached inner entry)
    (nodup : (args.flatMap Expr.ids).Nodup) (untouched : Untouched (args.flatMap Expr.ids) state)
    (run : inferExprs context state args = .ok after) :
    Adds (args.flatMap Expr.ids) ((args.flatMap Expr.nodes).map Expr.id) state after ∧
      ∀ arg ∈ args, Judged Reached after arg ∧
        (after.errors.isEmpty = true → after.Known arg.id) := by
  induction args generalizing state with
  | nil =>
    cases run
    exact ⟨.refl _, nofun⟩
  | cons arg rest ih =>
    simp only [inferExprs, bind_eq_ok] at run
    obtain ⟨middle, first, later⟩ := run
    rw [List.flatMap_cons] at nodup untouched
    obtain ⟨nodup_arg, nodup_rest, disjoint⟩ := List.nodup_append'.mp nodup
    obtain ⟨adds, judged, clean⟩ := each arg List.mem_cons_self
      (reached [] arg rest state rfl rfl) nodup_arg
      (fun id inside => untouched id (List.mem_append_left _ inside)) first
    have untouched_rest : Untouched (rest.flatMap Expr.ids) middle :=
      Untouched.adds (fun id inside => untouched id (List.mem_append_right _ inside)) adds
        arg.nodeIds_subset fun id inside early => disjoint early inside
    obtain ⟨adds', judged'⟩ := ih (fun other member => each other (List.mem_cons_of_mem _ member))
      (fun before other rest' last parts early => reached (arg :: before) other rest' last
        (by rw [parts, List.cons_append])
        (by simp only [inferExprs, bind_eq_ok]; exact ⟨middle, first, early⟩))
      nodup_rest untouched_rest later
    refine ⟨?_, fun other member => ?_⟩
    · rw [List.flatMap_cons, List.flatMap_cons, List.map_append]
      exact (adds.mono (List.subset_append_left _ _) (List.subset_append_left _ _)).trans
        (adds'.mono (List.subset_append_right _ _) (List.subset_append_right _ _))
    · rcases List.mem_cons.mp member with rfl | member
      · refine ⟨judged.congr fun id inside =>
            adds'.same (Expr.nodeIds_flatMap_subset rest) (disjoint inside),
          fun calm => adds'.known _ (clean (adds'.calm calm))⟩
      · exact judged' other member

theorem unfailed_of_own {expr : Expr} (nodup : expr.ids.Nodup) (untouched : Untouched expr.ids state)
    (adds : Adds expr.ids (expr.nodes.map Expr.id) state after) {id : NodeId}
    (own : id ∈ expr.ownIds) (other : id ≠ expr.id) : ¬ after.Failed id := by
  have inside : id ∈ expr.ids := Expr.ownIds_subset expr.mem_nodes_self own
  rw [adds.failed_iff]
  · exact (untouched id inside).2
  · rw [Expr.nodes_eq, List.map_cons, List.mem_cons, not_or]
    exact ⟨other, fun deeper => Expr.own_not_mem_parts nodup own
      (Expr.nodeIds_flatMap_subset expr.parts deeper)⟩

theorem Judgement.of_closing {expr : Expr} {middle : State} {others : List NodeId}
    (nodup : expr.ids.Nodup) (untouched : Untouched expr.ids state)
    (ids : expr.ids = expr.id :: others)
    (adds : Adds others (expr.innerNodes.map Expr.id) state middle)
    (judged : ∀ part ∈ expr.parts, Judged Reached middle part)
    (defined : ∀ definition, expr.definition? = some definition → ¬ middle.Known definition.id →
      Excused Reached middle definition.body.nodes definition.body.nodes)
    (closing :
      after = middle ∧ middle.errors.isEmpty = false ∧
        Excused Reached middle expr.innerNodes expr.nodes ∨
      Decides expr.id middle after ∧ (∀ id ∈ expr.ownIds, id ≠ expr.id → middle.Known id) ∧
        ∀ part ∈ expr.parts, middle.Known part.id) :
    Judgement Reached state after expr := by
  have outside : expr.id ∉ others := (List.nodup_cons.mp (ids ▸ nodup)).1
  have inner : expr.innerNodes.map Expr.id ⊆ others := by
    intro id inside
    have member : id ∈ expr.ids := expr.nodeIds_subset (List.map_subset _ expr.innerNodes_subset inside)
    rw [ids] at member
    refine (List.mem_cons.mp member).resolve_left fun same => ?_
    exact Expr.own_not_mem_parts nodup (same ▸ expr.id_mem_ownIds)
      (Expr.nodeIds_flatMap_subset expr.parts inside)
  obtain ⟨unknown, unfailed⟩ := untouched expr.id expr.id_mem_ids
  obtain ⟨known, failed⟩ := adds.same inner outside
  rw [← known] at unknown
  rw [← failed] at unfailed
  have step : Adds [expr.id] [expr.id] middle after := by
    rcases closing with ⟨rfl, _⟩ | ⟨decides, _⟩
    · exact .refl _
    · exact decides.toAdds
  have total : Adds expr.ids (expr.nodes.map Expr.id) state after := by
    rw [ids, Expr.nodes_eq, List.map_cons]
    exact (adds.mono (List.subset_cons_self _ _) (List.subset_cons_self _ _)).trans
      (step.mono (by simp) (by simp))
  refine ⟨total, .of_parts (fun part among => ?_) (fun id own => ?_) (fun found => ?_)
    (fun unknown' unfailed' => ?_) (fun definition defines unknown' => ?_), fun calm => ?_⟩
  · refine (judged part among).congr fun id inside => step.same (List.Subset.refl _) fun same => ?_
    exact Expr.own_not_mem_parts nodup (List.mem_singleton.mp same ▸ expr.id_mem_ownIds)
      (List.mem_flatMap.mpr ⟨part, among, inside⟩)
  · by_cases same : id = expr.id
    · subst same
      rcases closing with ⟨rfl, _⟩ | ⟨decides, _⟩
      · exact fun known => absurd known unknown
      · have decided := decides.decided unknown unfailed
        exact fun known => (decided.resolve_right fun absurd => absurd.1 known).2
    · exact fun _ => unfailed_of_own nodup untouched total own same
  · rcases closing with ⟨rfl, _⟩ | ⟨_, owned, parts⟩
    · exact absurd found unknown
    · refine ⟨fun id own => ?_, fun part among => step.known _ (parts part among)⟩
      by_cases same : id = expr.id
      · rw [same]
        exact found
      · exact step.known id (owned id own same)
  · rcases closing with ⟨rfl, _, excused⟩ | ⟨decides, _⟩
    · exact excused
    · rcases decides.decided unknown unfailed with ⟨known, _⟩ | ⟨_, failed⟩
      · exact absurd known unknown'
      · exact absurd failed unfailed'
  · exact (defined definition defines fun known => unknown' (step.known _ known)).later step.failed
  · rcases closing with ⟨rfl, failed, _⟩ | ⟨decides, _⟩
    · cases failed.symm.trans calm
    · refine ((decides.decided unknown unfailed).resolve_right fun failed => ?_).1
      exact SortedMap.isEmpty_iff.mp calm _ failed.2

theorem judges_app {id : NodeId} {operator : String} {args : List Expr}
    (each : ∀ arg ∈ args, Judges context arg) : Judges context (.app id operator args) := by
  intro Reached state after reached nodup untouched run
  simp only [inferExpr, bind_eq_ok] at run
  obtain ⟨middle, inner, outer⟩ := run
  have ids := Expr.ids_app id operator args
  obtain ⟨adds, judged⟩ := judgements_of_args each
    (fun before arg rest state parts early inner entry enters => reached inner entry
      (parts ▸ .arg early enters)) (List.nodup_cons.mp (ids ▸ nodup)).2
    (fun other inside => untouched other (ids ▸ List.mem_cons_of_mem _ inside)) inner
  refine .of_closing nodup untouched ids adds (fun arg member => (judged arg member).1)
    (fun _ absent => (Option.some_ne_none _ absent.symm).elim) ?_
  rcases inferApplication_cases outer with ⟨⟨arg, member, unknown⟩, rfl⟩ | ⟨known, decides⟩
  · obtain ⟨judged, clean⟩ := judged arg member
    have part : arg.nodes ⊆ (Expr.app id operator args).innerNodes := Expr.part_nodes_subset member
    exact .inl ⟨rfl, Bool.eq_false_iff.mpr fun calm => unknown (clean calm),
      (judged.excuses unknown).mono part (List.Subset.trans part (Expr.innerNodes_subset _))⟩
  · refine .inr ⟨decides, fun other own different => ?_, known⟩
    exact absurd (List.mem_singleton.mp own) different

theorem judges_lambda {id : NodeId} {params : List Param} {body : Expr}
    (inside : Judges context body) : Judges context (.lambda id params body) := by
  intro Reached state after reached nodup untouched run
  simp only [inferExpr, bind_eq_ok, pure_eq_ok] at run
  obtain ⟨middle, inner, rfl⟩ := run
  have ids := Expr.ids_lambda id params body
  obtain ⟨opens, opened⟩ := adds_openLambda state id params
  obtain ⟨_, nodup_body, disjoint⟩ := List.nodup_append'.mp (List.nodup_cons.mp (ids ▸ nodup)).2
  have untouched_body : Untouched body.ids (state.openLambda id params) :=
    Untouched.adds (fun other member => untouched other (Expr.lambda_body_ids_subset member)) opens
      (List.nil_subset _) fun other member early => disjoint early member
  obtain ⟨adds, judged, clean⟩ := inside
    (fun inner entry enters => reached inner entry (.lambda enters)) nodup_body untouched_body inner
  have started : Adds (params.map Param.id ++ body.ids)
      ((Expr.lambda id params body).innerNodes.map Expr.id) state middle := by
    simp only [Expr.innerNodes, Expr.parts, List.flatMap_singleton]
    exact (opens.mono (List.subset_append_left _ _) (List.nil_subset _)).trans
      (adds.mono (List.subset_append_right _ _) (List.Subset.refl _))
  refine .of_closing nodup untouched ids started (List.forall_mem_singleton.mpr judged)
    (fun _ absent => (Option.some_ne_none _ absent.symm).elim) ?_
  rcases closeLambda_cases middle id params body with ⟨unknown, same⟩ | ⟨known, decides⟩
  · have part : body.nodes ⊆ (Expr.lambda id params body).innerNodes :=
      Expr.part_nodes_subset (List.mem_singleton.mpr rfl)
    exact .inl ⟨same, Bool.eq_false_iff.mpr fun calm => unknown (clean calm),
      (judged.excuses unknown).mono part (List.Subset.trans part (Expr.innerNodes_subset _))⟩
  · refine .inr ⟨decides, fun other own different => ?_, List.forall_mem_singleton.mpr known⟩
    rcases List.mem_cons.mp own with same | own
    · exact absurd same different
    · obtain ⟨param, member, rfl⟩ := List.mem_map.mp own
      exact adds.known _ (opened param member)

theorem judges_letIn {id defId : NodeId} {name : String} {bound body : Expr}
    (first : Judges context bound) (second : Judges context body) :
    Judges context (.letIn id defId name bound body) := by
  intro Reached state after reached nodup untouched run
  simp only [inferExpr, bind_eq_ok] at run
  obtain ⟨defined, inner, middle, inner', outer⟩ := run
  have ids := Expr.ids_letIn id defId name bound body
  obtain ⟨_, nodup'⟩ := List.nodup_cons.mp (ids ▸ nodup)
  obtain ⟨fresh, nodup'⟩ := List.nodup_cons.mp nodup'
  obtain ⟨nodup_bound, nodup_body, disjoint⟩ := List.nodup_append'.mp nodup'
  rw [List.mem_append, not_or] at fresh
  obtain ⟨adds, judged, clean⟩ := first
    (fun inner entry enters => reached inner entry (.bound enters)) nodup_bound
    (fun other member => untouched other (Expr.bound_ids_subset member)) inner
  have copies := adds_copyEffect defined defId bound.id
  have untouched_def : Untouched [defId] defined :=
    Untouched.adds (fun other member => untouched other (by rw [ids]; simp_all)) adds
      bound.nodeIds_subset (List.forall_mem_singleton.mpr fresh.1)
  have untouched_body : Untouched body.ids (defined.copyEffect defId bound.id) := by
    have early : Untouched body.ids defined :=
      Untouched.adds (fun other member => untouched other (Expr.let_body_ids_subset member)) adds
        bound.nodeIds_subset fun other member early => disjoint early member
    exact early.adds copies (List.nil_subset _) fun other member same =>
      fresh.2 (List.mem_singleton.mp same ▸ member)
  obtain ⟨adds', judged', clean'⟩ := second
    (fun target entry enters => reached target entry (.body inner enters)) nodup_body
    untouched_body inner'
  -- What is known about the bound expression and its name stays.
  have later : Adds (defId :: body.ids) (body.nodes.map Expr.id) defined middle :=
    (copies.mono (by simp) (List.nil_subset _)).trans
      (adds'.mono (List.subset_cons_self _ _) (List.Subset.refl _))
  have kept : Judged Reached middle bound := by
    refine judged.congr fun other inside => later.same ?_ ?_
    · exact List.Subset.trans body.nodeIds_subset (List.subset_cons_self _ _)
    · rw [List.mem_cons, not_or]
      exact ⟨fun same => fresh.1 (same ▸ inside), disjoint inside⟩
  have bound_iff : middle.Known bound.id ↔ middle.Known defId := by
    have outside : bound.id ∉ defId :: body.ids := by
      rw [List.mem_cons, not_or]
      exact ⟨fun same => fresh.1 (same ▸ bound.id_mem_ids), disjoint bound.id_mem_ids⟩
    rw [later.known_iff outside, adds'.known_iff fresh.2,
      known_copyEffect (untouched_def defId (List.mem_singleton.mpr rfl)).1]
  have total : Adds (defId :: (bound.ids ++ body.ids))
      ((Expr.letIn id defId name bound body).innerNodes.map Expr.id) state middle := by
    simp only [Expr.innerNodes, Expr.parts, List.flatMap_cons, List.flatMap_nil, List.append_nil,
      List.map_append]
    exact (adds.mono (by simp) (by simp)).trans (later.mono (by simp) (by simp))
  refine .of_closing nodup untouched ids total
    (List.forall_mem_cons.mpr ⟨kept, List.forall_mem_singleton.mpr judged'⟩) ?_ ?_
  · intro definition defines unknown
    cases defines
    exact kept.excuses fun known => unknown (bound_iff.mp known)
  · rcases closeLet_cases outer with ⟨failed, rfl⟩ | ⟨calm, known, effect, rfl⟩
    · refine .inl ⟨rfl, failed, ?_⟩
      cases early : state.errors.isEmpty with
      | false => exact .inr ⟨_, Expr.mem_nodes_self _, rfl, state, reached _ _ .here, early⟩
      | true =>
        obtain ⟨other, inside, wrong⟩ := total.exists_failed early failed
        obtain ⟨node, member, rfl⟩ := List.mem_map.mp inside
        exact .inl ⟨node, member, wrong⟩
    · have known_bound : middle.Known bound.id := later.known _ (clean (later.calm calm))
      refine .inr ⟨decides_record _ _ _, fun other own different => ?_,
        List.forall_mem_cons.mpr ⟨known_bound, List.forall_mem_singleton.mpr known⟩⟩
      rcases List.mem_pair.mp own with same | rfl
      · exact absurd same different
      · exact bound_iff.mp known_bound

theorem inferExpr_judges (context : Context) (expr : Expr) : Judges context expr := by
  induction expr with
  | literal id value =>
    intro Reached state after _ _ untouched run
    cases run
    exact .of_leaf (decides_record _ _ _) rfl rfl untouched
  | ref id name =>
    intro Reached state after _ _ untouched run
    have decides : Decides (Expr.ref id name).id state after := decides_inferRef run
    exact .of_leaf decides rfl rfl untouched
  | app id operator args ih => exact judges_app ih
  | lambda id params body ih => exact judges_lambda ih
  | letIn id defId name bound body ih ih' => exact judges_letIn ih ih'

end Expressions

inductive EntersIn (env : Environment) (target : Expr) (entry : State) :
    Context → State → Declaration → Prop
  | expr {context : Context} {state : State} {declaration : Declaration} {expr : Expr}
    (holds : declaration.expr? = some expr) (inside : Enters context target entry state expr) :
    EntersIn env target entry context state declaration
  | submodule {context inner : Context} {state middle : State} {id : NodeId} {name : String}
    {before rest : List Declaration} {declaration : Declaration}
    (entered : env.context state ⟨id, name, before ++ declaration :: rest⟩ = .ok inner)
    (early : inferDeclarations env inner state before = .ok middle)
    (inside : EntersIn env target entry inner middle declaration) :
    EntersIn env target entry context state (.submodule id name (before ++ declaration :: rest))

structure Reviewed (Reached : Expr → State → Prop) (state after : State)
    (declarations : List Declaration) : Prop where
  adds : Adds (declarations.flatMap Declaration.annotatedIds)
    ((declarations.flatMap Declaration.nodes).map Expr.id) state after
  judged : ∀ declaration ∈ declarations, ∀ expr, declaration.expr? = some expr →
    Judged Reached after expr
  defined : ∀ declaration ∈ declarations, ∀ definition, declaration.definition? = some definition →
    ¬ after.Known definition.id →
      Excused Reached after definition.body.nodes definition.body.nodes
  clean : after.errors.isEmpty = true →
    ∀ id ∈ declarations.flatMap Declaration.annotatedIds, after.Known id

section Declarations

variable {Reached : Expr → State → Prop} {env : Environment} {context : Context}
  {state after last : State}

theorem flatMap_subset_flatMap {α β : Type} {f g : α → List β} (each : ∀ a, f a ⊆ g a)
    (as : List α) : as.flatMap f ⊆ as.flatMap g := by
  intro b inside
  obtain ⟨a, member, inside⟩ := List.mem_flatMap.mp inside
  exact List.mem_flatMap.mpr ⟨a, member, each a inside⟩

theorem nodeIds_flatMap_subset (declarations : List Declaration) :
    (declarations.flatMap Declaration.nodes).map Expr.id ⊆
      declarations.flatMap Declaration.annotatedIds := by
  rw [List.map_flatMap]
  exact flatMap_subset_flatMap Declaration.nodeIds_subset declarations

theorem Reviewed.nil (state : State) : Reviewed Reached state state [] :=
  ⟨.refl state, nofun, nofun, fun _ => nofun⟩

theorem Reviewed.cons {declarations : List Declaration} {declaration : Declaration}
    (reviewed : Reviewed Reached state after declarations) (none : declaration.expr? = none) :
    Reviewed Reached state after (declaration :: declarations) := by
  have ids : declaration.annotatedIds = [] := by cases declaration <;> first | rfl | cases none
  have nodes : declaration.nodes = [] := by rw [Declaration.nodes, none]; rfl
  refine ⟨?_, ?_, ?_, ?_⟩
  · rw [List.flatMap_cons, List.flatMap_cons, ids, nodes]
    exact reviewed.adds
  · refine List.forall_mem_cons.mpr ⟨fun expr holds => ?_, reviewed.judged⟩
    cases none.symm.trans holds
  · refine List.forall_mem_cons.mpr ⟨fun definition defines => ?_, reviewed.defined⟩
    cases none.symm.trans (Declaration.expr?_of_definition? defines)
  · rw [List.flatMap_cons, ids]
    exact reviewed.clean

theorem Reviewed.append {declarations others : List Declaration}
    (first : Reviewed Reached state after declarations)
    (second : Reviewed Reached after last others)
    (apart : ∀ id ∈ declarations.flatMap Declaration.ownIds, id ∉ others.flatMap Declaration.ownIds) :
    Reviewed Reached state last (declarations ++ others) := by
  refine ⟨?_, fun declaration member expr holds => ?_,
    fun declaration member definition defines unknown => ?_, fun calm id inside => ?_⟩
  · rw [List.flatMap_append, List.flatMap_append, List.map_append]
    exact (first.adds.mono (List.subset_append_left _ _) (List.subset_append_left _ _)).trans
      (second.adds.mono (List.subset_append_right _ _) (List.subset_append_right _ _))
  · rcases List.mem_append.mp member with early | late
    · refine (first.judged declaration early expr holds).congr fun id inside =>
        second.adds.same (nodeIds_flatMap_subset others) fun late => ?_
      refine apart id (List.mem_flatMap.mpr ⟨declaration, early, ?_⟩)
        (flatMap_subset_flatMap Declaration.annotatedIds_subset others late)
      exact declaration.annotatedIds_subset (Declaration.expr_ids_subset holds inside)
    · exact second.judged declaration late expr holds
  · rcases List.mem_append.mp member with early | late
    · refine (first.defined declaration early definition defines fun known => ?_).later
        second.adds.failed
      exact unknown (second.adds.known _ known)
    · exact second.defined declaration late definition defines unknown
  · rw [List.flatMap_append] at inside
    rcases List.mem_append.mp inside with early | late
    · exact second.adds.known id (first.clean (second.adds.calm calm) id early)
    · exact second.clean calm id late

def Reviews (env : Environment) (declaration : Declaration) : Prop :=
  ∀ ⦃Reached context state after⦄,
    (∀ target entry, EntersIn env target entry context state declaration → Reached target entry) →
    declaration.ids.Nodup → Untouched declaration.ids state →
    inferDeclaration env context state declaration = .ok after →
    Reviewed Reached state after declaration.all

theorem reviewed_of_expr {declaration : Declaration} {expr : Expr}
    (holds : declaration.expr? = some expr) (none : declaration.definition? = none)
    (judgement : Judgement Reached state after expr) : Reviewed Reached state after [declaration] := by
  have ids : declaration.annotatedIds = expr.ids := by rw [Declaration.annotatedIds, holds, none]; rfl
  have nodes : declaration.nodes = expr.nodes := by rw [Declaration.nodes, holds]; rfl
  refine ⟨?_, ?_, ?_, ?_⟩
  · rw [List.flatMap_singleton, List.flatMap_singleton, ids, nodes]
    exact judgement.adds
  · refine List.forall_mem_singleton.mpr fun other holds' => ?_
    cases holds.symm.trans holds'
    exact judgement.judged
  · refine List.forall_mem_singleton.mpr fun definition defines => ?_
    cases none.symm.trans defines
  · rw [List.flatMap_singleton, ids]
    exact fun calm => judgement.judged.complete expr expr.mem_nodes_self (judgement.clean calm)

theorem reviewed_of_definition {definition : Definition}
    (judgement : Judgement Reached state after definition.body)
    (fresh : definition.id ∉ definition.body.ids) (unknown : ¬ after.Known definition.id) :
    Reviewed Reached state (after.copyEffect definition.id definition.body.id)
      [.operator definition] := by
  have copies := adds_copyEffect after definition.id definition.body.id
  have judged : Judged Reached (after.copyEffect definition.id definition.body.id) definition.body :=
    judgement.judged.congr fun id inside => copies.same (List.nil_subset _) fun same =>
      fresh (List.mem_singleton.mp same ▸ inside)
  have known : (after.copyEffect definition.id definition.body.id).Known definition.id ↔
      after.Known definition.body.id := known_copyEffect unknown
  refine ⟨?_, List.forall_mem_singleton.mpr fun expr holds => ?_,
    List.forall_mem_singleton.mpr fun other defines missing => ?_, fun calm => ?_⟩
  · rw [List.flatMap_singleton, List.flatMap_singleton]
    exact (judgement.adds.mono (List.subset_cons_self _ _) (List.Subset.refl _)).trans
      (copies.mono (List.cons_subset.mpr ⟨List.mem_cons_self, List.nil_subset _⟩) (List.nil_subset _))
  · cases holds
    exact judged
  · cases defines
    refine judged.excuses fun present => missing (known.mpr ?_)
    rw [copies.known_iff fun same => fresh (List.mem_singleton.mp same ▸ definition.body.id_mem_ids)]
      at present
    exact present
  · have found := judgement.clean (copies.calm calm)
    rw [List.flatMap_singleton]
    refine List.forall_mem_cons.mpr ⟨known.mpr found, fun id inside => copies.known id ?_⟩
    exact judgement.judged.complete definition.body definition.body.mem_nodes_self found id inside

theorem reviewed_of_each {declarations : List Declaration}
    (each : ∀ declaration ∈ declarations, Reviews env declaration)
    (reached : ∀ before declaration rest middle, declarations = before ++ declaration :: rest →
      inferDeclarations env context state before = .ok middle →
      ∀ target entry, EntersIn env target entry context middle declaration → Reached target entry)
    (nodup : (declarations.flatMap Declaration.ids).Nodup)
    (untouched : Untouched (declarations.flatMap Declaration.ids) state)
    (run : inferDeclarations env context state declarations = .ok after) :
    Reviewed Reached state after (declarations.flatMap Declaration.all) := by
  induction declarations generalizing state with
  | nil =>
    cases run
    exact .nil _
  | cons declaration rest ih =>
    simp only [inferDeclarations, bind_eq_ok] at run
    obtain ⟨middle, now, later⟩ := run
    rw [List.flatMap_cons] at nodup untouched
    obtain ⟨nodup_first, nodup_rest, disjoint⟩ := List.nodup_append'.mp nodup
    have first := each declaration List.mem_cons_self (reached [] declaration rest state rfl rfl)
      nodup_first (fun id inside => untouched id (List.mem_append_left _ inside)) now
    have untouched_rest : Untouched (rest.flatMap Declaration.ids) middle :=
      Untouched.adds (fun id inside => untouched id (List.mem_append_right _ inside)) first.adds
        (nodeIds_flatMap_subset _) fun id inside early => disjoint
          (flatMap_subset_flatMap Declaration.annotatedIds_subset declaration.all early) inside
    have others := ih (fun other member => each other (List.mem_cons_of_mem _ member))
      (fun before other rest' last parts early => reached (declaration :: before) other rest' last
        (by rw [parts, List.cons_append])
        (by simp only [inferDeclarations, bind_eq_ok]; exact ⟨middle, now, early⟩))
      nodup_rest untouched_rest later
    rw [List.flatMap_cons]
    refine first.append others fun id early late => disjoint early ?_
    rwa [List.flatMap_assoc] at late

theorem inferDeclaration_reviews (env : Environment) (declaration : Declaration) :
    Reviews env declaration := by
  induction declaration with
  | stateVariable id name =>
    intro Reached context state after _ _ _ run
    cases run
    exact Reviewed.cons (.nil _) rfl
  | constant id name =>
    intro Reached context state after _ _ _ run
    cases run
    exact Reviewed.cons (.nil _) rfl
  | operator definition =>
    intro Reached context state after reached nodup untouched run
    simp only [inferDeclaration, bind_eq_ok, pure_eq_ok] at run
    obtain ⟨middle, inner, rfl⟩ := run
    rw [Declaration.ids_operator] at nodup untouched
    obtain ⟨fresh, nodup⟩ := List.nodup_cons.mp nodup
    have judgement := inferExpr_judges context definition.body
      (fun inner entry enters => reached inner entry (.expr rfl enters)) nodup
      (fun other member => untouched other (List.mem_cons_of_mem _ member)) inner
    refine reviewed_of_definition judgement fresh ?_
    rw [judgement.adds.known_iff fresh]
    exact (untouched definition.id List.mem_cons_self).1
  | assumption id name expr =>
    intro Reached context state after reached nodup untouched run
    rw [Declaration.ids_assumption] at nodup untouched
    exact reviewed_of_expr rfl rfl (inferExpr_judges context expr
      (fun inner entry enters => reached inner entry (.expr rfl enters)) (List.nodup_cons.mp nodup).2
      (fun other member => untouched other (List.mem_cons_of_mem _ member)) run)
  | submodule id name declarations ih =>
    intro Reached context state after reached nodup untouched run
    simp only [inferDeclaration, bind_eq_ok] at run
    obtain ⟨inner, entered, run⟩ := run
    rw [Declaration.ids_submodule] at nodup untouched
    rw [Declaration.all_submodule]
    refine .cons (reviewed_of_each ih ?_ (List.nodup_cons.mp nodup).2
      (fun other member => untouched other (List.mem_cons_of_mem _ member)) run) rfl
    intro before declaration rest middle parts early target entry enters
    subst parts
    exact reached target entry (.submodule entered early enters)

end Declarations

def EntersModule (env : Environment) (target : Expr) (entry : State) (m : Module) : Prop :=
  ∃ context, EntersIn env target entry context .start m.toDeclaration

end Inference

namespace Module

def expressions (m : Module) : List Expr := m.toDeclaration.all.flatMap Declaration.nodes

def params (m : Module) : List Param := m.expressions.flatMap Expr.params

def definitions (m : Module) : List Definition :=
  m.toDeclaration.all.filterMap Declaration.definition? ++ m.expressions.filterMap Expr.definition?

theorem mem_annotatedIds {m : Module} {id : NodeId} :
    id ∈ m.toDeclaration.all.flatMap Declaration.annotatedIds ↔
      id ∈ m.expressions.map Expr.id ∨ id ∈ m.params.map Param.id ∨
        id ∈ m.definitions.map Definition.id := by
  have inside : ∀ declaration : Declaration,
      declaration.expr?.elim [] Expr.ids = declaration.nodes.flatMap Expr.ownIds := by
    intro declaration
    rw [Declaration.nodes]
    cases declaration.expr? <;> rfl
  have owned : id ∈ m.toDeclaration.all.flatMap Declaration.annotatedIds ↔
      (∃ declaration ∈ m.toDeclaration.all, ∃ definition,
        declaration.definition? = some definition ∧ definition.id = id) ∨
      ∃ node ∈ m.expressions, id ∈ node.ownIds := by
    simp only [Declaration.annotatedIds, inside, expressions, List.mem_flatMap, List.mem_append,
      Option.mem_toList, Option.map_eq_some_iff]
    grind
  rw [owned]
  simp only [Expr.mem_ownIds, params, definitions, List.mem_map, List.mem_flatMap,
    List.mem_append, List.mem_filterMap]
  grind

end Module

namespace Analysis

def HasEffect (analysis : Analysis) (id : NodeId) : Prop := (analysis.effectOf? id).isSome

def HasError (analysis : Analysis) (id : NodeId) : Prop :=
  ∃ diagnostic ∈ analysis.diagnostics, diagnostic.node = id

end Analysis

namespace Inference

theorem isOk_analysis (state : State) : state.analysis.isOk = state.errors.isEmpty := by
  rw [Bool.eq_iff_iff]
  simp [Analysis.isOk, State.analysis, SortedMap.isEmpty]

theorem hasError_analysis {state : State} {id : NodeId} :
    state.analysis.HasError id ↔ state.Failed id := by
  rw [State.Failed, SortedMap.isSome_get?_iff]
  simp [Analysis.HasError, State.analysis, SortedMap.keys]

/-- No node has an effect and an error, and an effect of an expression reaches all its parts. What has
neither depends on an error below it, or on a let that inference came to after an error. Without
diagnostics exactly expressions, parameters and definitions have effects. -/
theorem outcome_of_every_node (signatures : SignatureTable) {m : Module} (distinct : m.ids.Nodup) :
    ∃ analysis, m.analyze signatures = .ok analysis ∧
      (∀ id, analysis.HasEffect id → ¬ analysis.HasError id) ∧
      (∀ node ∈ m.expressions, analysis.HasEffect node.id →
        ∀ id ∈ node.ids, analysis.HasEffect id ∧ ¬ analysis.HasError id) ∧
      (∀ node ∈ m.expressions, ¬ analysis.HasEffect node.id → ¬ analysis.HasError node.id →
        (∃ inner ∈ node.innerNodes, analysis.HasError inner.id) ∨
          ∃ inner ∈ node.nodes, inner.isLet ∧ ∃ entry,
            EntersModule (m.environment signatures) inner entry m ∧ entry.errors.isEmpty = false) ∧
      (∀ definition ∈ m.definitions, ¬ analysis.HasEffect definition.id →
        (∃ inner ∈ definition.body.nodes, analysis.HasError inner.id) ∨
          ∃ inner ∈ definition.body.nodes, inner.isLet ∧ ∃ entry,
            EntersModule (m.environment signatures) inner entry m ∧ entry.errors.isEmpty = false) ∧
      (analysis.isOk = true → ∀ id, id ∈ analysis.effects.keys ↔
        id ∈ m.expressions.map Expr.id ∨ id ∈ m.params.map Param.id ∨
          id ∈ m.definitions.map Definition.id) := by
  obtain ⟨state, run⟩ : ∃ state, m.infer signatures = .ok state := inferModule_total distinct .start
  obtain ⟨context, _, _⟩ := bind_eq_ok.mp run
  have review : Reviewed (fun target entry => EntersModule (m.environment signatures) target entry m)
      .start state m.toDeclaration.all :=
    inferDeclaration_reviews (m.environment signatures) m.toDeclaration
      (fun target entry enters => ⟨context, enters⟩) distinct (fun _ _ => ⟨nofun, nofun⟩) run
  have judged : ∀ node ∈ m.expressions, ∃ expr, node ∈ expr.nodes ∧
      Judged (fun target entry => EntersModule (m.environment signatures) target entry m) state expr := by
    intro node member
    obtain ⟨declaration, among, inside⟩ := List.mem_flatMap.mp member
    cases holds : declaration.expr? with
    | none =>
      rw [Declaration.nodes, holds] at inside
      cases inside
    | some expr =>
      rw [Declaration.nodes, holds] at inside
      exact ⟨expr, inside, review.judged declaration among expr holds⟩
  have exclusive : ∀ id, state.Known id → ¬ state.Failed id := by
    intro id known failed
    rcases review.adds.failed_from id failed with absurd | inside
    · cases absurd
    · obtain ⟨node, member, rfl⟩ := List.mem_map.mp inside
      obtain ⟨expr, inside, judged⟩ := judged node member
      exact judged.exclusive _ (Expr.node_id_mem_ids inside) known failed
  refine ⟨state.analysis, ?_, ?_⟩
  · simp only [Module.analyze, bind_eq_ok, pure_eq_ok]
    exact ⟨state, run, rfl⟩
  · simp only [hasError_analysis]
    refine ⟨exclusive, fun node member known id inside => ?_, fun node member => ?_,
      fun definition member => ?_, fun ok id => ?_⟩
    · obtain ⟨expr, within, judged⟩ := judged node member
      have found := judged.complete node within known id inside
      exact ⟨found, exclusive id found⟩
    · obtain ⟨expr, within, judged⟩ := judged node member
      exact judged.excused node within
    · rcases List.mem_append.mp member with declared | bound
      · obtain ⟨declaration, among, defines⟩ := List.mem_filterMap.mp declared
        exact review.defined declaration among definition defines
      · obtain ⟨node, member, defines⟩ := List.mem_filterMap.mp bound
        obtain ⟨expr, within, judged⟩ := judged node member
        exact judged.defined node within definition defines
    · rw [isOk_analysis] at ok
      rw [← Module.mem_annotatedIds, ← SortedMap.isSome_get?_iff]
      refine ⟨fun known => ?_, review.clean ok id⟩
      rcases review.adds.known_from id known with absurd | inside
      · cases absurd
      · exact inside

/-- An unknown name, an application that is passed over because of it, and a let that comes after it. -/
theorem outcome_after_an_error :
    let body : Expr := .letIn ⟨6⟩ ⟨7⟩ "z" (.literal ⟨8⟩ (.int 1)) (.ref ⟨9⟩ "z")
    let m : Module := ⟨⟨1⟩, "M",
      [.operator ⟨⟨2⟩, "f", .app ⟨3⟩ "k" [.ref ⟨4⟩ "y"]⟩, .operator ⟨⟨5⟩, "g", body⟩]⟩
    let env := m.environment (.ofList [])
    m.ids.Nodup ∧ ∃ analysis, m.analyze (.ofList []) = .ok analysis ∧
      ¬ analysis.HasEffect ⟨5⟩ ∧ analysis.HasEffect ⟨9⟩ ∧
      ((∃ inner ∈ body.nodes, analysis.HasError inner.id) ∨
        ∃ inner ∈ body.nodes, inner.isLet ∧ ∃ entry,
          EntersModule env inner entry m ∧ entry.errors.isEmpty = false) := by
  intro body m env
  have distinct : m.ids.Nodup := by decide
  obtain ⟨analysis, run, _, _, _, defined, _⟩ := outcome_of_every_node (.ofList []) distinct
  have effects : ((m.analyze (.ofList [])).toOption.map fun analysis =>
      [(analysis.effectOf? ⟨5⟩).isSome, (analysis.effectOf? ⟨9⟩).isSome]) = some [false, true] := by
    decide
  rw [run] at effects
  simp only [Except.toOption, Option.map_some, Option.some.injEq, List.cons.injEq, and_true] at effects
  have unknown : ¬ analysis.HasEffect ⟨5⟩ := by simp [Analysis.HasEffect, effects.1]
  have member : ⟨⟨5⟩, "g", body⟩ ∈ m.definitions :=
    List.mem_append_left _ (List.mem_cons_of_mem _ List.mem_cons_self)
  exact ⟨distinct, analysis, run, unknown, effects.2, defined _ member unknown⟩

end Inference

end SpecEffects
