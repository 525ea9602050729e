import SpecEffects.Proofs.Lexical

/-!
Expressions that are built alike. They have the same form and the same names, but their ids may
differ, and parts of the one may be swapped for parts of the other. Copies, inlined definitions and
expressions in which a part has been replaced are of this kind.

Where ids are distinct, the nodes of expressions that are built alike correspond one to one.
-/
namespace SpecEffects

namespace Expr

/-- Built alike where these names are bound around. Nodes are linked, names are kept, and parts that
are swapped need not be alike. -/
inductive Alike (links : NodeId → NodeId → Prop) (keeps : List String → String → Prop)
    (swaps : List String → Expr → Expr → Prop) : List String → Expr → Expr → Prop
  | literal {bound : List String} {id id' : NodeId} (linked : links id id') (value : Literal) :
    Alike links keeps swaps bound (.literal id value) (.literal id' value)
  | ref {bound : List String} {id id' : NodeId} {name : String} (linked : links id id')
    (kept : keeps bound name) : Alike links keeps swaps bound (.ref id name) (.ref id' name)
  | app {bound : List String} {id id' : NodeId} {operator : String} {args args' : List Expr}
    (linked : links id id') (kept : keeps bound operator) (length : args.length = args'.length)
    (each : ∀ arg arg', (arg, arg') ∈ args.zip args' → Alike links keeps swaps bound arg arg') :
    Alike links keeps swaps bound (.app id operator args) (.app id' operator args')
  | lambda {bound : List String} {id id' : NodeId} {params params' : List Param} {body body' : Expr}
    (linked : links id id') (same : List.Forall₂ (fun param param' => links param.id param'.id ∧
      param'.name = param.name) params params')
    (inner : Alike links keeps swaps (params.map Param.name ++ bound) body body') :
    Alike links keeps swaps bound (.lambda id params body) (.lambda id' params' body')
  | letIn {bound : List String} {id id' defId defId' : NodeId} {name : String}
    {first first' second second' : Expr} (linked : links id id') (linked_def : links defId defId')
    (outer : Alike links keeps swaps (name :: bound) first first')
    (inner : Alike links keeps swaps (name :: bound) second second') :
    Alike links keeps swaps bound (.letIn id defId name first second)
      (.letIn id' defId' name first' second')
  | swap {bound : List String} {old new : Expr} (swapped : swaps bound old new) :
    Alike links keeps swaps bound old new

theorem each_of_two {R : Expr → Expr → Prop} {first first' second second' : Expr}
    (head : R first first') (last : R second second') :
    ∀ arg arg', (arg, arg') ∈ [first, second].zip [first', second'] → R arg arg' := by
  intro arg arg' member
  rcases List.mem_cons.mp member with same | member
  · cases same
    exact head
  · cases List.mem_singleton.mp member
    exact last

namespace Alike

variable {links links' : NodeId → NodeId → Prop} {keeps : List String → String → Prop}
  {swaps swaps' : List String → Expr → Expr → Prop} {bound : List String} {expr expr' : Expr}

theorem mono (alike : Alike links keeps swaps bound expr expr')
    (more : ∀ {id id'}, links id id' → links' id id')
    (others : ∀ {bound old new}, swaps bound old new → swaps' bound old new) :
    Alike links' keeps swaps' bound expr expr' := by
  induction alike with
  | literal linked value => exact .literal (more linked) value
  | ref linked kept => exact .ref (more linked) kept
  | app linked kept length _ ih => exact .app (more linked) kept length ih
  | lambda linked same _ ih =>
    exact .lambda (more linked) (same.imp fun _ _ both => ⟨more both.1, both.2⟩) ih
  | letIn linked linked_def _ _ ih ih' => exact .letIn (more linked) (more linked_def) ih ih'
  | swap swapped => exact .swap (others swapped)

theorem refl (reflexive : ∀ id, links id id) (all : ∀ bound name, keeps bound name)
    (bound : List String) (expr : Expr) : Alike links keeps swaps bound expr expr := by
  induction expr generalizing bound with
  | literal id value => exact .literal (reflexive id) value
  | ref id name => exact .ref (reflexive id) (all bound name)
  | app id operator args ih =>
    refine .app (reflexive id) (all bound operator) rfl fun arg arg' member => ?_
    obtain ⟨rfl, present⟩ : arg = arg' ∧ arg ∈ args := by
      rw [List.zip_eq_zipWith, List.zipWith_self] at member
      obtain ⟨other, present, same⟩ := List.mem_map.mp member
      cases same
      exact ⟨rfl, present⟩
    exact ih arg present bound
  | lambda id params body ih =>
    exact .lambda (reflexive id) (List.forall₂_same.mpr fun param _ => ⟨reflexive param.id, rfl⟩)
      (ih _)
  | letIn id defId name first second ih ih' =>
    exact .letIn (reflexive id) (reflexive defId) (ih _) (ih' _)

end Alike

structure Pairing (kept roots : NodeId → NodeId → Prop) (ids ids' : List NodeId) : Prop where
  inside : ∀ {a b}, kept a b ∨ roots a b → a ∈ ids ∧ b ∈ ids'
  left : ∀ {a b b'}, kept a b ∨ roots a b → kept a b' ∨ roots a b' → b = b'
  right : ∀ {a a' b}, kept a b ∨ roots a b → kept a' b ∨ roots a' b → a = a'

structure Rooted (kept roots : NodeId → NodeId → Prop) (ids ids' : List NodeId) (old new : Expr) :
    Prop where
  root : roots old.id new.id
  inside : old.ids ⊆ ids
  inside' : new.ids ⊆ ids'
  apart : ∀ {a b}, kept a b → a ∉ old.ids ∧ b ∉ new.ids
  alone : ∀ {a b}, roots a b → a ∈ old.ids ∨ b ∈ new.ids → a = old.id ∧ b = new.id

structure Ties (kept tied : NodeId → NodeId → Prop) (ids ids' : List NodeId) : Prop where
  part : ∀ {a b}, kept a b → tied a b
  inside : ∀ {a b}, tied a b → a ∈ ids ∧ b ∈ ids'
  left : ∀ {a b b'}, tied a b → tied a b' → b = b'
  right : ∀ {a a' b}, tied a b → tied a' b → a = a'

theorem Ties.mono {kept tied : NodeId → NodeId → Prop} {ids ids' more more' : List NodeId}
    (ties : Ties kept tied ids ids') (part : ids ⊆ more) (part' : ids' ⊆ more') :
    Ties kept tied more more' :=
  ⟨ties.part, fun pair => (ties.inside pair).imp (fun member => part member) fun member => part' member,
    ties.left, ties.right⟩

section Pairings

variable {kept roots kept₁ roots₁ kept₂ roots₂ : NodeId → NodeId → Prop}
  {ids ids' ids₁ ids₁' ids₂ ids₂' : List NodeId}

theorem Pairing.ties (pairing : Pairing kept roots ids ids') : Ties kept kept ids ids' :=
  ⟨fun pair => pair, fun pair => pairing.inside (Or.inl pair),
    fun pair pair' => pairing.left (Or.inl pair) (Or.inl pair'),
    fun pair pair' => pairing.right (Or.inl pair) (Or.inl pair')⟩

theorem pairing_single (id id' : NodeId) :
    Pairing (fun a b => a = id ∧ b = id') (fun _ _ => False) [id] [id'] where
  inside := by
    rintro a b (⟨rfl, rfl⟩ | absurd)
    · exact ⟨List.mem_singleton_self _, List.mem_singleton_self _⟩
    · exact absurd.elim
  left := by
    rintro a b b' (⟨_, rfl⟩ | absurd) (⟨_, rfl⟩ | absurd') <;> first | rfl | contradiction
  right := by
    rintro a a' b (⟨rfl, _⟩ | absurd) (⟨rfl, _⟩ | absurd') <;> first | rfl | contradiction

theorem pairing_root (old new : Expr) :
    Pairing (fun _ _ => False) (fun a b => a = old.id ∧ b = new.id) old.ids new.ids where
  inside := by
    rintro a b (absurd | ⟨rfl, rfl⟩)
    · exact absurd.elim
    · exact ⟨old.id_mem_ids, new.id_mem_ids⟩
  left := by
    rintro a b b' (absurd | ⟨_, rfl⟩) (absurd' | ⟨_, rfl⟩) <;> first | rfl | contradiction
  right := by
    rintro a a' b (absurd | ⟨rfl, _⟩) (absurd' | ⟨rfl, _⟩) <;> first | rfl | contradiction

theorem pairing_nil : Pairing (fun _ _ => False) (fun _ _ => False) [] [] where
  inside := fun absurd => absurd.elim False.elim False.elim
  left := fun absurd => absurd.elim False.elim False.elim
  right := fun absurd => absurd.elim False.elim False.elim

variable (first : Pairing kept₁ roots₁ ids₁ ids₁') (second : Pairing kept₂ roots₂ ids₂ ids₂')
  (apart : ids₁.Disjoint ids₂) (apart' : ids₁'.Disjoint ids₂')

include first second apart apart'

theorem Pairing.union : Pairing (fun a b => kept₁ a b ∨ kept₂ a b)
    (fun a b => roots₁ a b ∨ roots₂ a b) (ids₁ ++ ids₂) (ids₁' ++ ids₂') := by
  have split : ∀ {a b}, ((kept₁ a b ∨ kept₂ a b) ∨ roots₁ a b ∨ roots₂ a b) →
      (kept₁ a b ∨ roots₁ a b) ∨ kept₂ a b ∨ roots₂ a b := by tauto
  constructor
  · intro a b pair
    rcases split pair with pair | pair
    · exact ⟨List.mem_append_left _ (first.inside pair).1, List.mem_append_left _ (first.inside pair).2⟩
    · exact ⟨List.mem_append_right _ (second.inside pair).1,
        List.mem_append_right _ (second.inside pair).2⟩
  · intro a b b' pair pair'
    rcases split pair with pair | pair <;> rcases split pair' with pair' | pair'
    · exact first.left pair pair'
    · exact (apart (first.inside pair).1 (second.inside pair').1).elim
    · exact (apart (first.inside pair').1 (second.inside pair).1).elim
    · exact second.left pair pair'
  · intro a a' b pair pair'
    rcases split pair with pair | pair <;> rcases split pair' with pair' | pair'
    · exact first.right pair pair'
    · exact (apart' (first.inside pair).2 (second.inside pair').2).elim
    · exact (apart' (first.inside pair').2 (second.inside pair).2).elim
    · exact second.right pair pair'

omit first in
theorem Rooted.union_left {old new : Expr} (rooted : Rooted kept₁ roots₁ ids₁ ids₁' old new) :
    Rooted (fun a b => kept₁ a b ∨ kept₂ a b) (fun a b => roots₁ a b ∨ roots₂ a b)
      (ids₁ ++ ids₂) (ids₁' ++ ids₂') old new where
  root := Or.inl rooted.root
  inside := List.Subset.trans rooted.inside (List.subset_append_left _ _)
  inside' := List.Subset.trans rooted.inside' (List.subset_append_left _ _)
  apart := by
    rintro a b (pair | pair)
    · exact rooted.apart pair
    · have inside := second.inside (Or.inl pair)
      exact ⟨fun part => apart (rooted.inside part) inside.1,
        fun part => apart' (rooted.inside' part) inside.2⟩
  alone := by
    rintro a b (pair | pair) part
    · exact rooted.alone pair part
    · have inside := second.inside (Or.inr pair)
      exact part.elim (fun part => (apart (rooted.inside part) inside.1).elim)
        fun part => (apart' (rooted.inside' part) inside.2).elim

omit second in
theorem Rooted.union_right {old new : Expr} (rooted : Rooted kept₂ roots₂ ids₂ ids₂' old new) :
    Rooted (fun a b => kept₁ a b ∨ kept₂ a b) (fun a b => roots₁ a b ∨ roots₂ a b)
      (ids₁ ++ ids₂) (ids₁' ++ ids₂') old new where
  root := Or.inr rooted.root
  inside := List.Subset.trans rooted.inside (List.subset_append_right _ _)
  inside' := List.Subset.trans rooted.inside' (List.subset_append_right _ _)
  apart := by
    rintro a b (pair | pair)
    · have inside := first.inside (Or.inl pair)
      exact ⟨fun part => apart inside.1 (rooted.inside part),
        fun part => apart' inside.2 (rooted.inside' part)⟩
    · exact rooted.apart pair
  alone := by
    rintro a b (pair | pair) part
    · have inside := first.inside (Or.inr pair)
      exact part.elim (fun part => (apart inside.1 (rooted.inside part)).elim)
        fun part => (apart' inside.2 (rooted.inside' part)).elim
    · exact rooted.alone pair part

end Pairings

section Pairs

variable {keeps : List String → String → Prop} {swaps : List String → Expr → Expr → Prop}

def Paired (keeps : List String → String → Prop) (swaps : List String → Expr → Expr → Prop)
    (kept roots : NodeId → NodeId → Prop) (ids ids' : List NodeId) (bound : List String)
    (expr expr' : Expr) : Prop :=
  Alike kept keeps (fun bound old new => swaps bound old new ∧ Rooted kept roots ids ids' old new)
    bound expr expr'

theorem pairing_params {params params' : List Param}
    (same : List.Forall₂ (fun param param' => param'.name = param.name) params params')
    (nodup : (params.map Param.id).Nodup) (nodup' : (params'.map Param.id).Nodup) :
    ∃ kept roots, Pairing kept roots (params.map Param.id) (params'.map Param.id) ∧
      List.Forall₂ (fun param param' => kept param.id param'.id ∧ param'.name = param.name)
        params params' := by
  induction same with
  | nil => exact ⟨_, _, pairing_nil, .nil⟩
  | @cons param param' rest rest' head tail ih =>
    obtain ⟨fresh, nodup⟩ := List.nodup_cons.mp nodup
    obtain ⟨fresh', nodup'⟩ := List.nodup_cons.mp nodup'
    obtain ⟨kept, roots, pairing, each⟩ := ih nodup nodup'
    exact ⟨_, _, (pairing_single param.id param'.id).union pairing
      (List.singleton_disjoint.mpr fresh) (List.singleton_disjoint.mpr fresh'),
      .cons ⟨Or.inl ⟨rfl, rfl⟩, head⟩ (each.imp fun _ _ pair => ⟨Or.inr pair.1, pair.2⟩)⟩

section Union

variable {kept₁ roots₁ kept₂ roots₂ : NodeId → NodeId → Prop} {ids₁ ids₁' ids₂ ids₂' : List NodeId}
  (first : Pairing kept₁ roots₁ ids₁ ids₁') (second : Pairing kept₂ roots₂ ids₂ ids₂')
  (apart : ids₁.Disjoint ids₂) (apart' : ids₁'.Disjoint ids₂') {bound : List String}
  {expr expr' : Expr}

include second apart apart' in
theorem Paired.union_left (paired : Paired keeps swaps kept₁ roots₁ ids₁ ids₁' bound expr expr') :
    Paired keeps swaps (fun a b => kept₁ a b ∨ kept₂ a b) (fun a b => roots₁ a b ∨ roots₂ a b)
      (ids₁ ++ ids₂) (ids₁' ++ ids₂') bound expr expr' :=
  paired.mono Or.inl fun both => ⟨both.1, both.2.union_left second apart apart'⟩

include first apart apart' in
theorem Paired.union_right (paired : Paired keeps swaps kept₂ roots₂ ids₂ ids₂' bound expr expr') :
    Paired keeps swaps (fun a b => kept₁ a b ∨ kept₂ a b) (fun a b => roots₁ a b ∨ roots₂ a b)
      (ids₁ ++ ids₂) (ids₁' ++ ids₂') bound expr expr' :=
  paired.mono Or.inr fun both => ⟨both.1, both.2.union_right first apart apart'⟩

end Union

theorem paired_args {bound : List String} {args args' : List Expr}
    (length : args.length = args'.length)
    (each : ∀ arg arg', (arg, arg') ∈ args.zip args' → arg.ids.Nodup → arg'.ids.Nodup →
      ∃ kept roots, Pairing kept roots arg.ids arg'.ids ∧
        Paired keeps swaps kept roots arg.ids arg'.ids bound arg arg')
    (nodup : (args.flatMap ids).Nodup) (nodup' : (args'.flatMap ids).Nodup) :
    ∃ kept roots, Pairing kept roots (args.flatMap ids) (args'.flatMap ids) ∧
      ∀ arg arg', (arg, arg') ∈ args.zip args' →
        Paired keeps swaps kept roots (args.flatMap ids) (args'.flatMap ids) bound arg arg' := by
  induction args generalizing args' with
  | nil =>
    cases List.length_eq_zero_iff.mp length.symm
    exact ⟨_, _, pairing_nil, nofun⟩
  | cons arg rest ih =>
    cases args' with
    | nil => cases length
    | cons arg' rest' =>
      obtain ⟨own, others, apart⟩ := List.nodup_append'.mp nodup
      obtain ⟨own', others', apart'⟩ := List.nodup_append'.mp nodup'
      obtain ⟨_, _, head, alike⟩ := each arg arg' List.mem_cons_self own own'
      obtain ⟨_, _, tail, later⟩ := ih (Nat.succ.inj length)
        (fun arg arg' member => each arg arg' (List.mem_cons_of_mem _ member)) others others'
      refine ⟨_, _, head.union tail apart apart', fun part part' member => ?_⟩
      rcases List.mem_cons.mp member with same | member
      · cases same
        exact alike.union_left tail apart apart'
      · exact (later part part' member).union_right head apart apart'

theorem Alike.paired {bound : List String} {expr expr' : Expr}
    (alike : Alike (fun _ _ => True) keeps swaps bound expr expr') (nodup : expr.ids.Nodup)
    (nodup' : expr'.ids.Nodup) :
    ∃ kept roots, Pairing kept roots expr.ids expr'.ids ∧
      Paired keeps swaps kept roots expr.ids expr'.ids bound expr expr' := by
  induction alike with
  | literal _ value => exact ⟨_, _, pairing_single _ _, .literal ⟨rfl, rfl⟩ value⟩
  | ref _ kept => exact ⟨_, _, pairing_single _ _, .ref ⟨rfl, rfl⟩ kept⟩
  | @app bound id id' operator args args' _ kept length _ ih =>
    rw [ids_app] at nodup nodup' ⊢
    rw [ids_app]
    obtain ⟨fresh, nodup⟩ := List.nodup_cons.mp nodup
    obtain ⟨fresh', nodup'⟩ := List.nodup_cons.mp nodup'
    obtain ⟨_, _, pairing, each⟩ := paired_args length ih nodup nodup'
    have apart := List.singleton_disjoint.mpr fresh
    have apart' := List.singleton_disjoint.mpr fresh'
    exact ⟨_, _, (pairing_single id id').union pairing apart apart',
      .app (Or.inl ⟨rfl, rfl⟩) kept length fun arg arg' member =>
        (each arg arg' member).union_right (pairing_single id id') apart apart'⟩
  | @lambda bound id id' params params' body body' _ same _ ih =>
    rw [ids_lambda] at nodup nodup' ⊢
    rw [ids_lambda]
    obtain ⟨fresh, nodup⟩ := List.nodup_cons.mp nodup
    obtain ⟨fresh', nodup'⟩ := List.nodup_cons.mp nodup'
    obtain ⟨own, others, apart⟩ := List.nodup_append'.mp nodup
    obtain ⟨own', others', apart'⟩ := List.nodup_append'.mp nodup'
    obtain ⟨_, _, sites, named⟩ := pairing_params (same.imp fun _ _ => And.right) own own'
    obtain ⟨_, _, pairing, alike⟩ := ih others others'
    have both := sites.union pairing apart apart'
    have head := List.singleton_disjoint.mpr fresh
    have head' := List.singleton_disjoint.mpr fresh'
    exact ⟨_, _, (pairing_single id id').union both head head', .lambda (Or.inl ⟨rfl, rfl⟩)
      (named.imp fun _ _ pair => ⟨Or.inr (Or.inl pair.1), pair.2⟩)
      ((alike.union_right sites apart apart').union_right (pairing_single id id') head head')⟩
  | @letIn bound id id' defId defId' name first first' second second' _ _ _ _ ih ih' =>
    rw [ids_letIn] at nodup nodup' ⊢
    rw [ids_letIn]
    obtain ⟨fresh, nodup⟩ := List.nodup_cons.mp nodup
    obtain ⟨fresh', nodup'⟩ := List.nodup_cons.mp nodup'
    obtain ⟨site, nodup⟩ := List.nodup_cons.mp nodup
    obtain ⟨site', nodup'⟩ := List.nodup_cons.mp nodup'
    obtain ⟨own, others, apart⟩ := List.nodup_append'.mp nodup
    obtain ⟨own', others', apart'⟩ := List.nodup_append'.mp nodup'
    obtain ⟨_, _, outer, alike⟩ := ih own own'
    obtain ⟨_, _, inner, alike'⟩ := ih' others others'
    have both := outer.union inner apart apart'
    have middle := List.singleton_disjoint.mpr site
    have middle' := List.singleton_disjoint.mpr site'
    have below := (pairing_single defId defId').union both middle middle'
    have head := List.singleton_disjoint.mpr fresh
    have head' := List.singleton_disjoint.mpr fresh'
    exact ⟨_, _, (pairing_single id id').union below head head',
      .letIn (Or.inl ⟨rfl, rfl⟩) (Or.inr (Or.inl ⟨rfl, rfl⟩))
        (((alike.union_left inner apart apart').union_right (pairing_single defId defId') middle
          middle').union_right (pairing_single id id') head head')
        (((alike'.union_right outer apart apart').union_right (pairing_single defId defId') middle
          middle').union_right (pairing_single id id') head head')⟩
  | @swap bound old new swapped =>
    exact ⟨_, _, pairing_root old new, .swap ⟨swapped, ⟨rfl, rfl⟩, List.Subset.refl _,
      List.Subset.refl _, False.elim, fun pair _ => pair⟩⟩

end Pairs

/-- The one expression with `new` in the place of `old`, around which these names are bound. -/
inductive Within (old new : Expr) : List String → Expr → Expr → Prop
  | here : Within old new [] old new
  | app {names : List String} {id : NodeId} {operator : String} {before after : List Expr}
    {arg arg' : Expr} (inner : Within old new names arg arg') :
    Within old new names (.app id operator (before ++ arg :: after))
      (.app id operator (before ++ arg' :: after))
  | lambda {names : List String} {id : NodeId} {params : List Param} {body body' : Expr}
    (inner : Within old new names body body') :
    Within old new (names ++ params.map Param.name) (.lambda id params body) (.lambda id params body')
  | bound {names : List String} {id defId : NodeId} {name : String} {first first' second : Expr}
    (inner : Within old new names first first') :
    Within old new (names ++ [name]) (.letIn id defId name first second)
      (.letIn id defId name first' second)
  | body {names : List String} {id defId : NodeId} {name : String} {first second second' : Expr}
    (inner : Within old new names second second') :
    Within old new (names ++ [name]) (.letIn id defId name first second)
      (.letIn id defId name first second')

theorem Within.alike {old new expr expr' : Expr} {names : List String}
    (within : Within old new names expr expr') (around : List String) :
    Alike (fun _ _ => True) (fun _ _ => True)
      (fun bound part part' => part = old ∧ part' = new ∧ bound = names ++ around)
      around expr expr' := by
  have same : ∀ {swaps : List String → Expr → Expr → Prop} (bound : List String) (expr : Expr),
      Alike (fun _ _ => True) (fun _ _ => True) swaps bound expr expr :=
    Alike.refl (fun _ => trivial) fun _ _ => trivial
  induction within generalizing around with
  | here => exact .swap ⟨rfl, rfl, rfl⟩
  | @app names id operator before after arg arg' _ ih =>
    refine .app trivial trivial (by simp) fun part part' member => ?_
    rw [List.zip_append rfl, List.zip_cons_cons] at member
    have equal : ∀ {parts : List Expr}, (part, part') ∈ parts.zip parts → part = part' := by
      intro parts member
      rw [List.zip_eq_zipWith, List.zipWith_self] at member
      obtain ⟨_, _, same⟩ := List.mem_map.mp member
      cases same
      rfl
    rcases List.mem_append.mp member with member | member
    · exact equal member ▸ same around part
    · rcases List.mem_cons.mp member with found | member
      · cases found
        exact ih around
      · exact equal member ▸ same around part
  | lambda _ ih =>
    refine .lambda trivial (List.forall₂_same.mpr fun _ _ => ⟨trivial, rfl⟩) ?_
    simpa only [List.append_assoc] using ih _
  | @bound names id defId name _ _ _ _ ih =>
    refine .letIn trivial trivial ?_ (same _ _)
    simpa only [List.append_assoc, List.singleton_append] using ih (name :: around)
  | @body names id defId name _ _ _ _ ih =>
    refine .letIn trivial trivial (same _ _) ?_
    simpa only [List.append_assoc, List.singleton_append] using ih (name :: around)

theorem Within.ids_sublist {old new expr expr' : Expr} {names : List String}
    (within : Within old new names expr expr') :
    old.ids.Sublist expr.ids ∧ new.ids.Sublist expr'.ids := by
  induction within with
  | here => exact ⟨List.Sublist.refl _, List.Sublist.refl _⟩
  | app _ ih =>
    simp only [ids_app, List.flatMap_append, List.flatMap_cons]
    exact ⟨((ih.1.trans (List.sublist_append_left _ _)).trans (List.sublist_append_right _ _)).cons _,
      ((ih.2.trans (List.sublist_append_left _ _)).trans (List.sublist_append_right _ _)).cons _⟩
  | lambda _ ih =>
    simp only [ids_lambda]
    exact ⟨(ih.1.trans (List.sublist_append_right _ _)).cons _,
      (ih.2.trans (List.sublist_append_right _ _)).cons _⟩
  | bound _ ih =>
    simp only [ids_letIn]
    exact ⟨((ih.1.trans (List.sublist_append_left _ _)).cons _).cons _,
      ((ih.2.trans (List.sublist_append_left _ _)).cons _).cons _⟩
  | body _ ih =>
    simp only [ids_letIn]
    exact ⟨((ih.1.trans (List.sublist_append_right _ _)).cons _).cons _,
      ((ih.2.trans (List.sublist_append_right _ _)).cons _).cons _⟩

mutual

def freeNames : Expr → List String
  | .literal _ _ => []
  | .ref _ name => [name]
  | .app _ operator args => operator :: freeNamesOf args
  | .lambda _ params body => (freeNames body).filter (· ∉ params.map Param.name)
  | .letIn _ _ name first second => (freeNames first ++ freeNames second).filter (· ≠ name)

def freeNamesOf : List Expr → List String
  | [] => []
  | expr :: rest => freeNames expr ++ freeNamesOf rest

end

theorem freeNamesOf_eq (exprs : List Expr) : freeNamesOf exprs = exprs.flatMap freeNames := by
  induction exprs with
  | nil => rfl
  | cons expr rest ih => rw [freeNamesOf, ih, List.flatMap_cons]

/-- The same expression under other ids. -/
def Copy (expr copy : Expr) : Prop :=
  Alike (fun _ _ => True) (fun _ _ => True) (fun _ _ _ => False) [] expr copy

/-- A use that does not mean the name: it is another name, or the name is bound again. -/
def Spares (name : String) (bound : List String) (other : String) : Prop :=
  other ≠ name ∨ name ∈ bound

/-- A reference to the name, and a copy of its value in which no name is captured. -/
structure Inlines (name : String) (value : Expr) (bound : List String) (part copy : Expr) : Prop where
  reference : ∃ id, part = .ref id name
  unbound : name ∉ bound
  copied : value.Copy copy
  uncaptured : ∀ free ∈ value.freeNames, free ∉ bound

/-- Each reference to the name has become a copy of its value. The name is not used as an operator. -/
def Inlined (name : String) (value expr expr' : Expr) : Prop :=
  Alike (fun _ _ => True) (Spares name) (Inlines name value) [] expr expr'

theorem Spares.narrow {name other : String} {names bound : List String}
    (spares : Spares name (names ++ bound) other) (own : other ∉ names) : Spares name bound other := by
  by_cases same : other = name
  · subst same
    have inside := spares.resolve_left fun different => different rfl
    exact Or.inr ((List.mem_append.mp inside).resolve_left own)
  · exact Or.inl same

/-- A let has become its body with copies of the bound expression for the name, here or under lets
that are kept. The bound expressions of all these lets are listed from the outside, with the nodes of
their names. They do not use the names that are in the way: names that are bound around by lambdas or
by lets that are not listed. -/
inductive InlinedUnder : List String → List (NodeId × Expr) → Expr → Expr → Prop
  | here {names : List String} {id defId : NodeId} {name : String} {value body new : Expr}
    (free : ∀ used ∈ value.freeNames, used ∉ name :: names) (inlined : Inlined name value body new) :
    InlinedUnder names [(defId, value)] (.letIn id defId name value body) new
  | under {names inner : List String} {lets : List (NodeId × Expr)} {id defId : NodeId} {name : String}
    {value body body' old new : Expr} (free : ∀ used ∈ value.freeNames, used ∉ name :: names)
    (within : Within old new inner body body')
    (below : InlinedUnder (inner ++ names.filter (· ≠ name)) lets old new) :
    InlinedUnder names ((defId, value) :: lets) (.letIn id defId name value body)
      (.letIn id defId name value body')

theorem alike_of_free {allowed : String → Prop} {bound : List String} {expr copy : Expr}
    (alike : Alike (fun _ _ => True) (fun _ _ => True) (fun _ _ _ => False) bound expr copy)
    (free : ∀ name ∈ expr.freeNames, name ∈ bound ∨ allowed name) :
    Alike (fun _ _ => True) (fun bound name => name ∈ bound ∨ allowed name) (fun _ _ _ => False)
      bound expr copy := by
  induction alike with
  | literal _ value => exact .literal trivial value
  | ref _ _ => exact .ref trivial (free _ (List.mem_singleton_self _))
  | @app bound id id' operator args args' _ _ length _ ih =>
    rw [freeNames, freeNamesOf_eq] at free
    refine .app trivial (free _ List.mem_cons_self) length fun arg arg' member => ih arg arg' member ?_
    intro name used
    exact free name (List.mem_cons_of_mem _
      (List.mem_flatMap.mpr ⟨arg, (List.of_mem_zip member).1, used⟩))
  | @lambda bound id id' params params' body body' _ same _ ih =>
    refine .lambda trivial same (ih fun name used => ?_)
    by_cases own : name ∈ params.map Param.name
    · exact Or.inl (List.mem_append_left _ own)
    · rw [freeNames] at free
      exact (free name (List.mem_filter.mpr ⟨used, by simpa using own⟩)).imp
        (List.mem_append_right _) fun given => given
  | @letIn bound id id' defId defId' name first first' second second' _ _ _ _ ih ih' =>
    have inside : ∀ used ∈ first.freeNames ++ second.freeNames,
        used ∈ name :: bound ∨ allowed used := by
      intro used member
      by_cases own : used = name
      · exact Or.inl (own ▸ List.mem_cons_self)
      · rw [freeNames] at free
        exact (free used (List.mem_filter.mpr ⟨member, by simpa using own⟩)).imp
          (List.mem_cons_of_mem _) fun given => given
    exact .letIn trivial trivial (ih fun used member => inside used (List.mem_append_left _ member))
      (ih' fun used member => inside used (List.mem_append_right _ member))
  | swap absurd => exact absurd.elim

end Expr

namespace Declaration

/-- The expression of the declaration with this id has been replaced, in this declaration or inside
of it. -/
inductive Replaces (id : NodeId) (old new : Expr) : Declaration → Declaration → Prop
  | operator (name : String) :
    Replaces id old new (.operator ⟨id, name, old⟩) (.operator ⟨id, name, new⟩)
  | assumption (name : String) :
    Replaces id old new (.assumption id name old) (.assumption id name new)
  | submodule {moduleId : NodeId} {name : String} {before after : List Declaration}
    {declaration declaration' : Declaration} (inner : Replaces id old new declaration declaration') :
    Replaces id old new (.submodule moduleId name (before ++ declaration :: after))
      (.submodule moduleId name (before ++ declaration' :: after))

end Declaration

end SpecEffects
