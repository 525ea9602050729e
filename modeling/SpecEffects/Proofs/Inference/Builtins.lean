import SpecEffects.Proofs.Inference.Reading

/-!
Builtins and name tables. A builtin is found in two ways: its name is listed in the tables, or it is
not defined there and the signatures are asked for it. Inference does the same in both cases, so it
does not depend on which builtins are listed, as long as no listed name is declared.
-/
namespace SpecEffects

namespace Inference

section Tables

variable {signatures : SignatureTable} {names names' : List String} {m n k : Module}

theorem sameSense_of_leads {scopes : ScopeTree} {id : NodeId} {path : List NodeId}
    (leads : scopes.Leads id path) (apart : ∀ name ∈ k.declaredNames, name ∉ names ∧ name ∉ names')
    (name : String) :
    SameSense ⟨signatures, .ofDeclarations names k.declarations, scopes⟩
      ⟨signatures, .ofDeclarations names' k.declarations, scopes⟩ name id := by
  have resolved : ∀ names, Context.resolve
      ⟨signatures, .ofDeclarations names k.declarations, scopes⟩ name id =
        .ok (((path.flatMap (NameTable.ofDeclarations names k.declarations).localsAt).find?
            fun definition => definition.identifier = name).or
          (if name ∈ names then some (NameTable.builtin name)
            else k.declarations.findSome? (Declaration.introduces? name))) := by
    intro names
    rw [Context.resolve, NameTable.resolve_of_leads _ leads, NameTable.meaning,
      Module.find?_unscoped]
    rfl
  have locals : (NameTable.ofDeclarations names' k.declarations).localsAt =
      (NameTable.ofDeclarations names k.declarations).localsAt :=
    funext fun id => by rw [NameTable.localsAt_ofDeclarations, NameTable.localsAt_ofDeclarations]
  rw [SameSense, resolved, resolved, locals]
  cases (path.flatMap (NameTable.ofDeclarations names k.declarations).localsAt).find? _ with
  | some definition => exact Or.inl rfl
  | none =>
    cases declared : k.declarations.findSome? (Declaration.introduces? name) with
    | some definition =>
      obtain ⟨declaration, present, introduced⟩ := List.exists_of_findSome?_eq_some declared
      obtain ⟨absent, absent'⟩ := apart name (List.mem_filterMap.mpr
        ⟨declaration, present, (Declaration.introduces?_spec introduced).1⟩)
      rw [if_neg absent, if_neg absent']
      exact Or.inl rfl
    | none =>
      have builtin : ∀ names : List String,
          MeansBuiltin (if name ∈ names then some (NameTable.builtin name) else none) := by
        intro names
        split
        · exact ⟨rfl, rfl⟩
        · trivial
      exact Or.inr ⟨_, _, rfl, rfl, builtin names, builtin names'⟩

def listing (signatures : SignatureTable) (names : List String) (n k : Module) : Context :=
  ⟨signatures, .ofDeclarations names k.declarations, n.scopeTree⟩

theorem context_listing (owns : m.owner? n.name = some k) (names : List String) (state : State) :
    Environment.context ⟨signatures, m.nameTables names⟩ state n =
      .ok (listing signatures names n k) := by
  rw [Environment.context, Module.get?_nameTables, owns]
  rfl

variable (signatures) (distinct : m.ids.Nodup)
  (apart : ∀ n ∈ m.modules, ∀ name ∈ n.declaredNames, name ∉ names ∧ name ∉ names')

include distinct apart

theorem sense_listing (within : n ∈ m.modules) (owns : m.owner? n.name = some k)
    {declaration : Declaration} (present : declaration ∈ n.declarations) {node : Expr}
    (inside : node ∈ declaration.nodes) (name : String) :
    SameSense (listing signatures names n k) (listing signatures names' n k) name node.id := by
  obtain ⟨path, leads⟩ := Module.exists_leads (Module.nodup_ids distinct within) present inside
  exact sameSense_of_leads leads (apart k (Module.owner?_inside owns)) name

theorem inferDeclaration_listing (within : n ∈ m.modules) (owns : m.owner? n.name = some k)
    {declaration : Declaration} (present : declaration ∈ n.declarations) (state : State) :
    inferDeclaration ⟨signatures, m.nameTables names'⟩ (listing signatures names' n k) state
        declaration =
      inferDeclaration ⟨signatures, m.nameTables names⟩ (listing signatures names n k) state
        declaration := by
  induction declaration generalizing n k state with
  | stateVariable id name => rfl
  | constant id name => rfl
  | operator definition =>
    have body := inferExpr_sense (fun node inside name _ =>
      sense_listing signatures distinct apart within owns present inside name) rfl
    simp only [inferDeclaration, body]
  | assumption id name expr =>
    exact inferExpr_sense (fun node inside name _ =>
      sense_listing signatures distinct apart within owns present inside name) rfl state
  | submodule id name declarations ih =>
    obtain ⟨inner, rfl, rfl, rfl⟩ : ∃ inner : Module, inner.id = id ∧ inner.name = name ∧
        inner.declarations = declarations := ⟨⟨id, name, declarations⟩, rfl, rfl, rfl⟩
    have within' : inner ∈ m.modules :=
      Module.mem_modules.mpr (Module.mem_all_of_mem_declarations within present)
    obtain ⟨owner, owns'⟩ := Module.exists_owner within'
    simp only [inferDeclaration, context_listing owns']
    exact inferDeclarations_congr (fun declaration present' state =>
      ih declaration present' within' owns' present' state) state

/-- Inference of a module does the same whichever builtins are listed in its tables, as long as no
listed name is declared by one of its modules. Parameters and lets may use listed names. -/
theorem inference_is_independent_of_listed_builtins (state : State) :
    ∃ after, inferModule ⟨signatures, m.nameTables names⟩ state m = .ok after ∧
      inferModule ⟨signatures, m.nameTables names'⟩ state m = .ok after := by
  obtain ⟨after, run⟩ : ∃ after, inferModule ⟨signatures, m.nameTables names⟩ state m = .ok after :=
    inferModule_total distinct state
  refine ⟨after, run, ?_⟩
  have itself : m ∈ m.modules := Module.mem_modules.mpr m.toDeclaration.mem_all_self
  rw [inferModule, context_listing m.owner?_self] at run ⊢
  rw [← run]
  exact inferDeclarations_congr (fun declaration present state =>
    inferDeclaration_listing signatures distinct apart itself m.owner?_self present state) state

end Tables

/-- The builtin `b` is listed, and so are a name without a signature and the name of a parameter; or
none is listed. A let in a nested module defines `b` anew. -/
theorem inference_with_and_without_listed_builtins :
    let signatures : SignatureTable := .ofList [("b", .propagate [.read])]
    let m : Module := ⟨⟨1⟩, "M",
      [.stateVariable ⟨2⟩ "x",
        .operator ⟨⟨3⟩, "f", .lambda ⟨4⟩ [⟨⟨5⟩, "p"⟩] (.app ⟨6⟩ "b" [.ref ⟨7⟩ "p", .ref ⟨8⟩ "x"])⟩,
        .submodule ⟨9⟩ "N" [.stateVariable ⟨10⟩ "y", .operator ⟨⟨11⟩, "g",
          .letIn ⟨12⟩ ⟨13⟩ "b" (.ref ⟨14⟩ "y") (.ref ⟨15⟩ "b")⟩, .assumption ⟨16⟩ "a" (.ref ⟨17⟩ "c")]]⟩
    m.ids.Nodup ∧
      (∀ n ∈ m.modules, ∀ name ∈ n.declaredNames,
        name ∉ ["b", "c", "p"] ∧ name ∉ ([] : List String)) ∧
      ∃ after, inferModule ⟨signatures, m.nameTables ["b", "c", "p"]⟩ .start m = .ok after ∧
        inferModule ⟨signatures, m.nameTables []⟩ .start m = .ok after ∧
        after.effects.get? ⟨12⟩ = some (.reads "y") ∧ after.errors.keys = [⟨17⟩] := by
  intro signatures m
  have distinct : m.ids.Nodup := by decide
  have apart : ∀ n ∈ m.modules, ∀ name ∈ n.declaredNames,
      name ∉ ["b", "c", "p"] ∧ name ∉ ([] : List String) := by decide
  obtain ⟨after, run, run'⟩ :=
    inference_is_independent_of_listed_builtins signatures distinct apart .start
  obtain ⟨state, computed, seen⟩ := exists_ok
    (fun state : State => (state.effects.get? ⟨12⟩, state.errors.keys)) (show
      (inferModule ⟨signatures, m.nameTables []⟩ .start m).toOption.map _ =
        some (some (.reads "y"), [⟨17⟩]) by decide)
  cases run'.symm.trans computed
  exact ⟨distinct, apart, after, run, run', Prod.mk.inj seen⟩

end Inference

end SpecEffects
