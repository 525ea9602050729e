import SpecEffects.Proofs.StandardSignatures
import SpecEffects.Proofs.Inference.Invariants
import SpecEffects.Proofs.Inference.SignatureNames

/-!
The texts in a report can be read back. If signatures, state variables and parameters have names
that can be written, then so have all effects that inference comes by, and each text in the report
is read as the effect that it was made from.
-/
namespace SpecEffects

def IsWordText (text : String) : Prop := ∀ c ∈ text.toList, c.isAlphanum ∨ c = '_'

instance (text : String) : Decidable (IsWordText text) :=
  decidable_of_iff ((text.toList.all fun c => c.isAlphanum || c == '_') = true)
    (by simp [IsWordText])

def VariableSet.IsSpelled (set : VariableSet) : Prop := ∀ var ∈ set.concreteNames, IsIdentifier var

structure Term.Writable (term : Term) : Prop where
  canonical : term.Canonical
  names : term.Over fun _ => IsName
  vars : term.EverySet VariableSet.IsSpelled

theorem Term.writable_effect {effect : Effect} :
    (Term.effect effect).Writable ↔ effect.Writable := by
  constructor
  · rintro ⟨canonical, names, vars⟩
    refine ⟨canonical, fun name used => ?_, vars⟩
    obtain ⟨kind, used⟩ := Effect.mem_names.mp used
    exact names kind name used
  · rintro ⟨canonical, names, vars⟩
    exact ⟨canonical, fun kind name used => names name (Effect.mem_names.mpr ⟨kind, used⟩), vars⟩

theorem Term.writable_quantified (kind : Kind) {name : String} (isName : IsName name) :
    (kind.quantified name).Writable := by
  refine ⟨canonical_quantified kind name, fun other name' used => ?_, ?_⟩
  · rw [(uses_quantified.mp used).2]
    exact isName
  · cases kind
    · exact .quantified name
    · exact (VariableSet.writable_quantified isName).2.2

namespace Substitution

variable {σ new existing composed : Substitution}

def Writable (σ : Substitution) : Prop := ∀ binding ∈ σ.bindings, binding.value.Writable

theorem isSpelled_applyToVariables (values : σ.EverySet VariableSet.IsSpelled)
    {set result : VariableSet} (spelled : set.IsSpelled)
    (run : σ.applyToVariables set = .ok result) : result.IsSpelled := by
  intro var used
  rcases (mem_concreteNames_applyToVariables run var).mp used with before | ⟨name, _, used⟩
  · exact spelled var before
  · have value := everySet_valueAt values
      (fun name var used => (SortedSet.not_mem_empty var used).elim) .variables name
    generalize σ.valueAt .variables name = term at used value
    cases term
    · exact (SortedSet.not_mem_empty var used).elim
    · exact value var used

theorem writable_applyToTerm (values : σ.Writable) {term result : Term} (writable : term.Writable)
    (run : σ.applyToTerm term = .ok result) : result.Writable := by
  refine ⟨canonical_applyToTerm (fun binding member => (values binding member).canonical)
      writable.canonical run,
    over_applyToTerm (fun binding member => (values binding member).names) writable.names run, ?_⟩
  have vars : σ.EverySet VariableSet.IsSpelled := fun binding member => (values binding member).vars
  exact everySet_applyToTerm vars (isSpelled_applyToVariables vars) writable.vars run

theorem writable_apply (values : σ.Writable) {effect result : Effect} (writable : effect.Writable)
    (run : σ.apply effect = .ok result) : result.Writable :=
  Term.writable_effect.mp (writable_applyToTerm values (Term.writable_effect.mpr writable)
    (applyToTerm_effect.mpr ⟨result, run, rfl⟩))

theorem writable_compose (news : new.Writable) (olds : existing.Writable)
    (run : new.compose existing = .ok composed) : composed.Writable := by
  intro binding member
  rcases mem_compose run member with ⟨before, present, _, value⟩ | ⟨present, _⟩
  · exact writable_applyToTerm news (olds before present) value
  · exact news binding present

end Substitution

theorem Effect.unify_writable {A B : Effect} {σ : Substitution} (writable : A.Writable)
    (writable' : B.Writable) (run : A.unify B = .ok σ) : σ.Writable := by
  have canonical := (Effect.unify_canonical writable.canonical writable'.canonical run).1
  have names := (Effect.unify_over (Term.writable_effect.mpr writable).names
    (Term.writable_effect.mpr writable').names run).values
  have vars : σ.EverySet VariableSet.IsSpelled := by
    refine Effect.unify_everySet (fun values => Substitution.isSpelled_applyToVariables values)
      ?_ writable.vars writable'.vars run
    intro sets set every member var used
    exact every var (VariableSet.mem_concreteNames_union.mpr ⟨set, member, used⟩)
  exact fun binding member =>
    ⟨canonical binding member, names binding member, vars binding member⟩

theorem isName_of_toList {text : String} {c : Char} {rest : List Char}
    (chars : text.toList = c :: rest) (first : c.isLower ∨ c = '_')
    (others : ∀ d ∈ rest, d.isAlphanum ∨ d = '_') : IsName text := by
  have start : c.isAlpha ∨ c = '_' := first.imp_left fun lower => by
    show (c.isUpper || c.isLower) = true
    rw [lower, Bool.or_true]
  have own : c.isAlphanum ∨ c = '_' := start.imp_left fun letter => by
    simp [Char.isAlphanum, letter]
  refine ⟨⟨⟨c, by rw [chars]; rfl, start⟩, ?_⟩, ?_⟩
  · rw [chars]
    exact List.forall_mem_cons.mpr ⟨own, others⟩
  · intro word
    simp only [List.mem_cons, List.not_mem_nil, or_false] at word
    rcases word with rfl | rfl | rfl | rfl <;> cases chars <;> revert first <;> decide

theorem isAlphanum_of_mem_toDigits {n : Nat} {c : Char} (member : c ∈ Nat.toDigits 10 n) :
    c.isAlphanum ∨ c = '_' := by
  have digit := Nat.isDigit_of_mem_toDigits (by decide) (by decide) member
  exact Or.inl (by simp [Char.isAlphanum, digit])

namespace Signature

theorem isName_argument (component : Component) (index : Nat) :
    IsName (componentLetter component ++ toString index) := by
  have chars : ∃ c : Char, c.isLower ∧ (componentLetter component).toList = [c] := by
    cases component
    · exact ⟨'r', by decide⟩
    · exact ⟨'u', by decide⟩
    · exact ⟨'t', by decide⟩
  obtain ⟨c, lower, letter⟩ := chars
  have numbered : (componentLetter component ++ toString index).toList =
      c :: Nat.toDigits 10 index := by
    rw [String.toList_append, letter, Inference.toList_digits]
    rfl
  exact isName_of_toList numbered (Or.inl lower) fun d member => isAlphanum_of_mem_toDigits member

theorem writable_argumentSet (component : Component) (index : Nat) :
    (argumentSet component index).Writable :=
  VariableSet.writable_quantified (isName_argument component index)

theorem writable_propagate (components : List Component) (arity : Nat) :
    (instantiate (.propagate components) arity).Writable := by
  refine Effect.writable_arrow.mpr ⟨fun param member => ?_, ?_⟩
  · obtain ⟨index, _, rfl⟩ := List.mem_map.mp member
    refine Effect.Parsing.writable_ofParts fun part member => ?_
    obtain ⟨component, _, rfl⟩ := List.mem_map.mp member
    exact writable_argumentSet component index
  · refine Effect.Parsing.writable_ofParts fun part member => ?_
    obtain ⟨component, _, rfl⟩ := List.mem_map.mp member
    refine VariableSet.writable_join fun set member => ?_
    obtain ⟨index, _, rfl⟩ := List.mem_map.mp member
    exact writable_argumentSet component index

end Signature

namespace SignatureTable

def Writable (signatures : SignatureTable) : Prop :=
  ∀ {operator arity effect}, signatures.signature? operator arity = some effect → effect.Writable

theorem writable_fixedSignatures : ∀ entry ∈ fixedSignatures, entry.2.Writable := by
  decide +kernel

theorem writable_standard : Writable standard :=
  of_standard Signature.writable_propagate writable_fixedSignatures

theorem writable_of_document {text : String} {signatures : SignatureTable}
    (read : ofDocument text = .ok signatures) : signatures.Writable := by
  intro operator arity effect found
  obtain ⟨signature, listed, rfl⟩ := Option.map_eq_some_iff.mp found
  cases signature with
  | propagate components => exact Signature.writable_propagate components arity
  | fixed effect =>
    obtain ⟨⟨_, parsed⟩, _⟩ := parsed_of_document read listed
    exact Effect.writable_of_parse parsed

end SignatureTable

namespace Inference

open Substitution

theorem isName_numbered (kind : Kind) (n : Nat) : IsName (numbered kind n) := by
  refine isName_of_toList (toList_numbered kind n) (Or.inr rfl)
    (List.forall_mem_cons.mpr ⟨?_, fun d member => isAlphanum_of_mem_toDigits member⟩)
  cases kind <;> decide

theorem isName_placeholder {param : String} (plain : IsWordText param) (lambda : NodeId) :
    IsName (placeholder param lambda) := by
  refine isName_of_toList (toList_placeholder param lambda) (Or.inl (by decide)) fun d member => ?_
  rcases List.mem_cons.mp member with rfl | member
  · exact Or.inr rfl
  · rcases List.mem_append.mp member with member | member
    · exact plain d member
    · rcases List.mem_cons.mp member with rfl | member
      · exact Or.inr rfl
      · exact isAlphanum_of_mem_toDigits member

theorem Renames.writable {lo hi : FreshNames} {σ : Substitution} (renames : Renames lo hi σ) :
    σ.Writable := by
  intro binding member
  obtain ⟨kind, n, _, _, value⟩ := renames binding member
  rw [value]
  exact Term.writable_quantified kind (isName_numbered kind n)

structure Legible (state : State) : Prop where
  effects : ∀ {id effect}, state.effects.get? id = some effect → effect.Writable
  running : state.running.Writable

namespace Legible

variable {state opened after : State}

theorem start : Legible .start := by
  refine ⟨fun {id effect} found => ?_, fun binding member => ?_⟩
  · cases found
  · cases member

theorem congr (legible : Legible state) (effects : after.effects = state.effects)
    (running : after.running = state.running) : Legible after :=
  ⟨fun found => legible.effects (effects ▸ found), running ▸ legible.running⟩

theorem record (legible : Legible state) {effect : Effect} (writable : effect.Writable)
    (id : NodeId) : Legible (state.record id effect) := by
  refine ⟨fun {other found} recorded => ?_, legible.running⟩
  rcases eq_or_found_of_record recorded with rfl | recorded
  · exact writable
  · exact legible.effects recorded

theorem instantiate (legible : Legible state) {general : Effect} (writable : general.Writable)
    {result : Except KindClash Effect} (run : state.instantiate general = (result, opened)) :
    Legible opened ∧ ∀ copy, result = .ok copy → copy.Writable := by
  have inst := instantiated run
  refine ⟨⟨fun found => legible.effects (inst.effects ▸ found), ?_⟩, fun copy same => ?_⟩
  · rcases inst.running with same | ⟨learned, renames, _, added⟩
    · rw [same]
      exact legible.running
    · exact writable_compose renames.writable legible.running added
  · obtain ⟨ρ, renames, _, applied⟩ := inst.copy copy same
    exact writable_apply renames.writable writable applied

theorem solve (legible : Legible state) {signature used result effect : Effect}
    (writable : signature.Writable) (asked : used.Writable) (named : result.Writable)
    (run : state.solve signature used result = .ok (effect, after)) :
    Legible after ∧ effect.Writable := by
  obtain ⟨learned, running, effects, solved, added, changed, applied, rfl⟩ := solve_eq_ok run
  have values : learned.Writable := Effect.unify_writable writable asked solved
  refine ⟨⟨fun {id found} recorded => ?_, writable_compose values legible.running added⟩,
    writable_apply values named applied⟩
  obtain ⟨before, earlier, done⟩ := SortedMap.exists_of_get?_mapValues changed recorded
  exact writable_apply values (legible.effects earlier) done

end Legible

theorem writable_resultName (state : State) : (Effect.quantified (resultName state)).Writable := by
  rw [resultName_eq]
  exact Effect.writable_quantified.mpr (isName_numbered _ _)

theorem writable_reads {name : String} (isIdentifier : IsIdentifier name) :
    (Effect.reads name).Writable := by
  refine Effect.writable_concrete.mpr fun component => ?_
  cases component
  · exact VariableSet.writable_single isIdentifier
  · exact VariableSet.writable_empty
  · exact VariableSet.writable_empty

def keepsLegible {signatures : SignatureTable} (table : signatures.Writable) :
    Invariant signatures IsIdentifier IsWordText where
  Holds := Legible
  Fits _ effect := effect.Writable
  start := .start
  later legible _ _ := legible.congr rfl rfl
  failed legible id error := legible.congr (effects_recordError _ _ _) (running_recordError _ _ _)
  record legible _ fits id := legible.record fits id
  recorded legible _ _ found := legible.effects found
  empty _ := Effect.Parsing.writable_empty
  reads _ _ declared := writable_reads declared
  param _ _ named lambda := Effect.writable_quantified.mpr (isName_placeholder named lambda)
  learned legible _ named lambda _ run :=
    have writable := Effect.writable_quantified.mpr (isName_placeholder named lambda)
    writable_apply legible.running writable run
  arrow each fits := Effect.writable_arrow.mpr ⟨each, fits⟩
  copied legible _ supplied _ run := by
    refine legible.instantiate ?_ run
    cases supplied with
    | builtin found => exact table found
    | constant components arity => exact Signature.writable_propagate components arity
    | recorded found => exact legible.effects found
  solved {opened _} legible _ _ _ fits each run := by
    have begun : Legible (withResult opened) := legible.congr rfl rfl
    have named := writable_resultName opened
    exact begun.solve fits (Effect.writable_arrow.mpr ⟨each, named⟩) named run

end Inference

theorem Analysis.get?_report (analysis : Analysis) (id : NodeId) :
    analysis.report.effects.get? id = (analysis.effects.get? id).map Effect.text := by
  simp [Analysis.report, SortedMap.get?, List.find?_map, Function.comp_def]

namespace Inference

/-- Where the builtins are those of the language or come from a document, and the names of a module
can be written, each text of the report is read as the effect of its node. Hence all effects are
canonical, and effects with the same text are the same. -/
theorem report_is_read_back {signatures : SignatureTable}
    (given : signatures = .standard ∨ ∃ text, SignatureTable.ofDocument text = .ok signatures)
    {m : Module} (distinct : m.ids.Nodup) (vars : ∀ name ∈ m.stateVariables, IsIdentifier name)
    (params : ∀ param ∈ m.params, IsWordText param.name) :
    ∃ analysis, m.analyze signatures = .ok analysis ∧
      (∀ id text, analysis.report.effects.get? id = some text →
        ∃ effect, Effect.parse text = .ok effect ∧ analysis.effectOf? id = some effect) ∧
      (∀ id effect, analysis.effectOf? id = some effect →
        effect.Canonical ∧ analysis.report.effects.get? id = some effect.text) ∧
      ∀ id id' text, analysis.report.effects.get? id = some text →
        analysis.report.effects.get? id' = some text →
          analysis.effectOf? id = analysis.effectOf? id' := by
  have table : signatures.Writable := by
    rcases given with rfl | ⟨text, read⟩
    · exact SignatureTable.writable_standard
    · exact SignatureTable.writable_of_document read
  obtain ⟨state, run⟩ : ∃ state, m.infer signatures = .ok state := inferModule_total distinct .start
  have legible : Legible state :=
    (keepsLegible table).holds_of_visits vars params (visitsModule_of_run run)
  have read : ∀ id text, state.analysis.report.effects.get? id = some text →
      ∃ effect, Effect.parse text = .ok effect ∧ state.analysis.effectOf? id = some effect := by
    intro id text reported
    rw [Analysis.get?_report] at reported
    obtain ⟨effect, found, rfl⟩ := Option.map_eq_some_iff.mp reported
    exact ⟨effect, Effect.parse_text (legible.effects found), found⟩
  refine ⟨state.analysis, ?_, read, fun id effect found => ⟨?_, ?_⟩,
    fun id id' text reported reported' => ?_⟩
  · rw [Module.analyze, run]
    rfl
  · exact (legible.effects found).canonical
  · rw [Analysis.get?_report]
    exact congrArg (Option.map Effect.text) found
  · obtain ⟨effect, parsed, found⟩ := read id text reported
    obtain ⟨effect', parsed', found'⟩ := read id' text reported'
    cases parsed.symm.trans parsed'
    exact found.trans found'.symm

/-- A variable is called like a word of the syntax, as is one in a signature, and a parameter like a
number. -/
theorem report_of_names_like_words :
    let document :=
      "\x7b\"b\": \x7b\"effect\": \"(e_9_4, Read[Update1]) => Read[Update1, 'Pure']\"\x7d, " ++
      "\"c\": \x7b\"effect\": \"((e) => Read[v], e) => Read[v, 'x'] & Temporal[v]\"\x7d\x7d"
    let signatures : SignatureTable := .ofList
      [("b", .fixed (.arrow
          [.quantified "e_9_4", .concrete ⟨.quantified "Update1", .empty, .empty⟩]
          (.concrete ⟨.union [.quantified "Update1", .concrete (.singleton "Pure")], .empty,
            .empty⟩))),
        ("c", .fixed (.arrow
          [.arrow [.quantified "e"] (.concrete ⟨.quantified "v", .empty, .empty⟩), .quantified "e"]
          (.concrete ⟨.union [.quantified "v", .concrete (.singleton "x")], .empty,
            .quantified "v"⟩)))]
    let m : Module := ⟨⟨1⟩, "M",
      [.stateVariable ⟨2⟩ "Read",
        .operator ⟨⟨3⟩, "f",
          .lambda ⟨4⟩ [⟨⟨5⟩, "9"⟩] (.app ⟨6⟩ "b" [.ref ⟨7⟩ "9", .ref ⟨8⟩ "Read"])⟩,
        .operator ⟨⟨9⟩, "g", .lambda ⟨10⟩ [⟨⟨11⟩, "p"⟩, ⟨⟨12⟩, "_"⟩]
          (.app ⟨13⟩ "c" [.ref ⟨14⟩ "p", .ref ⟨15⟩ "_"])⟩,
        .operator ⟨⟨16⟩, "h", .app ⟨17⟩ "c" [.ref ⟨18⟩ "f", .ref ⟨19⟩ "Read"]⟩]⟩
    SignatureTable.ofDocument document = .ok signatures ∧ m.ids.Nodup ∧
      (∀ name ∈ m.stateVariables, IsIdentifier name) ∧
      (∀ param ∈ m.params, IsWordText param.name) ∧
      ∃ analysis, m.analyze signatures = .ok analysis ∧
        [⟨4⟩, ⟨10⟩, ⟨17⟩].map analysis.report.effects.get? =
          [some "(e_9_4) => Read['Pure', 'Read']",
            some "((e___10) => Read[_v1], e___10) => Read[_v1, 'x'] & Temporal[_v1]",
            some "Read['Pure', 'Read', 'x'] & Temporal['Pure', 'Read']"] ∧
        (∀ id text, analysis.report.effects.get? id = some text →
          ∃ effect, Effect.parse text = .ok effect ∧ analysis.effectOf? id = some effect) ∧
        (∀ id effect, analysis.effectOf? id = some effect →
          effect.Canonical ∧ analysis.report.effects.get? id = some effect.text) ∧
        ∀ id id' text, analysis.report.effects.get? id = some text →
          analysis.report.effects.get? id' = some text →
            analysis.effectOf? id = analysis.effectOf? id' := by
  intro document signatures m
  have read : SignatureTable.ofDocument document = .ok signatures := by
    obtain ⟨table, run, entries⟩ := exists_ok SortedMap.entries (show
      (SignatureTable.ofDocument document).toOption.map SortedMap.entries =
        some signatures.entries by decide +kernel)
    rw [run, SortedMap.eq_of_entries entries]
  have distinct : m.ids.Nodup := by decide
  have vars : ∀ name ∈ m.stateVariables, IsIdentifier name := by decide +kernel
  have params : ∀ param ∈ m.params, IsWordText param.name := by decide +kernel
  obtain ⟨analysis, analyzed, readBack⟩ :=
    report_is_read_back (.inr ⟨document, read⟩) distinct vars params
  obtain ⟨found, same, texts⟩ := exists_ok
    (fun analysis : Analysis => [⟨4⟩, ⟨10⟩, ⟨17⟩].map analysis.report.effects.get?)
    (show (m.analyze signatures).toOption.map _ =
      some [some "(e_9_4) => Read['Pure', 'Read']",
        some "((e___10) => Read[_v1], e___10) => Read[_v1, 'x'] & Temporal[_v1]",
        some "Read['Pure', 'Read', 'x'] & Temporal['Pure', 'Read']"] by decide +kernel)
  cases analyzed.symm.trans same
  exact ⟨read, distinct, vars, params, analysis, analyzed, texts, readBack⟩

end Inference

end SpecEffects
