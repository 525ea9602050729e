import Mathlib.Data.List.Forall2
import SpecEffects.Proofs.Names
import SpecEffects.Proofs.Readers

/-!
Effects as texts. An effect can be written when it is canonical, its names are identifiers, and no
quantified name is one of the words of the syntax. Reading a text yields no other effects, and an
effect that can be written is read back from the text in which it is printed.
-/
namespace SpecEffects

def IsIdentifier (text : String) : Prop :=
  (∃ c ∈ text.toList.head?, c.isAlpha ∨ c = '_') ∧ ∀ c ∈ text.toList, c.isAlphanum ∨ c = '_'

instance (text : String) : Decidable (IsIdentifier text) :=
  decidable_of_iff ((text.toList.head?.any fun c => c.isAlpha || c == '_') = true ∧
    (text.toList.all fun c => c.isAlphanum || c == '_') = true)
    (by simp [IsIdentifier, Option.any_eq_true])

def IsName (text : String) : Prop :=
  IsIdentifier text ∧ text ∉ ["Pure", "Read", "Update", "Temporal"]

instance (text : String) : Decidable (IsName text) := inferInstanceAs (Decidable (_ ∧ _))

namespace VariableSet

def Writable (set : VariableSet) : Prop :=
  set.Canonical ∧ (∀ name ∈ set.quantifiedNames, IsName name) ∧
    ∀ var ∈ set.concreteNames, IsIdentifier var

theorem writable_quantified {name : String} (isName : IsName name) :
    (quantified name).Writable := by
  refine ⟨trivial, fun other used => ?_, fun var used => (SortedSet.not_mem_empty var used).elim⟩
  cases SortedSet.mem_singleton.mp used
  exact isName

theorem writable_single {var : String} (isIdentifier : IsIdentifier var) :
    (concrete (.singleton var)).Writable := by
  refine ⟨trivial, fun name used => (SortedSet.not_mem_empty name used).elim, fun other used => ?_⟩
  cases SortedSet.mem_singleton.mp used
  exact isIdentifier

theorem writable_empty : empty.Writable :=
  ⟨trivial, fun name used => (SortedSet.not_mem_empty name used).elim,
    fun var used => (SortedSet.not_mem_empty var used).elim⟩

theorem writable_join {sets : List VariableSet} (each : ∀ set ∈ sets, set.Writable) :
    (join sets).Writable := by
  refine ⟨canonical_join sets, fun name used => ?_, fun var used => ?_⟩
  · obtain ⟨set, member, used⟩ := mem_quantifiedNames_join.mp used
    exact (each set member).2.1 name used
  · obtain ⟨set, member, used⟩ := mem_concreteNames_join.mp used
    exact (each set member).2.2 var used

end VariableSet

namespace Effect

structure Writable (effect : Effect) : Prop where
  canonical : effect.Canonical
  names : ∀ name ∈ effect.names, IsName name
  vars : effect.EverySet fun set => ∀ var ∈ set.concreteNames, IsIdentifier var

instance (effect : Effect) : Decidable effect.Writable :=
  have (set : VariableSet) : Decidable (∀ var ∈ set.concreteNames, IsIdentifier var) :=
    inferInstanceAs (Decidable (∀ var ∈ set.concreteNames.toList, IsIdentifier var))
  decidable_of_iff
    (effect.Canonical ∧ (∀ name ∈ effect.names.toList, IsName name) ∧
      effect.EverySet fun set => ∀ var ∈ set.concreteNames, IsIdentifier var)
    ⟨fun ⟨canonical, names, vars⟩ => ⟨canonical, names, vars⟩,
      fun ⟨canonical, names, vars⟩ => ⟨canonical, names, vars⟩⟩

theorem writable_concrete {footprint : Footprint} :
    (concrete footprint).Writable ↔ ∀ component, (footprint.get component).Writable := by
  constructor
  · rintro ⟨canonical, names, vars⟩ component
    refine ⟨everySet_concrete.mp canonical component, fun name used => names name ?_,
      everySet_concrete.mp vars component⟩
    exact mem_names.mpr ⟨.variables, uses_concrete.mpr ⟨component, rfl, used⟩⟩
  · intro each
    refine ⟨.concrete fun component => (each component).1, fun name used => ?_,
      .concrete fun component => (each component).2.2⟩
    obtain ⟨kind, used⟩ := mem_names.mp used
    obtain ⟨component, -, used⟩ := uses_concrete.mp used
    exact (each component).2.1 name used

theorem writable_quantified {name : String} : (quantified name).Writable ↔ IsName name := by
  constructor
  · intro writable
    exact writable.names name (mem_names.mpr ⟨.effect, uses_quantified.mpr ⟨rfl, rfl⟩⟩)
  · intro isName
    refine ⟨.quantified name, fun other used => ?_, .quantified name⟩
    obtain ⟨kind, used⟩ := mem_names.mp used
    rw [(uses_quantified.mp used).2]
    exact isName

theorem writable_arrow {params : List Effect} {result : Effect} :
    (arrow params result).Writable ↔ (∀ param ∈ params, param.Writable) ∧ result.Writable := by
  constructor
  · rintro ⟨canonical, names, vars⟩
    replace canonical := everySet_arrow.mp canonical
    replace vars := everySet_arrow.mp vars
    constructor
    · intro param member
      refine ⟨canonical.1 param member, fun name used => names name ?_, vars.1 param member⟩
      obtain ⟨kind, used⟩ := mem_names.mp used
      exact mem_names.mpr ⟨kind, uses_arrow.mpr (.inl ⟨param, member, used⟩)⟩
    · refine ⟨canonical.2, fun name used => names name ?_, vars.2⟩
      obtain ⟨kind, used⟩ := mem_names.mp used
      exact mem_names.mpr ⟨kind, uses_arrow.mpr (.inr used)⟩
  · rintro ⟨inputs, output⟩
    refine ⟨.arrow (fun param member => (inputs param member).canonical) output.canonical,
      fun name used => ?_, .arrow (fun param member => (inputs param member).vars) output.vars⟩
    obtain ⟨kind, used⟩ := mem_names.mp used
    rcases uses_arrow.mp used with ⟨param, member, used⟩ | used
    · exact (inputs param member).names name (mem_names.mpr ⟨kind, used⟩)
    · exact output.names name (mem_names.mpr ⟨kind, used⟩)

end Effect

namespace Effect.Parsing

open Text (Scanner)

variable {α : Type}

theorem isNameChar_iff {c : Char} : isNameChar c = true ↔ c.isAlphanum ∨ c = '_' := by
  simp [isNameChar]

theorem isNameChar_of_isNameStart {c : Char} (start : isNameStart c = true) :
    isNameChar c = true := by
  simp only [isNameStart, isNameChar, Char.isAlphanum, Bool.or_eq_true] at start ⊢
  rcases start with letter | mark
  · exact .inl (.inl letter)
  · exact .inr mark

theorem not_isNameChar_of_isBlank {c : Char} (blank : isBlank c = true) :
    isNameChar c = false := by
  simp only [isBlank, Bool.or_eq_true, decide_eq_true_eq] at blank
  rcases blank with (((rfl | rfl) | rfl) | rfl) | rfl <;> decide

theorem isIdentifier_ofList {c : Char} {rest : List Char} :
    IsIdentifier (String.ofList (c :: rest)) ↔
      isNameStart c = true ∧ ∀ d ∈ rest, isNameChar d = true := by
  simp only [IsIdentifier, String.toList_ofList, List.head?_cons, Option.mem_some_iff,
    exists_eq_left', List.forall_mem_cons, isNameChar_iff, isNameStart, Bool.or_eq_true,
    decide_eq_true_eq]
  constructor
  · rintro ⟨start, -, others⟩
    exact ⟨start, others⟩
  · rintro ⟨start, others⟩
    refine ⟨start, ?_, others⟩
    rcases start with letter | mark
    · exact .inl (by simp [Char.isAlphanum, letter])
    · exact .inr mark

theorem exists_chars {text : String} (isIdentifier : IsIdentifier text) :
    ∃ c rest, text = String.ofList (c :: rest) ∧ isNameStart c = true ∧
      ∀ d ∈ rest, isNameChar d = true := by
  obtain ⟨c, found, -⟩ := isIdentifier.1
  obtain ⟨rest, chars⟩ : ∃ rest, text.toList = c :: rest := by
    cases chars : text.toList with
    | nil =>
      rw [chars] at found
      cases found
    | cons first rest =>
      rw [chars] at found
      cases found
      exact ⟨rest, rfl⟩
  have eq : text = String.ofList (c :: rest) := by rw [← chars, String.ofList_toList]
  rw [eq, isIdentifier_ofList] at isIdentifier
  exact ⟨c, rest, eq, isIdentifier⟩

def Yields (reader : Scanner α) (P : α → Prop) : Prop :=
  ∀ ⦃cs a rest⦄, reader cs = some (a, rest) → P a

theorem identifier_yields : Yields identifier IsIdentifier := by
  intro cs text rest found
  obtain ⟨c, more, -, start, rfl, -⟩ := identifier_eq_some.mp found
  exact isIdentifier_ofList.mpr ⟨start, fun d member => List.all_eq_true.mp List.all_takeWhile d member⟩

theorem name_yields : Yields name IsName := by
  intro cs text rest found
  obtain ⟨read, other⟩ := name_eq_some.mp found
  exact ⟨identifier_yields read, other⟩

theorem member_yields : Yields member VariableSet.Writable := by
  intro cs set rest found
  rcases member_cases found with ⟨inside, var, -, read, rfl⟩ | ⟨text, read, rfl⟩
  · exact VariableSet.writable_single (identifier_yields read)
  · exact VariableSet.writable_quantified (name_yields read)

theorem following_yields {item : Scanner α} {P : α → Prop} (yields : Yields item P)
    (divider : List Char → Option (List Char)) (limit : Nat) (cs : List Char) :
    ∀ a ∈ (following item divider limit cs).1, P a := by
  induction limit generalizing cs with
  | zero => exact fun _ absurd => nomatch absurd
  | succ limit ih =>
    unfold following
    split
    · exact fun _ absurd => nomatch absurd
    · rename_i first rest found
      obtain ⟨_, _, found⟩ := Option.bind_eq_some_iff.mp found
      intro a member
      rcases List.mem_cons.mp member with rfl | member
      · exact yields found
      · exact ih rest a member

theorem separated_yields {item : Scanner α} {P : α → Prop} (yields : Yields item P)
    {divider : List Char → Option (List Char)} {cs rest : List Char} {as : List α}
    (run : separated item divider cs = (as, rest)) : ∀ a ∈ as, P a := by
  unfold separated at run
  split at run
  · cases run
    exact fun _ absurd => nomatch absurd
  · rename_i found
    cases run
    intro a member
    rcases List.mem_cons.mp member with rfl | member
    · exact yields found
    · exact following_yields yields divider _ _ a member

theorem component_yields : Yields component fun part => part.2.Writable := by
  intro cs part rest found
  obtain ⟨_, _, _, members, _, _, _, run, _, rfl⟩ := component_eq_some.mp found
  exact VariableSet.writable_join (separated_yields member_yields run)

theorem writable_empty : Effect.empty.Writable := by
  refine writable_concrete.mpr fun component => ?_
  cases component <;> exact VariableSet.writable_empty

theorem pureWord_yields : Yields pureWord Writable := by
  intro cs effect rest found
  obtain ⟨-, -, rfl⟩ := pureWord_eq_some.mp found
  exact writable_empty

theorem writable_ofParts {parts : List (Component × VariableSet)}
    (each : ∀ part ∈ parts, part.2.Writable) : (concrete (.ofParts parts)).Writable := by
  refine writable_concrete.mpr fun component => ?_
  rw [Footprint.get_ofParts]
  refine VariableSet.writable_join fun set member => ?_
  obtain ⟨part, listed, chosen⟩ := List.mem_filterMap.mp member
  split at chosen
  · cases chosen
    exact each part listed
  · cases chosen

theorem components_yields : Yields components Writable := by
  intro cs effect rest found
  obtain ⟨parts, -, run, rfl⟩ := components_eq_some.mp found
  exact writable_ofParts (separated_yields component_yields run)

theorem quantified_yields : Yields quantified Writable := by
  intro cs effect rest found
  obtain ⟨text, read, rfl⟩ := quantified_eq_some.mp found
  exact writable_quantified.mpr (name_yields read)

theorem arrow_yields {reader : Scanner Effect} (yields : Yields reader Writable) :
    Yields (arrow reader) Writable := by
  intro cs effect rest found
  obtain ⟨_, params, _, _, _, result, -, inputs, -, -, output, rfl⟩ := arrow_eq_some.mp found
  exact writable_arrow.mpr ⟨separated_yields yields inputs, yields output⟩

theorem effect_yields (depth : Nat) : Yields (effect depth) Writable := by
  induction depth with
  | zero =>
    intro cs effect rest found
    cases found
  | succ depth ih =>
    intro cs effect rest found
    rcases effect_cases found with found | found | found | found
    · exact arrow_yields ih found
    · exact pureWord_yields found
    · exact components_yields found
    · exact quantified_yields found

/-- The reader takes the text from the front of all that may come next. -/
def Reads (reader : Scanner α) (Next : List Char → Prop) (text : String) (a : α) : Prop :=
  ∀ ⦃rest⦄, Next rest → reader (text.toList ++ rest) = some (a, rest)

def Cut (rest : List Char) : Prop := ∀ c ∈ rest.head?, isNameChar c = false

theorem cut_cons {c : Char} {rest : List Char} (other : isNameChar c = false) : Cut (c :: rest) := by
  intro d found
  cases found
  exact other

theorem cut_iff_head {rest : List Char} : Cut rest ↔ rest.head?.any isNameChar = false := by
  cases rest with
  | nil => simp [Cut]
  | cons c more => simp [Cut]

theorem identifier_reads {text : String} (isIdentifier : IsIdentifier text) :
    Reads identifier Cut text text := by
  intro rest cut
  obtain ⟨c, others, rfl, start, inside⟩ := exists_chars isIdentifier
  have stops : rest.takeWhile isNameChar = [] ∧ rest.dropWhile isNameChar = rest := by
    cases rest with
    | nil => exact ⟨rfl, rfl⟩
    | cons d more =>
      have other : isNameChar d = false := cut d rfl
      simp [other]
  rw [String.toList_ofList, List.cons_append, identifier, if_pos start,
    List.takeWhile_append_of_pos inside, List.dropWhile_append_of_pos inside, stops.1, stops.2,
    List.append_nil]

theorem name_reads {text : String} (isName : IsName text) : Reads name Cut text text := by
  intro rest cut
  exact name_eq_some.mpr ⟨identifier_reads isName.1 cut, isName.2⟩

def Solid (text : String) : Prop := ∃ c more, text.toList = c :: more ∧ isBlank c = false

theorem skipBlanks_cons {c : Char} {rest : List Char} (solid : isBlank c = false) :
    skipBlanks (c :: rest) = c :: rest := by
  simp [skipBlanks, solid]

theorem skipBlanks_blank (rest : List Char) : skipBlanks (' ' :: rest) = skipBlanks rest := rfl

theorem Solid.skipBlanks {text : String} (solid : Solid text) (rest : List Char) :
    Parsing.skipBlanks (text.toList ++ rest) = text.toList ++ rest := by
  obtain ⟨c, more, chars, start⟩ := solid
  rw [chars]
  exact skipBlanks_cons start

theorem solid_of_isIdentifier {text : String} (isIdentifier : IsIdentifier text) : Solid text := by
  obtain ⟨c, more, rfl, start, -⟩ := exists_chars isIdentifier
  refine ⟨c, more, String.toList_ofList, ?_⟩
  by_contra blank
  have other := not_isNameChar_of_isBlank (Bool.of_not_eq_false blank)
  rw [isNameChar_of_isNameStart start] at other
  cases other

theorem symbol_cons {mark : Char} {rest : List Char} (solid : isBlank mark = false) :
    symbol mark (mark :: rest) = some rest := by
  simp [symbol, skipBlanks_cons solid]

theorem Solid.divided {text : String} (solid : Solid text) {mark : Char}
    (visible : isBlank mark = false) {item : Scanner α} (more : List Char) :
    ((symbol mark (mark :: ' ' :: (text.toList ++ more))).map Parsing.skipBlanks).bind item =
      item (text.toList ++ more) := by
  rw [symbol_cons visible, Option.map_some, skipBlanks_blank, solid.skipBlanks, Option.bind_some]

theorem symbol_other {mark c : Char} {rest : List Char} (solid : isBlank c = false)
    (other : c ≠ mark) : symbol mark (c :: rest) = none := by
  simp [symbol, skipBlanks_cons solid, other]

theorem cut_of_symbol {mark : Char} {cs rest : List Char} (other : isNameChar mark = false)
    (found : symbol mark cs = some rest) : Cut cs := by
  intro c first
  by_contra continues
  obtain ⟨more, rfl⟩ : ∃ more, cs = c :: more := by
    cases cs with
    | nil => cases first
    | cons d more =>
      cases first
      exact ⟨more, rfl⟩
  have solid : isBlank c = false := by
    by_contra blank
    exact continues (not_isNameChar_of_isBlank (Bool.of_not_eq_false blank))
  have different : c ≠ mark := by
    rintro rfl
    exact continues other
  rw [symbol_other solid different] at found
  cases found

theorem toList_intercalate_cons (divider text : String) (texts : List String) :
    (divider.intercalate (text :: texts)).toList =
      text.toList ++ texts.flatMap fun text => (divider ++ text).toList := by
  rw [String.toList_intercalate]
  induction texts generalizing text with
  | nil => simp
  | cons next rest ih =>
    rw [List.map_cons, List.map_cons, List.intercalate_cons_cons, ← List.map_cons, ih]
    simp

section Lists

variable {item : Scanner α} {divider : List Char → Option (List Char)}
  {Next : List Char → Prop} {mark : String} {texts : List String} {as : List α}
  {rest : List Char}

theorem next_following (continues : ∀ more, Next (mark.toList ++ more)) (next : Next rest)
    (texts : List String) :
    Next (texts.flatMap (fun text => (mark ++ text).toList) ++ rest) := by
  cases texts with
  | nil => exact next
  | cons text texts =>
    rw [List.flatMap_cons, String.toList_append, List.append_assoc, List.append_assoc]
    exact continues _

theorem length_le_following (visible : mark.toList ≠ []) (texts : List String)
    (rest : List Char) :
    texts.length ≤ (texts.flatMap (fun text => (mark ++ text).toList) ++ rest).length := by
  have := List.length_pos_iff.mpr visible
  induction texts with
  | nil => exact Nat.zero_le _
  | cons text texts ih =>
    simp only [List.flatMap_cons, List.length_append, String.toList_append,
      List.length_cons] at ih ⊢
    omega

theorem following_reads (read : List.Forall₂ (Reads item Next) texts as)
    (divides : ∀ text ∈ texts, ∀ more,
      (divider (mark.toList ++ (text.toList ++ more))).bind item = item (text.toList ++ more))
    (continues : ∀ more, Next (mark.toList ++ more)) (next : Next rest)
    (ends : divider rest = none) {limit : Nat} (enough : texts.length ≤ limit) :
    following item divider limit (texts.flatMap (fun text => (mark ++ text).toList) ++ rest) =
      (as, rest) := by
  induction read generalizing limit with
  | nil =>
    cases limit with
    | zero => rfl
    | succ limit => simp [following, ends]
  | @cons text a texts as first _ ih =>
    obtain ⟨limit, rfl⟩ := Nat.exists_eq_add_one_of_ne_zero (Nat.ne_zero_of_lt enough)
    have here := divides text List.mem_cons_self
      (texts.flatMap (fun text => (mark ++ text).toList) ++ rest)
    rw [first (next_following continues next texts)] at here
    have later := ih (fun other member => divides other (List.mem_cons_of_mem text member))
      (Nat.le_of_succ_le_succ enough)
    rw [List.flatMap_cons, String.toList_append, List.append_assoc, List.append_assoc]
    simp only [following, here, later]

theorem separated_reads (read : List.Forall₂ (Reads item Next) texts as)
    (divides : ∀ text ∈ texts, ∀ more,
      (divider (mark.toList ++ (text.toList ++ more))).bind item = item (text.toList ++ more))
    (visible : mark.toList ≠ []) (continues : ∀ more, Next (mark.toList ++ more))
    (next : Next rest) (stops : item rest = none) (ends : divider rest = none) :
    separated item divider ((mark.intercalate texts).toList ++ rest) = (as, rest) := by
  cases read with
  | nil => simp [separated, stops]
  | @cons text a texts as first others =>
    have enough := length_le_following visible texts rest
    have later := following_reads others
      (fun other member => divides other (List.mem_cons_of_mem text member)) continues next ends
      enough
    rw [toList_intercalate_cons, List.append_assoc, separated,
      first (next_following continues next texts)]
    simp only [later]

end Lists

def singles (set : VariableSet) : List VariableSet :=
  set.quantifiedNames.toList.map .quantified ++
    set.concreteNames.toList.map fun var => .concrete (.singleton var)

theorem join_singles {set : VariableSet} (canonical : set.Canonical) :
    VariableSet.join (singles set) = set := by
  refine VariableSet.canonical_ext (VariableSet.canonical_join _) canonical (fun name => ?_)
    fun var => ?_
  · simp only [VariableSet.mem_quantifiedNames_join, singles, List.mem_append, List.mem_map]
    constructor
    · rintro ⟨_, ⟨other, present, rfl⟩ | ⟨var, _, rfl⟩, used⟩
      · cases SortedSet.mem_singleton.mp used
        exact present
      · exact (SortedSet.not_mem_empty name used).elim
    · intro present
      exact ⟨_, .inl ⟨name, present, rfl⟩, SortedSet.mem_singleton.mpr rfl⟩
  · simp only [VariableSet.mem_concreteNames_join, singles, List.mem_append, List.mem_map]
    constructor
    · rintro ⟨_, ⟨name, _, rfl⟩ | ⟨other, present, rfl⟩, used⟩
      · exact (SortedSet.not_mem_empty var used).elim
      · cases SortedSet.mem_singleton.mp used
        exact present
    · intro present
      exact ⟨_, .inr ⟨var, present, rfl⟩, SortedSet.mem_singleton.mpr rfl⟩

theorem memberTextsOf_append (sets others : List VariableSet) :
    VariableSet.memberTextsOf (sets ++ others) =
      VariableSet.memberTextsOf sets ++ VariableSet.memberTextsOf others := by
  induction sets with
  | nil => rfl
  | cons set rest ih => simp [VariableSet.memberTextsOf, ih]

theorem memberTextsOf_quantified (names : List String) :
    VariableSet.memberTextsOf (names.map .quantified) = names := by
  induction names with
  | nil => rfl
  | cons name rest ih => simp [VariableSet.memberTextsOf, VariableSet.memberTexts, ih]

theorem memberTexts_eq {set : VariableSet} (canonical : set.Canonical) :
    set.memberTexts =
      set.quantifiedNames.toList ++ set.concreteNames.toList.map fun var => "'" ++ var ++ "'" := by
  nth_rewrite 1 [← VariableSet.ofNames_of_canonical canonical]
  generalize set.quantifiedNames = names, set.concreteNames = vars
  rcases VariableSet.ofNames_cases names vars with ⟨none, eq⟩ | ⟨name, rfl, none, eq⟩ | ⟨_, _, eq⟩ <;>
    rw [eq]
  · rw [List.isEmpty_iff.mp none]
    rfl
  · rw [List.isEmpty_iff.mp none]
    rfl
  · rw [VariableSet.memberTexts, VariableSet.members, memberTextsOf_append,
      memberTextsOf_quantified]
    split
    · rename_i none
      rw [List.isEmpty_iff.mp none]
      rfl
    · simp [VariableSet.memberTextsOf, VariableSet.memberTexts]

theorem member_reads_name {text : String} (isName : IsName text) :
    Reads member Cut text (.quantified text) := by
  intro rest cut
  have read := name_reads isName cut
  obtain ⟨c, more, rfl, start, -⟩ := exists_chars isName.1
  rw [String.toList_ofList, List.cons_append] at read ⊢
  unfold member
  split
  · rename_i chars
    cases (List.cons.inj chars).1
    exact absurd start (by decide)
  · simp [read]

theorem member_reads_var {var : String} (isIdentifier : IsIdentifier var) :
    Reads member Cut ("'" ++ var ++ "'") (.concrete (.singleton var)) := by
  intro rest _
  have quote : Cut ('\'' :: rest) := cut_cons rfl
  have read := identifier_reads isIdentifier quote
  rw [String.toList_append, String.toList_append, List.append_assoc, List.append_assoc]
  simp [member, read]

theorem members_read {set : VariableSet} (writable : set.Writable) :
    List.Forall₂ (Reads member Cut) set.memberTexts (singles set) := by
  rw [memberTexts_eq writable.1, singles]
  refine List.rel_append ?_ ?_
  · rw [List.forall₂_map_right_iff, List.forall₂_same]
    exact fun name present => member_reads_name (writable.2.1 name present)
  · rw [List.forall₂_map_right_iff, List.forall₂_map_left_iff, List.forall₂_same]
    exact fun var present => member_reads_var (writable.2.2 var present)

theorem solid_memberTexts {set : VariableSet} (writable : set.Writable) :
    ∀ text ∈ set.memberTexts, Solid text := by
  intro text member
  rw [memberTexts_eq writable.1] at member
  rcases List.mem_append.mp member with present | quoted
  · exact solid_of_isIdentifier (writable.2.1 text present).1
  · obtain ⟨var, _, rfl⟩ := List.mem_map.mp quoted
    exact ⟨'\'', var.toList ++ ['\''], by simp, rfl⟩

theorem componentKeyword_reads (component : Component) :
    Reads componentKeyword (fun _ => True) component.keyword component := by
  intro rest _
  cases component <;> rfl

theorem component_reads (part : Component) {set : VariableSet} (writable : set.Writable) :
    Reads component (fun _ => True) (part.keyword ++ set.text) (part, set) := by
  intro rest _
  have solid := solid_memberTexts writable
  have start : skipBlanks ((", ".intercalate set.memberTexts).toList ++ ']' :: rest) =
      (", ".intercalate set.memberTexts).toList ++ ']' :: rest := by
    cases texts : set.memberTexts with
    | nil => rfl
    | cons text others =>
      rw [toList_intercalate_cons, List.append_assoc]
      exact (solid text (texts ▸ List.mem_cons_self)).skipBlanks _
  have inside : separated member (fun cs => (symbol ',' cs).map skipBlanks)
      ((", ".intercalate set.memberTexts).toList ++ ']' :: rest) = (singles set, ']' :: rest) :=
    separated_reads (members_read writable)
      (fun text member more => (solid text member).divided rfl more) (by decide)
      (fun more => cut_cons rfl) (cut_cons rfl) rfl rfl
  have chars : (part.keyword ++ set.text).toList ++ rest = part.keyword.toList ++
      '[' :: ((", ".intercalate set.memberTexts).toList ++ ']' :: rest) := by
    simp [VariableSet.text]
  have opening : symbol '[' ('[' :: ((", ".intercalate set.memberTexts).toList ++ ']' :: rest)) =
      some ((", ".intercalate set.memberTexts).toList ++ ']' :: rest) := rfl
  rw [chars]
  refine component_eq_some.mpr ⟨part, _, _, singles set, ']' :: rest,
    componentKeyword_reads part trivial, opening, ?_, rfl, ?_⟩
  · rw [start, inside]
  · rw [join_singles writable.1]

def shown (footprint : Footprint) : List Component :=
  Component.all.filter fun component => !(footprint.get component).isEmpty

theorem mem_shown {footprint : Footprint} {component : Component} :
    component ∈ shown footprint ↔ (footprint.get component).isEmpty = false := by
  have : component ∈ Component.all := by cases component <;> decide
  simp [shown, this]

theorem not_isEmpty_of_quantified {set : VariableSet} {name : String}
    (used : name ∈ set.quantifiedNames) : set.isEmpty = false := by
  cases set with
  | concrete vars => exact (SortedSet.not_mem_empty name used).elim
  | quantified other => rfl
  | union sets => rfl

theorem not_isEmpty_of_concrete {set : VariableSet} {var : String}
    (used : var ∈ set.concreteNames) : set.isEmpty = false := by
  cases set with
  | concrete vars => exact Bool.eq_false_iff.mpr fun none => SortedSet.isEmpty_iff.mp none var used
  | quantified name => rfl
  | union sets => rfl

theorem ofParts_shown {footprint : Footprint}
    (canonical : ∀ component, (footprint.get component).Canonical) :
    Footprint.ofParts ((shown footprint).map fun component =>
      (component, footprint.get component)) = footprint := by
  refine Footprint.ext_get fun component => ?_
  have listed : ∀ set, (set ∈ ((shown footprint).map fun component =>
      (component, footprint.get component)).filterMap fun part =>
        if part.1 = component then some part.2 else none) ↔
      set = footprint.get component ∧ set.isEmpty = false := by
    intro set
    simp only [List.mem_filterMap, List.mem_map, mem_shown]
    constructor
    · rintro ⟨_, ⟨other, visible, rfl⟩, chosen⟩
      split at chosen
      · rename_i same
        cases same
        cases chosen
        exact ⟨rfl, visible⟩
      · cases chosen
    · rintro ⟨rfl, visible⟩
      exact ⟨_, ⟨component, visible, rfl⟩, if_pos rfl⟩
  rw [Footprint.get_ofParts]
  refine VariableSet.canonical_ext (VariableSet.canonical_join _) (canonical component) ?_ ?_
  · intro name
    rw [VariableSet.mem_quantifiedNames_join]
    constructor
    · rintro ⟨set, member, used⟩
      rw [((listed set).mp member).1] at used
      exact used
    · intro used
      exact ⟨_, (listed _).mpr ⟨rfl, not_isEmpty_of_quantified used⟩, used⟩
  · intro var
    rw [VariableSet.mem_concreteNames_join]
    constructor
    · rintro ⟨set, member, used⟩
      rw [((listed set).mp member).1] at used
      exact used
    · intro used
      exact ⟨_, (listed _).mpr ⟨rfl, not_isEmpty_of_concrete used⟩, used⟩

/-- What may come after an effect: a further parameter, the end of a list, or nothing. -/
inductive Closes : List Char → Prop where
  | nil : Closes []
  | comma (more : List Char) : Closes (',' :: more)
  | bracket (more : List Char) : Closes (')' :: more)

theorem Closes.cut {rest : List Char} (closes : Closes rest) : Cut rest := by
  cases closes with
  | nil => exact nofun
  | comma more => exact cut_cons rfl
  | bracket more => exact cut_cons rfl

theorem solid_component (part : Component) (set : VariableSet) :
    Solid (part.keyword ++ set.text) := by
  rw [Solid, String.toList_append]
  cases part <;> exact ⟨_, _, rfl, rfl⟩

theorem text_of_shown {footprint : Footprint} (visible : shown footprint ≠ []) :
    footprint.text = " & ".intercalate ((shown footprint).map fun component =>
      component.keyword ++ (footprint.get component).text) := by
  unfold Footprint.text
  split
  · rename_i none
    exact absurd none visible
  · rfl

theorem exists_text_of_shown {footprint : Footprint} (visible : shown footprint ≠ []) :
    ∃ (part : Component) (more : List Char),
      footprint.text.toList = part.keyword.toList ++ more := by
  obtain ⟨part, others, eq⟩ := List.exists_cons_of_ne_nil visible
  rw [text_of_shown visible, eq, List.map_cons, toList_intercalate_cons, String.toList_append,
    List.append_assoc]
  exact ⟨part, _, rfl⟩

theorem components_reads {footprint : Footprint}
    (writable : ∀ component, (footprint.get component).Writable)
    (visible : shown footprint ≠ []) :
    Reads components Closes footprint.text (.concrete footprint) := by
  intro rest closes
  have read : List.Forall₂ (Reads component fun _ => True)
      ((shown footprint).map fun component =>
        component.keyword ++ (footprint.get component).text)
      ((shown footprint).map fun component => (component, footprint.get component)) := by
    rw [List.forall₂_map_right_iff, List.forall₂_map_left_iff, List.forall₂_same]
    exact fun component _ => component_reads component (writable component)
  have run : separated component (fun cs => (symbol '&' cs).map skipBlanks)
      (footprint.text.toList ++ rest) =
        ((shown footprint).map fun component => (component, footprint.get component), rest) := by
    rw [text_of_shown visible]
    refine separated_reads read (fun text member more => ?_) (by decide) (fun _ => trivial)
      trivial ?_ ?_
    · obtain ⟨part, _, rfl⟩ := List.mem_map.mp member
      have visible : isBlank '&' = false := rfl
      exact (solid_component part _).divided visible more
    · cases closes <;> rfl
    · cases closes <;> rfl
  refine components_eq_some.mpr ⟨_, mt List.map_eq_nil_iff.mp visible, run, ?_⟩
  rw [ofParts_shown fun component => (writable component).1]

theorem pureWord_name {text : String} (isName : IsName text) {rest : List Char} (cut : Cut rest) :
    pureWord (text.toList ++ rest) = none := by
  have read := identifier_reads isName.1 cut
  by_contra some
  obtain ⟨⟨effect, tail⟩, found⟩ := Option.ne_none_iff_exists'.mp some
  obtain ⟨chars, ended, -⟩ := pureWord_eq_some.mp found
  -- the name would be the word
  have word : identifier ("Pure".toList ++ tail) = Option.some ("Pure", tail) :=
    identifier_reads (by decide) (cut_iff_head.mpr ended)
  rw [chars, show 'P' :: 'u' :: 'r' :: 'e' :: tail = "Pure".toList ++ tail from rfl, word] at read
  cases read
  exact absurd isName.2 (by decide)

theorem eq_of_componentKeyword {cs rest : List Char} {component : Component}
    (found : componentKeyword cs = some (component, rest)) :
    cs = component.keyword.toList ++ rest := by
  unfold componentKeyword at found
  split at found <;> cases found <;> rfl

theorem components_name {text : String} (isName : IsName text) {rest : List Char}
    (cut : Cut rest) : components (text.toList ++ rest) = none := by
  have read := identifier_reads isName.1 cut
  have none : component (text.toList ++ rest) = none := by
    by_contra some
    obtain ⟨part, found⟩ := Option.ne_none_iff_exists'.mp some
    obtain ⟨word, tail, _, _, _, keyword, opening, -⟩ := component_eq_some.mp found
    have start : identifier (word.keyword.toList ++ tail) = Option.some (word.keyword, tail) :=
      identifier_reads (by cases word <;> decide) (cut_of_symbol rfl opening)
    rw [eq_of_componentKeyword keyword, start] at read
    cases read
    exact absurd isName.2 (by cases word <;> decide)
  unfold components separated
  rw [none]

theorem effect_blank (depth : Nat) (cs : List Char) :
    effect depth (' ' :: cs) = effect depth cs := by
  cases depth with
  | zero => rfl
  | succ depth => simp only [effect, skipBlanks_blank]

theorem effect_bracket (depth : Nat) (cs : List Char) : effect depth (')' :: cs) = none := by
  cases depth <;> rfl

theorem arrow_other {reader : Scanner Effect} {c : Char} (other : c ≠ '(') (cs : List Char) :
    arrow reader (c :: cs) = none := by
  unfold arrow
  split
  · rename_i chars
    cases chars
    exact absurd rfl other
  · rfl

theorem effect_reads_quantified {text : String} (isName : IsName text) (depth : Nat) :
    Reads (effect (depth + 1)) Closes text (.quantified text) := by
  intro rest closes
  have first : arrow (effect depth) (text.toList ++ rest) = none := by
    obtain ⟨c, more, rfl, start, -⟩ := exists_chars isName.1
    rw [String.toList_ofList]
    refine arrow_other (fun same => ?_) _
    rw [same] at start
    exact absurd start (by decide)
  have word := name_reads isName closes.cut
  simp [effect, (solid_of_isIdentifier isName.1).skipBlanks, first, pureWord_name isName closes.cut,
    components_name isName closes.cut, quantified, word]

theorem effect_reads_concrete {footprint : Footprint}
    (writable : (Effect.concrete footprint).Writable) (depth : Nat) :
    Reads (effect (depth + 1)) Closes footprint.text (.concrete footprint) := by
  intro rest closes
  have sets := writable_concrete.mp writable
  by_cases hidden : shown footprint = []
  · have nothing : footprint = .empty := by
      rw [← ofParts_shown fun component => (sets component).1, hidden]
      rfl
    have ended : rest.head?.any isNameChar = false := by cases closes <;> rfl
    rw [nothing, show Footprint.empty.text = "Pure" from rfl]
    simp [effect, skipBlanks_cons, isBlank, arrow_other, pureWord, ended, Effect.empty]
  · have read := components_reads sets hidden closes
    obtain ⟨part, more, chars⟩ := exists_text_of_shown hidden
    rw [chars] at read ⊢
    cases part <;>
      simp_all [effect, skipBlanks_cons, isBlank, arrow_other, pureWord, Component.keyword]

theorem textsOf_eq_map (effects : List Effect) : textsOf effects = effects.map text := by
  induction effects with
  | nil => rfl
  | cons effect rest ih => rw [textsOf, ih, List.map_cons]

theorem length_le_intercalate (divider : String) {texts : List String} {text : String}
    (member : text ∈ texts) :
    text.toList.length ≤ (divider.intercalate texts).toList.length := by
  cases texts with
  | nil => cases member
  | cons first others =>
    rw [toList_intercalate_cons, List.length_append]
    rcases List.mem_cons.mp member with rfl | member
    · omega
    · have within := (List.sublist_flatten_of_mem
        (List.mem_map_of_mem (f := fun text => (divider ++ text).toList) member)).length_le
      rw [String.toList_append, List.length_append] at within
      rw [List.flatMap_def]
      omega

theorem toList_arrow_text (params : List Effect) (result : Effect) :
    (Effect.arrow params result).text.toList = '(' :: ((", ".intercalate (textsOf params)).toList ++
      ')' :: ' ' :: '=' :: '>' :: ' ' :: result.text.toList) := by
  simp [text]

theorem arrow_reads {params : List Effect} {result : Effect} {depth : Nat}
    (inputs : List.Forall₂ (Reads (effect depth) Closes) (textsOf params) params)
    (output : Reads (effect depth) Closes result.text result) :
    Reads (effect (depth + 1)) Closes (Effect.arrow params result).text (.arrow params result) := by
  intro rest closes
  have inside : separated (effect depth) (symbol ',')
      ((", ".intercalate (textsOf params)).toList ++
        ')' :: ' ' :: '=' :: '>' :: ' ' :: (result.text.toList ++ rest)) =
      (params, ')' :: ' ' :: '=' :: '>' :: ' ' :: (result.text.toList ++ rest)) := by
    refine separated_reads inputs (fun text _ more => ?_) (by decide) (fun more => .comma _)
      (.bracket _) (effect_bracket _ _) rfl
    exact effect_blank depth _
  have brackets : arrow (effect depth) ((Effect.arrow params result).text.toList ++ rest) =
      some (.arrow params result, rest) := by
    rw [toList_arrow_text]
    simp only [List.cons_append, List.append_assoc]
    exact arrow_eq_some.mpr ⟨_, params, _, _, ' ' :: (result.text.toList ++ rest), result, rfl,
      inside, rfl, rfl, (effect_blank depth _).trans (output closes), rfl⟩
  have solid : Solid (Effect.arrow params result).text := ⟨_, _, toList_arrow_text params result, rfl⟩
  simp [effect, solid.skipBlanks, brackets]

theorem effect_reads {effect : Effect} (writable : effect.Writable) {depth : Nat}
    (enough : effect.text.toList.length < depth) :
    Reads (Parsing.effect depth) Closes effect.text effect := by
  induction effect generalizing depth with
  | concrete footprint =>
    obtain ⟨depth, rfl⟩ := Nat.exists_eq_add_one_of_ne_zero (Nat.ne_zero_of_lt enough)
    exact effect_reads_concrete writable depth
  | quantified text =>
    obtain ⟨depth, rfl⟩ := Nat.exists_eq_add_one_of_ne_zero (Nat.ne_zero_of_lt enough)
    exact effect_reads_quantified (writable_quantified.mp writable) depth
  | arrow params result inputs output =>
    obtain ⟨depth, rfl⟩ := Nat.exists_eq_add_one_of_ne_zero (Nat.ne_zero_of_lt enough)
    obtain ⟨parts, whole⟩ := writable_arrow.mp writable
    rw [toList_arrow_text] at enough
    simp only [List.length_cons, List.length_append] at enough
    refine arrow_reads ?_ ?_
    · rw [textsOf_eq_map, List.forall₂_map_left_iff, List.forall₂_same]
      intro param member
      have shorter := length_le_intercalate ", " (textsOf_eq_map params ▸ List.mem_map_of_mem member)
      exact inputs param member (parts param member) (by omega)
    · exact output whole (by omega)

end Effect.Parsing

theorem Effect.writable_of_parse {text : String} {effect : Effect}
    (read : Effect.parse text = .ok effect) : effect.Writable := by
  unfold Effect.parse at read
  dsimp only at read
  split at read
  · cases read
  · rename_i found
    split at read
    · cases read
      exact Effect.Parsing.effect_yields _ found
    · cases read

theorem Effect.parse_text {effect : Effect} (writable : effect.Writable) :
    Effect.parse effect.text = .ok effect := by
  have read := Effect.Parsing.effect_reads writable (Nat.lt_succ_self _) .nil
  rw [List.append_nil] at read
  unfold Effect.parse
  simp only [read]
  rfl

/-- Reading undoes printing: what is read can be written, and what can be written is read back. -/
theorem Effect.parsing_undoes_printing :
    (∀ (text : String) (effect : Effect), Effect.parse text = .ok effect → effect.Writable) ∧
      ∀ effect : Effect, effect.Writable → Effect.parse effect.text = .ok effect :=
  ⟨fun _ _ read => Effect.writable_of_parse read, fun _ writable => Effect.parse_text writable⟩

/-- The names start like words of the syntax. -/
theorem Effect.parsing_of_names_like_words :
    (Effect.arrow [.quantified "Reading", .arrow [] (.quantified "Pure_")]
      (.concrete ⟨.union [.quantified "Update1", .concrete (.singleton "Read")], .empty,
        .concrete (.singleton "x")⟩)).Writable ∧
    Effect.parse "(Reading, () => Pure_) => Read[Update1, 'Read'] & Temporal['x']" =
      .ok (.arrow [.quantified "Reading", .arrow [] (.quantified "Pure_")]
        (.concrete ⟨.union [.quantified "Update1", .concrete (.singleton "Read")], .empty,
          .concrete (.singleton "x")⟩)) := by
  have writable : (Effect.arrow [.quantified "Reading", .arrow [] (.quantified "Pure_")]
      (.concrete ⟨.union [.quantified "Update1", .concrete (.singleton "Read")], .empty,
        .concrete (.singleton "x")⟩)).Writable := by decide
  exact ⟨Effect.parsing_undoes_printing.1 _ _ (Effect.parsing_undoes_printing.2 _ writable),
    Effect.parsing_undoes_printing.2 _ writable⟩

end SpecEffects
