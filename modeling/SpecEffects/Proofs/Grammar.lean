import Mathlib.Data.List.DropRight
import SpecEffects.Proofs.EffectText
import SpecEffects.Proofs.NormalForm

/-!
The syntax of effects as a grammar, and that the reader accepts exactly what it derives. A text is
first taken as a list of tokens: blanks may stand around every token, but not between quotes, and a
word is as long as it can be. The productions are then about lists of tokens, and each of them says
what it means.

The reader tries alternatives in turn and takes as many items of a list as come. Neither loses
anything: the first token tells the alternatives apart, and what may come after a list never starts
with the mark that divides its items.
-/
namespace SpecEffects

variable {α : Type}

namespace Effect.Grammar

def blanks : List Char := [' ', '\t', '\n', '\x0c', '\r']

def marks : List Char := ['(', ')', ',', '&', '[', ']']

inductive Token where
  | mark (c : Char)
  /-- An arrow, `=>`. -/
  | arrow
  | word (text : String)
  | quoted (text : String)

namespace Token

def chars : Token → List Char
  | .mark c => [c]
  | .arrow => ['=', '>']
  | .word text => text.toList
  | .quoted text => '\'' :: (text.toList ++ ['\''])

/-- The token is one of the syntax and may stand before the rest: a word goes on as long as it can. -/
inductive Fits : Token → List Char → Prop
  | mark {c : Char} (isMark : c ∈ marks) (rest : List Char) : Fits (.mark c) rest
  | arrow (rest : List Char) : Fits .arrow rest
  | word {text : String} (isIdentifier : IsIdentifier text) {rest : List Char}
    (longest : ∀ c ∈ rest.head?, ¬(c.isAlphanum ∨ c = '_')) : Fits (.word text) rest
  | quoted {text : String} (isIdentifier : IsIdentifier text) (rest : List Char) :
    Fits (.quoted text) rest

end Token

inductive Spells : List Char → List Token → Prop
  | nil : Spells [] []
  | blank {c : Char} {cs : List Char} {ts : List Token} (isBlank : c ∈ blanks)
    (rest : Spells cs ts) : Spells (c :: cs) ts
  | token {t : Token} {cs : List Char} {ts : List Token} (fits : t.Fits cs) (rest : Spells cs ts) :
    Spells (t.chars ++ cs) (t :: ts)

inductive Series (mark : Char) (Item : List Token → α → Prop) : List Token → List α → Prop
  | one {ts : List Token} {a : α} (item : Item ts a) : Series mark Item ts [a]
  | more {ts us : List Token} {a : α} {as : List α} (item : Item ts a)
    (others : Series mark Item us as) : Series mark Item (ts ++ .mark mark :: us) (a :: as)

inductive Listed (mark : Char) (Item : List Token → α → Prop) : List Token → List α → Prop
  | none : Listed mark Item [] []
  | some {ts : List Token} {as : List α} (series : Series mark Item ts as) : Listed mark Item ts as

inductive Member : List Token → VariableSet → Prop
  | var (text : String) : Member [.quoted text] (.concrete (.singleton text))
  | name {text : String} (isName : IsName text) : Member [.word text] (.quantified text)

/-- The set is in canonical form, and what occurs in it occurs in one of the parts. -/
structure Unites (parts : VariableSet → Prop) (set : VariableSet) : Prop where
  canonical : set.Canonical
  holds : ∀ atom, VariableSet.Occurs atom set ↔ ∃ part, parts part ∧ VariableSet.Occurs atom part

inductive Part : List Token → Component × VariableSet → Prop
  | intro (component : Component) {ts : List Token} {members : List VariableSet}
    {set : VariableSet} (listed : Listed ',' Member ts members) (united : Unites (· ∈ members) set) :
    Part (.word component.keyword :: .mark '[' :: (ts ++ [.mark ']'])) (component, set)

/-- The tokens form an effect. Each component of a footprint unites the sets that are listed for it. -/
inductive Derives : List Token → Effect → Prop
  | arrow {ts us : List Token} {params : List Effect} {result : Effect}
    (inputs : Listed ',' Derives ts params) (output : Derives us result) :
    Derives (.mark '(' :: (ts ++ .mark ')' :: .arrow :: us)) (.arrow params result)
  | pure : Derives [.word "Pure"] .empty
  | concrete {ts : List Token} {parts : List (Component × VariableSet)} {footprint : Footprint}
    (series : Series '&' Part ts parts)
    (united : ∀ component, Unites (fun set => (component, set) ∈ parts) (footprint.get component)) :
    Derives ts (.concrete footprint)
  | quantified {text : String} (isName : IsName text) : Derives [.word text] (.quantified text)

theorem unites_iff {sets : List VariableSet} {set : VariableSet} :
    Unites (· ∈ sets) set ↔ set = .join sets := by
  constructor
  · intro united
    apply VariableSet.eq_of_occurs united.canonical (VariableSet.canonical_join sets)
    intro atom
    rw [united.holds, VariableSet.occurs_join, VariableSet.OccursIn]
  · rintro rfl
    exact ⟨VariableSet.canonical_join sets, fun _ => VariableSet.occurs_join⟩

theorem unites_components_iff {parts : List (Component × VariableSet)} {footprint : Footprint} :
    (∀ component, Unites (fun set => (component, set) ∈ parts) (footprint.get component)) ↔
      footprint = .ofParts parts := by
  have listed (component : Component) : (fun set => (component, set) ∈ parts) =
      (· ∈ parts.filterMap fun part => if part.1 = component then some part.2 else none) := by
    funext set
    simp
  simp only [listed, unites_iff, ← Footprint.get_ofParts]
  constructor
  · exact Footprint.ext_get
  · rintro rfl component
    rfl

open Parsing (isBlank isNameStart skipBlanks Cut exists_chars isNameChar_iff skipBlanks_cons
  solid_of_isIdentifier)

theorem isBlank_iff {c : Char} : isBlank c = true ↔ c ∈ blanks := by
  simp [isBlank, blanks, or_assoc]

theorem cut_iff {cs : List Char} : Cut cs ↔ ∀ c ∈ cs.head?, ¬(c.isAlphanum ∨ c = '_') := by
  simp only [Cut, ← isNameChar_iff, Bool.not_eq_true]

theorem Spells.of_skipBlanks {cs : List Char} {ts : List Token} (spells : Spells (skipBlanks cs) ts) :
    Spells cs ts := by
  induction cs with
  | nil => exact spells
  | cons c cs ih =>
    by_cases blank : isBlank c = true
    · rw [skipBlanks, List.dropWhile_cons_of_pos blank] at spells
      exact .blank (isBlank_iff.mp blank) (ih spells)
    · rwa [skipBlanks_cons (Bool.eq_false_iff.mpr blank)] at spells

theorem not_isBlank_of_mem_marks {c : Char} (isMark : c ∈ marks) : isBlank c = false := by
  simp only [marks, List.mem_cons, List.not_mem_nil, or_false] at isMark
  rcases isMark with rfl | rfl | rfl | rfl | rfl | rfl <;> rfl

theorem not_isNameStart_of_mem_marks {c : Char} (isMark : c ∈ marks) : isNameStart c = false := by
  simp only [marks, List.mem_cons, List.not_mem_nil, or_false] at isMark
  rcases isMark with rfl | rfl | rfl | rfl | rfl | rfl <;> rfl

theorem Token.Fits.skipBlanks {t : Token} {rest : List Char} (fits : t.Fits rest) :
    Parsing.skipBlanks (t.chars ++ rest) = t.chars ++ rest := by
  cases fits with
  | mark isMark => exact skipBlanks_cons (not_isBlank_of_mem_marks isMark)
  | arrow => rfl
  | word isIdentifier => exact (solid_of_isIdentifier isIdentifier).skipBlanks rest
  | quoted => rfl

theorem Token.Fits.length_pos {t : Token} {rest : List Char} (fits : t.Fits rest) :
    0 < t.chars.length := by
  cases fits with
  | mark => exact Nat.zero_lt_one
  | arrow => exact Nat.zero_lt_two
  | word isIdentifier =>
    obtain ⟨c, more, rfl, -⟩ := exists_chars isIdentifier
    simp [chars]
  | quoted => simp [chars]

namespace Spells

variable {cs : List Char} {ts : List Token}

theorem length_le (spells : Spells cs ts) : ts.length ≤ cs.length := by
  induction spells with
  | nil => exact Nat.le_refl _
  | blank _ _ ih => exact Nat.le_succ_of_le ih
  | token fits _ ih =>
    have := fits.length_pos
    rw [List.length_cons, List.length_append]
    omega

theorem skipBlanks_eq_nil (spells : Spells cs []) : skipBlanks cs = [] := by
  generalize none : ([] : List Token) = ts at spells
  induction spells with
  | nil => rfl
  | blank blank _ ih =>
    rw [skipBlanks, List.dropWhile_cons_of_pos (isBlank_iff.mpr blank)]
    exact ih none
  | token => cases none

theorem skipBlanks_eq_token {t : Token} (spells : Spells cs (t :: ts)) :
    ∃ rest, skipBlanks cs = t.chars ++ rest ∧ t.Fits rest ∧ Spells rest ts := by
  generalize whole : t :: ts = us at spells
  induction spells with
  | nil => cases whole
  | blank blank _ ih =>
    rw [skipBlanks, List.dropWhile_cons_of_pos (isBlank_iff.mpr blank)]
    exact ih whole
  | token fits rest =>
    cases whole
    exact ⟨_, fits.skipBlanks, fits, rest⟩

theorem skipBlanks (spells : Spells cs ts) : Spells (Parsing.skipBlanks cs) ts := by
  cases ts with
  | nil =>
    rw [spells.skipBlanks_eq_nil]
    exact .nil
  | cons t ts =>
    obtain ⟨rest, front, fits, later⟩ := spells.skipBlanks_eq_token
    rw [front]
    exact .token fits later

end Spells

end Effect.Grammar

namespace Effect.Parsing

open Grammar
open Text (Scanner)

def Accepts (reader : Scanner α) (Item : List Token → α → Prop) : Prop :=
  ∀ ⦃cs a rest⦄, reader cs = some (a, rest) →
    ∃ ts, Item ts a ∧ ∀ us, Spells rest us → Spells cs (ts ++ us)

theorem symbol_spells {mark : Char} (isMark : mark ∈ marks)
    {cs rest : List Char} (found : symbol mark cs = some rest) {us : List Token}
    (spells : Spells rest us) : Spells cs (.mark mark :: us) := by
  apply Spells.of_skipBlanks
  rw [symbol_eq_some.mp found]
  exact .token (.mark isMark _) spells

theorem identifier_spells {cs rest : List Char} {text : String}
    (found : identifier cs = some (text, rest)) :
    IsIdentifier text ∧ cs = text.toList ++ rest ∧ Cut rest := by
  refine ⟨identifier_yields found, ?_⟩
  obtain ⟨c, more, rfl, -, rfl, rfl⟩ := identifier_eq_some.mp found
  refine ⟨?_, fun d first => ?_⟩
  · rw [String.toList_ofList, List.cons_append, List.takeWhile_append_dropWhile]
  · have stop := List.head?_dropWhile_not isNameChar more
    rw [Option.mem_def.mp first] at stop
    exact stop

theorem name_spells {cs rest : List Char} {text : String} (found : name cs = some (text, rest)) :
    IsName text ∧ cs = text.toList ++ rest ∧ Cut rest :=
  ⟨name_yields found, (identifier_spells (name_eq_some.mp found).1).2⟩

theorem pureWord_spells {cs rest : List Char} {effect : Effect}
    (found : pureWord cs = some (effect, rest)) :
    effect = .empty ∧ cs = "Pure".toList ++ rest ∧ Cut rest := by
  obtain ⟨rfl, ended, rfl⟩ := pureWord_eq_some.mp found
  exact ⟨rfl, rfl, cut_iff_head.mpr ended⟩

theorem name_accepts : Accepts name fun ts text => ts = [.word text] ∧ IsName text := by
  intro cs text rest found
  obtain ⟨isName, rfl, cut⟩ := name_spells found
  exact ⟨_, ⟨rfl, isName⟩, fun us spells => .token (.word isName.1 (cut_iff.mp cut)) spells⟩

theorem member_accepts : Accepts member Member := by
  intro cs set rest found
  rcases member_cases found with ⟨inside, var, rfl, read, rfl⟩ | ⟨text, read, rfl⟩
  · obtain ⟨isIdentifier, rfl, -⟩ := identifier_spells read
    refine ⟨_, .var var, fun us spells => ?_⟩
    have taken := Spells.token (.quoted isIdentifier _) spells
    simpa [Token.chars] using taken
  · obtain ⟨_, ⟨rfl, isName⟩, spells⟩ := name_accepts read
    exact ⟨_, .name isName, spells⟩

section Lists

variable {mark : Char} {item : Scanner α} {Item : List Token → α → Prop}
  {divider : List Char → Option (List Char)}
  (accepts : Accepts item Item)
  (divides : ∀ ⦃cs rest us⦄, divider cs = some rest → Spells rest us → Spells cs (.mark mark :: us))

include accepts divides

/-- By induction on the number of items that may still come; the item before them is given. -/
theorem following_accepts {ts : List Token} {a : α} (first : Item ts a) (limit : Nat)
    (cs : List Char) :
    ∃ us, Series mark Item (ts ++ us) (a :: (following item divider limit cs).1) ∧
      ∀ vs, Spells (following item divider limit cs).2 vs → Spells cs (us ++ vs) := by
  induction limit generalizing ts a cs with
  | zero =>
    refine ⟨[], ?_, fun vs spells => spells⟩
    rw [List.append_nil]
    exact .one first
  | succ limit ih =>
    unfold following
    split
    · refine ⟨[], ?_, fun vs spells => spells⟩
      rw [List.append_nil]
      exact .one first
    · rename_i next rest found
      obtain ⟨after, divided, read⟩ := Option.bind_eq_some_iff.mp found
      obtain ⟨here, second, taken⟩ := accepts read
      obtain ⟨us, series, later⟩ := ih second rest
      refine ⟨.mark mark :: (here ++ us), .more first series, fun vs spells => ?_⟩
      have divided' := divides divided (taken _ (later vs spells))
      rwa [← List.append_assoc] at divided'

theorem separated_accepts {cs rest : List Char} {as : List α}
    (run : separated item divider cs = (as, rest)) :
    ∃ ts, Listed mark Item ts as ∧ ∀ us, Spells rest us → Spells cs (ts ++ us) := by
  unfold separated at run
  split at run
  · cases run
    exact ⟨[], .none, fun us spells => spells⟩
  · rename_i first rest found
    cases run
    obtain ⟨here, meaning, taken⟩ := accepts found
    obtain ⟨us, series, later⟩ := following_accepts accepts divides meaning rest.length rest
    refine ⟨here ++ us, .some series, fun vs spells => ?_⟩
    rw [List.append_assoc]
    exact taken _ (later vs spells)

end Lists

theorem divider_spells {mark : Char} (isMark : mark ∈ marks) ⦃cs rest : List Char⦄
    ⦃us : List Token⦄ (found : (symbol mark cs).map skipBlanks = some rest)
    (spells : Spells rest us) : Spells cs (.mark mark :: us) := by
  obtain ⟨after, read, rfl⟩ := Option.map_eq_some_iff.mp found
  exact symbol_spells isMark read spells.of_skipBlanks

theorem component_accepts : Accepts component Part := by
  intro cs part rest found
  obtain ⟨word, inside, opened, members, closed, keyword, opening, run, closing, rfl⟩ :=
    component_eq_some.mp found
  obtain ⟨ts, listed, taken⟩ := separated_accepts member_accepts
    (divider_spells (show ',' ∈ marks by decide)) run
  refine ⟨_, .intro word listed (unites_iff.mpr rfl), fun us spells => ?_⟩
  have closes := taken _ (symbol_spells (by decide) closing spells)
  have opens := symbol_spells (by decide) opening closes.of_skipBlanks
  have isIdentifier : IsIdentifier word.keyword := by cases word <;> decide
  have starts := Spells.token (.word isIdentifier (cut_iff.mp (cut_of_symbol rfl opening))) opens
  rw [Token.chars, ← eq_of_componentKeyword keyword] at starts
  simpa using starts

theorem pureWord_accepts : Accepts pureWord Derives := by
  intro cs effect rest found
  obtain ⟨rfl, rfl, cut⟩ := pureWord_spells found
  refine ⟨_, .pure, fun us spells => ?_⟩
  exact .token (.word (show IsIdentifier "Pure" by decide) (cut_iff.mp cut)) spells

theorem components_accepts : Accepts components Derives := by
  intro cs effect rest found
  obtain ⟨parts, some, run, rfl⟩ := components_eq_some.mp found
  obtain ⟨ts, listed, taken⟩ := separated_accepts component_accepts
    (divider_spells (show '&' ∈ marks by decide)) run
  cases listed with
  | none => exact (some rfl).elim
  | some series => exact ⟨ts, .concrete series (unites_components_iff.mpr rfl), taken⟩

theorem quantified_accepts : Accepts quantified Derives := by
  intro cs effect rest found
  obtain ⟨text, read, rfl⟩ := quantified_eq_some.mp found
  obtain ⟨_, ⟨rfl, isName⟩, taken⟩ := name_accepts read
  exact ⟨_, .quantified isName, taken⟩

theorem arrow_accepts {reader : Scanner Effect} (accepts : Accepts reader Derives) :
    Accepts (arrow reader) Derives := by
  intro cs effect rest found
  obtain ⟨opened, params, last, closed, after, result, rfl, run, closing, tied, read, rfl⟩ :=
    arrow_eq_some.mp found
  obtain ⟨us, output, ends⟩ := accepts read
  obtain ⟨ts, inputs, taken⟩ := separated_accepts accepts
    (fun _ _ _ found spells => symbol_spells (show ',' ∈ marks by decide) found spells) run
  refine ⟨_, .arrow inputs output, fun vs spells => ?_⟩
  have points : Spells closed (.arrow :: (us ++ vs)) := by
    apply Spells.of_skipBlanks
    rw [tied]
    exact .token (.arrow _) (ends vs spells)
  have closes := taken _ (symbol_spells (by decide) closing points)
  have opens := Spells.token (.mark (show '(' ∈ marks by decide) _) closes
  simpa [Token.chars] using opens

theorem effect_accepts (depth : Nat) : Accepts (effect depth) Derives := by
  induction depth with
  | zero =>
    intro cs effect rest found
    cases found
  | succ depth ih =>
    intro cs effect rest found
    have skipped : ∃ ts, Derives ts effect ∧
        ∀ us, Spells rest us → Spells (skipBlanks cs) (ts ++ us) := by
      rcases effect_cases found with found | found | found | found
      · exact arrow_accepts ih found
      · exact pureWord_accepts found
      · exact components_accepts found
      · exact quantified_accepts found
    obtain ⟨ts, derives, taken⟩ := skipped
    exact ⟨ts, derives, fun us spells => (taken us spells).of_skipBlanks⟩

def Takes (reader : Scanner α) (Ready : List Char → Prop) (Next : List Token → Prop)
    (ts : List Token) (a : α) : Prop :=
  ∀ ⦃cs us⦄, Ready cs → Spells cs (ts ++ us) → Next us →
    ∃ rest, reader cs = some (a, rest) ∧ Spells rest us

def Trimmed (cs : List Char) : Prop := skipBlanks cs = cs

theorem trimmed_skipBlanks (cs : List Char) : Trimmed (skipBlanks cs) :=
  List.dropWhile_idempotent isBlank cs

def Past (mark : Char) (us : List Token) : Prop := us.head? ≠ some (.mark mark)

theorem past_nil (mark : Char) : Past mark [] := by
  intro same
  cases same

theorem past_mark {mark other : Char} (different : other ≠ mark) (us : List Token) :
    Past mark (.mark other :: us) := by
  intro same
  cases same
  exact different rfl

theorem symbol_takes {mark : Char} {cs : List Char} {us : List Token}
    (spells : Spells cs (.mark mark :: us)) : ∃ rest, symbol mark cs = some rest ∧ Spells rest us := by
  obtain ⟨rest, front, -, later⟩ := spells.skipBlanks_eq_token
  exact ⟨rest, symbol_eq_some.mpr front, later⟩

theorem symbol_past {mark : Char} (isMark : mark ∈ marks) {cs : List Char} {us : List Token}
    (spells : Spells cs us) (past : Past mark us) : symbol mark cs = none := by
  have other {c : Char} {more : List Char} (front : skipBlanks cs = c :: more) (different : c ≠ mark) :
      symbol mark cs = none := by
    simp [symbol, front, different]
  cases us with
  | nil => simp [symbol, spells.skipBlanks_eq_nil]
  | cons t us =>
    obtain ⟨rest, front, fits, -⟩ := spells.skipBlanks_eq_token
    cases fits with
    | mark =>
      refine other front ?_
      rintro rfl
      exact past rfl
    | arrow =>
      refine other front ?_
      rintro rfl
      exact absurd isMark (by decide)
    | word isIdentifier =>
      obtain ⟨c, more, rfl, start, -⟩ := exists_chars isIdentifier
      rw [Token.chars, String.toList_ofList] at front
      refine other front ?_
      rintro rfl
      rw [not_isNameStart_of_mem_marks isMark] at start
      cases start
    | quoted =>
      refine other front ?_
      rintro rfl
      exact absurd isMark (by decide)

theorem member_takes {ts : List Token} {set : VariableSet} (meaning : Member ts set) :
    Takes member Trimmed (fun _ => True) ts set := by
  intro cs us trimmed spells _
  cases meaning with
  | var text =>
    obtain ⟨rest, front, fits, later⟩ := spells.skipBlanks_eq_token
    cases fits with
    | quoted isIdentifier =>
      have quote : Cut ('\'' :: rest) := cut_cons rfl
      have read := identifier_reads isIdentifier quote
      refine ⟨rest, ?_, later⟩
      rw [← trimmed, front]
      simp [Token.chars, member, read]
  | name isName =>
    obtain ⟨rest, front, fits, later⟩ := spells.skipBlanks_eq_token
    cases fits with
    | word _ longest =>
      refine ⟨rest, ?_, later⟩
      rw [← trimmed, front]
      exact member_reads_name isName (cut_iff.mpr longest)

theorem length_le_of_series {mark : Char} {Item : List Token → α → Prop} {ts : List Token}
    {as : List α} (series : Series mark Item ts as) : as.length ≤ ts.length + 1 := by
  induction series with
  | one => exact Nat.le_add_left _ _
  | more _ _ ih =>
    rw [List.length_cons, List.length_append, List.length_cons]
    omega

section Lists

variable {mark : Char} {item : Scanner α} {Item : List Token → α → Prop}
  {Ready : List Char → Prop} {Next : List Token → Prop} {bound : Nat}
  {divider : List Char → Option (List Char)}
  (takes : ∀ ⦃ts a⦄, Item ts a → ts.length ≤ bound → Takes item Ready Next ts a)
  (divides : ∀ ⦃cs us⦄, Spells cs (.mark mark :: us) →
    ∃ rest, divider cs = some rest ∧ Ready rest ∧ Spells rest us)
  (ends : ∀ ⦃cs us⦄, Spells cs us → Past mark us → divider cs = none)
  (continues : ∀ us, Next (.mark mark :: us))

include takes divides ends continues

theorem following_takes {ts : List Token} {as : List α} (series : Series mark Item ts as)
    (short : ts.length ≤ bound) {cs : List Char} {us : List Token} (ready : Ready cs)
    (spells : Spells cs (ts ++ us)) (next : Next us) (past : Past mark us) :
    ∃ a others inside rest, as = a :: others ∧ item cs = some (a, inside) ∧
      others.length ≤ inside.length ∧
      (∀ limit, others.length ≤ limit → following item divider limit inside = (others, rest)) ∧
      Spells rest us := by
  induction series generalizing cs with
  | one meaning =>
    obtain ⟨rest, read, later⟩ := takes meaning short ready spells next
    refine ⟨_, [], rest, rest, rfl, read, Nat.zero_le _, fun limit _ => ?_, later⟩
    cases limit with
    | zero => rfl
    | succ limit => simp [following, ends later past]
  | more meaning series ih =>
    rw [List.length_append, List.length_cons] at short
    rw [List.append_assoc, List.cons_append] at spells
    obtain ⟨inside, read, after⟩ := takes meaning (by omega) ready spells (continues _)
    have count := after.length_le
    obtain ⟨start, divided, ready', spells'⟩ := divides after
    obtain ⟨b, others, inside', rest, rfl, read', -, follow, last⟩ := ih (by omega) ready' spells'
    refine ⟨_, b :: others, inside, rest, rfl, read, ?_, fun limit enough => ?_, last⟩
    · have := length_le_of_series series
      rw [List.length_cons, List.length_append] at count
      omega
    · obtain ⟨limit, rfl⟩ := Nat.exists_eq_add_one_of_ne_zero (Nat.ne_zero_of_lt enough)
      have later := follow limit (Nat.le_of_succ_le_succ enough)
      simp only [following, divided, Option.bind_some, read', later]

theorem separated_takes {ts : List Token} {as : List α} (series : Series mark Item ts as)
    (short : ts.length ≤ bound) {cs : List Char} {us : List Token} (ready : Ready cs)
    (spells : Spells cs (ts ++ us)) (next : Next us) (past : Past mark us) :
    as ≠ [] ∧ ∃ rest, separated item divider cs = (as, rest) ∧ Spells rest us := by
  obtain ⟨a, others, inside, rest, rfl, read, enough, follow, last⟩ :=
    following_takes takes divides ends continues series short ready spells next past
  refine ⟨List.cons_ne_nil a others, rest, ?_, last⟩
  simp only [separated, read, follow _ enough]

theorem listed_takes {ts : List Token} {as : List α} (listed : Listed mark Item ts as)
    (short : ts.length ≤ bound) {cs : List Char} {us : List Token} (ready : Ready cs)
    (spells : Spells cs (ts ++ us)) (next : Next us) (past : Past mark us)
    (stops : Spells cs us → item cs = none) :
    ∃ rest, separated item divider cs = (as, rest) ∧ Spells rest us := by
  cases listed with
  | none => exact ⟨cs, by simp only [separated, stops spells], spells⟩
  | some series =>
    exact (separated_takes takes divides ends continues series short ready spells next past).2

end Lists

theorem divider_takes {mark : Char} ⦃cs : List Char⦄ ⦃us : List Token⦄
    (spells : Spells cs (.mark mark :: us)) :
    ∃ rest, (symbol mark cs).map skipBlanks = some rest ∧ Trimmed rest ∧ Spells rest us := by
  obtain ⟨rest, found, later⟩ := symbol_takes spells
  exact ⟨_, by rw [found, Option.map_some], trimmed_skipBlanks rest, later.skipBlanks⟩

theorem divider_past {mark : Char} (isMark : mark ∈ marks) ⦃cs : List Char⦄ ⦃us : List Token⦄
    (spells : Spells cs us) (past : Past mark us) : (symbol mark cs).map skipBlanks = none := by
  rw [symbol_past isMark spells past, Option.map_none]

theorem component_takes {ts : List Token} {part : Component × VariableSet} (meaning : Part ts part) :
    Takes component Trimmed (fun _ => True) ts part := by
  intro cs us trimmed spells _
  cases meaning with
  | @intro word ts members set listed united =>
    obtain rfl := unites_iff.mp united
    simp only [List.cons_append, List.append_assoc] at spells
    obtain ⟨inside, front, -, spells⟩ := spells.skipBlanks_eq_token
    rw [trimmed] at front
    have keyword : componentKeyword (word.keyword.toList ++ inside) = some (word, inside) :=
      componentKeyword_reads word trivial
    obtain ⟨opened, opening, spells⟩ := symbol_takes spells
    have stops (spells : Spells (skipBlanks opened) (.mark ']' :: us)) :
        member (skipBlanks opened) = none := by
      obtain ⟨rest, front, -, -⟩ := spells.skipBlanks_eq_token
      rw [trimmed_skipBlanks opened] at front
      rw [front]
      rfl
    obtain ⟨closed, members', spells⟩ := listed_takes (fun _ _ meaning _ => member_takes meaning)
      divider_takes (divider_past (by decide)) (fun _ => trivial) listed (Nat.le_refl _)
      (trimmed_skipBlanks opened) spells.skipBlanks trivial (past_mark (by decide) us) stops
    obtain ⟨rest, closing, later⟩ := symbol_takes spells
    refine ⟨rest, ?_, later⟩
    rw [front, Token.chars]
    exact component_eq_some.mpr
      ⟨word, inside, opened, members, closed, keyword, opening, members', closing, rfl⟩

theorem components_takes {ts : List Token} {parts : List (Component × VariableSet)}
    (series : Series '&' Part ts parts) :
    Takes components Trimmed (Past '&') ts (.concrete (.ofParts parts)) := by
  intro cs us trimmed spells past
  obtain ⟨some, rest, run, later⟩ := separated_takes
    (fun _ _ meaning _ => component_takes meaning) divider_takes (divider_past (by decide))
    (fun _ => trivial) series (Nat.le_refl _) trimmed spells trivial past
  exact ⟨rest, components_eq_some.mpr ⟨parts, some, run, rfl⟩, later⟩

theorem arrow_word (reader : Scanner Effect) {text : String} (isIdentifier : IsIdentifier text)
    (rest : List Char) : arrow reader (text.toList ++ rest) = none := by
  obtain ⟨c, more, rfl, start, -⟩ := exists_chars isIdentifier
  rw [String.toList_ofList]
  refine arrow_other ?_ _
  rintro rfl
  exact absurd start (by decide)

theorem effect_stops (depth : Nat) {cs : List Char} {us : List Token}
    (spells : Spells cs (.mark ')' :: us)) : effect depth cs = none := by
  obtain ⟨rest, front, -, -⟩ := spells.skipBlanks_eq_token
  cases depth with
  | zero => rfl
  | succ depth =>
    rw [effect, front]
    rfl

theorem exists_keyword {ts : List Token} {parts : List (Component × VariableSet)}
    (series : Series '&' Part ts parts) :
    ∃ (word : Component) (us : List Token), ts = .word word.keyword :: us := by
  cases series with
  | one meaning =>
    cases meaning with
    | intro word => exact ⟨word, _, rfl⟩
  | more meaning =>
    cases meaning with
    | intro word => exact ⟨word, _, rfl⟩

/-- By induction on the depth, which the tokens inside an arrow need less of. -/
theorem effect_takes (depth : Nat) {ts : List Token} {meaning : Effect}
    (derives : Derives ts meaning) (enough : ts.length < depth) :
    Takes (effect depth) (fun _ => True) (Past '&') ts meaning := by
  induction depth generalizing ts meaning with
  | zero => exact absurd enough (Nat.not_lt_zero _)
  | succ depth ih =>
    intro cs vs _ spells past
    cases derives with
    | @arrow ts us params result inputs output =>
      simp only [List.length_cons, List.length_append] at enough
      simp only [List.append_assoc, List.cons_append] at spells
      obtain ⟨opened, front, -, spells⟩ := spells.skipBlanks_eq_token
      obtain ⟨closed, params', spells⟩ := listed_takes
        (fun _ _ derives short => ih derives (by omega))
        (fun _ _ spells => (symbol_takes spells).imp fun _ found => ⟨found.1, trivial, found.2⟩)
        (fun _ _ spells past => symbol_past (by decide) spells past)
        (fun us => past_mark (by decide) us) inputs (Nat.le_refl ts.length) trivial spells
        (past_mark (by decide) _) (past_mark (by decide) _) (effect_stops depth)
      obtain ⟨after, closing, spells⟩ := symbol_takes spells
      obtain ⟨last, tied, -, spells⟩ := spells.skipBlanks_eq_token
      obtain ⟨rest, read, later⟩ := ih output (by omega) trivial spells past
      refine ⟨rest, ?_, later⟩
      simp [effect, front, Token.chars, Parsing.arrow, params', closing, tied, read]
    | pure =>
      obtain ⟨rest, front, fits, later⟩ := spells.skipBlanks_eq_token
      cases fits with
      | word isIdentifier longest =>
        have ended := cut_iff_head.mp (cut_iff.mpr longest)
        refine ⟨rest, ?_, later⟩
        have first := arrow_word (effect depth) isIdentifier rest
        have word : pureWord ("Pure".toList ++ rest) = some (.empty, rest) :=
          pureWord_eq_some.mpr ⟨rfl, ended, rfl⟩
        rw [effect, front, Token.chars]
        simp only [first, word]
        rfl
    | @concrete ts parts footprint series united =>
      obtain rfl := unites_components_iff.mp united
      obtain ⟨rest, read, later⟩ :=
        components_takes series (trimmed_skipBlanks cs) spells.skipBlanks past
      refine ⟨rest, ?_, later⟩
      obtain ⟨word, us, rfl⟩ := exists_keyword series
      obtain ⟨inside, front, -, -⟩ := spells.skipBlanks_eq_token
      have isIdentifier : IsIdentifier word.keyword := by cases word <;> decide
      have first := arrow_word (effect depth) isIdentifier inside
      have second : pureWord (word.keyword.toList ++ inside) = none := by cases word <;> rfl
      rw [front, Token.chars] at read
      rw [effect, front, Token.chars]
      simp only [first, second, read]
      rfl
    | quantified isName =>
      obtain ⟨rest, front, fits, later⟩ := spells.skipBlanks_eq_token
      cases fits with
      | word isIdentifier longest =>
        have cut := cut_iff.mpr longest
        have first := arrow_word (effect depth) isIdentifier rest
        have word := name_reads isName cut
        refine ⟨rest, ?_, later⟩
        rw [effect, front, Token.chars]
        simp only [first, pureWord_name isName cut, components_name isName cut, Parsing.quantified]
        simp [word]

end Effect.Parsing

namespace Effect

/-- A text is read as an effect exactly when the grammar derives it with this meaning. -/
theorem parser_accepts_exactly_its_grammar (text : String) (effect : Effect) :
    parse text = .ok effect ↔
      ∃ tokens, Grammar.Spells text.toList tokens ∧ Grammar.Derives tokens effect := by
  constructor
  · intro parsed
    unfold parse at parsed
    dsimp only at parsed
    split at parsed
    · cases parsed
    · rename_i rest found
      split at parsed
      · rename_i done
        cases parsed
        obtain ⟨tokens, derives, taken⟩ := Parsing.effect_accepts _ found
        have ended : Grammar.Spells rest [] := by
          apply Grammar.Spells.of_skipBlanks
          rw [done]
          exact .nil
        have spells := taken [] ended
        rw [List.append_nil] at spells
        exact ⟨tokens, spells, derives⟩
      · cases parsed
  · rintro ⟨tokens, spells, derives⟩
    have enough := Nat.lt_succ_of_le spells.length_le
    rw [← List.append_nil tokens] at spells
    obtain ⟨rest, read, ended⟩ :=
      Parsing.effect_takes _ derives enough trivial spells (Parsing.past_nil '&')
    unfold parse
    simp only [read, ended.skipBlanks_eq_nil]

example : parse "Read [ 'x',y ]&Read['z'] " =
    .ok (.concrete ⟨.union [.quantified "y", .concrete (.ofList ["x", "z"])], .empty, .empty⟩) := by
  cbv

end Effect

end SpecEffects
