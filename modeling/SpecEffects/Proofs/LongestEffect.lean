import SpecEffects.Proofs.Grammar

/-!
How much of a text is read as an effect. A reader looks only a little beyond what it takes: a name
ends where no character continues it, and a list of components ends where no further one follows. What
stands after that can be replaced. So the text can be cut off behind the effect, which is then all of
it, and no longer part of the text is an effect, because the reader would stop there at the same
place.
-/
namespace SpecEffects.Effect.Parsing

open Grammar
open Text (Scanner)

variable {α : Type}

theorem blanks_append (cs : List Char) : cs.takeWhile isBlank ++ skipBlanks cs = cs :=
  List.takeWhile_append_dropWhile

theorem not_isBlank_of_skipBlanks {cs more : List Char} {c : Char}
    (skipped : skipBlanks cs = c :: more) : isBlank c = false := by
  have stop := List.head?_dropWhile_not isBlank cs
  rw [show cs.dropWhile isBlank = _ from skipped] at stop
  exact stop

theorem skipBlanks_again {cs word rest : List Char} (skipped : skipBlanks cs = word ++ rest)
    (some : word ≠ []) (rest' : List Char) :
    skipBlanks (cs.takeWhile isBlank ++ (word ++ rest')) = word ++ rest' := by
  have blank : ∀ c ∈ cs.takeWhile isBlank, isBlank c = true :=
    fun c member => List.all_eq_true.mp List.all_takeWhile c member
  obtain ⟨c, more, rfl⟩ := List.exists_cons_of_ne_nil some
  rw [skipBlanks, List.dropWhile_append_of_pos blank]
  exact skipBlanks_cons (not_isBlank_of_skipBlanks skipped)

/-- The reader takes a part of the text that the other readers take as well, whatever may stand after
it instead of what does. They are told a bound for its length. -/
def Local (Keep : List Char → List Char → Prop) (reader : Scanner α) (readers : Nat → Scanner α) :
    Prop :=
  ∀ ⦃cs a rest⦄, reader cs = some (a, rest) → ∃ word, word ≠ [] ∧ cs = word ++ rest ∧
    ∀ ⦃rest' bound⦄, Keep rest rest' → word.length < bound →
      readers bound (word ++ rest') = some (a, rest')

def KeepsCut (rest rest' : List Char) : Prop := Cut rest → Cut rest'

def NoComponent (rest : List Char) : Prop :=
  ((symbol '&' rest).map skipBlanks).bind component = none

def KeepsEnd (rest rest' : List Char) : Prop :=
  KeepsCut rest rest' ∧ (NoComponent rest → NoComponent rest')

theorem symbol_local {mark : Char} {cs rest : List Char} (found : symbol mark cs = some rest) :
    ∃ word, word ≠ [] ∧ cs = word ++ rest ∧
      ∀ rest', symbol mark (word ++ rest') = some rest' := by
  have skipped : skipBlanks cs = [mark] ++ rest := symbol_eq_some.mp found
  refine ⟨cs.takeWhile isBlank ++ [mark], by simp, ?_, fun rest' => ?_⟩
  · rw [List.append_assoc, ← skipped, blanks_append]
  · rw [List.append_assoc, symbol_eq_some]
    exact skipBlanks_again skipped (List.cons_ne_nil _ _) rest'

theorem symbol_unless {mark other : Char} {cs rest : List Char} (found : symbol mark cs = some rest)
    (different : mark ≠ other) : symbol other cs = none := by
  rw [symbol, symbol_eq_some.mp found]
  exact if_neg different

theorem ne_nil_of_isIdentifier {text : String} (isIdentifier : IsIdentifier text) :
    text.toList ≠ [] := by
  obtain ⟨c, more, rfl, -⟩ := exists_chars isIdentifier
  simp

theorem member_local : Local KeepsCut member fun _ => member := by
  intro cs set rest found
  rcases member_cases found with ⟨inside, var, rfl, read, rfl⟩ | ⟨text, read, rfl⟩
  · obtain ⟨isIdentifier, rfl, -⟩ := identifier_spells read
    refine ⟨'\'' :: (var.toList ++ ['\'']), List.cons_ne_nil _ _, by simp, fun rest' _ _ _ => ?_⟩
    have quote : Cut ('\'' :: rest') := cut_cons rfl
    have again := identifier_reads isIdentifier quote
    simp [member, again]
  · obtain ⟨isName, whole, cut⟩ := name_spells read
    exact ⟨text.toList, ne_nil_of_isIdentifier isName.1, whole,
      fun rest' _ keeps _ => member_reads_name isName (keeps cut)⟩

def Divides (divider : List Char → Option (List Char)) : Prop :=
  ∀ ⦃cs rest⦄, divider cs = some rest → ∃ word, word ≠ [] ∧ cs = word ++ rest ∧
    ∀ ⦃front back⦄, rest = front ++ back → front ≠ [] →
      ∀ back', divider (word ++ (front ++ back')) = some (front ++ back')

theorem symbol_divides (mark : Char) : Divides (symbol mark) := by
  intro cs rest found
  obtain ⟨word, some, whole, again⟩ := symbol_local found
  exact ⟨word, some, whole, fun _ _ _ _ _ => again _⟩

theorem skipping_divides (mark : Char) : Divides fun cs => (symbol mark cs).map skipBlanks := by
  intro cs rest found
  obtain ⟨after, read, rfl⟩ := Option.map_eq_some_iff.mp found
  obtain ⟨word, some, rfl, again⟩ := symbol_local read
  refine ⟨word ++ after.takeWhile isBlank, by simp [some], ?_, fun front back split visible back' => ?_⟩
  · rw [List.append_assoc, blanks_append]
  · dsimp only
    rw [List.append_assoc, again, Option.map_some, skipBlanks_again split visible]

section Lists

variable {item : Scanner α} {items : Nat → Scanner α} {divider : List Char → Option (List Char)}
  {Keep : List Char → List Char → Prop} (each : Local Keep item items) (divides : Divides divider)

include each divides

theorem divided_local : Local Keep (fun cs => (divider cs).bind item)
    fun bound cs => (divider cs).bind (items bound) := by
  intro cs a rest found
  obtain ⟨after, divided, read⟩ := Option.bind_eq_some_iff.mp found
  obtain ⟨front, some, rfl, again⟩ := divides divided
  obtain ⟨word, visible, rfl, reads⟩ := each read
  refine ⟨front ++ word, by simp [some], (List.append_assoc ..).symm, fun rest' bound keep short => ?_⟩
  rw [List.length_append] at short
  dsimp only
  rw [List.append_assoc, again rfl visible, Option.bind_some, reads keep (by omega)]

variable (continues : ∀ cs {cs' rest}, divider cs' = some rest → Keep cs cs')

include continues

/-- By induction on the number of items that may still come. A list that has not used it up stops
where no further item follows. -/
theorem following_local {limit : Nat} {cs rest : List Char} {as : List α}
    (run : following item divider limit cs = (as, rest)) :
    (cs.length ≤ limit → (divider rest).bind item = none) ∧
    ∃ word, cs = word ++ rest ∧ as.length ≤ word.length ∧
      ∀ ⦃rest' bound limit'⦄, Keep rest rest' → word.length < bound →
        (divider rest').bind (items bound) = none → as.length ≤ limit' →
        following (items bound) divider limit' (word ++ rest') = (as, rest') ∧
          Keep cs (word ++ rest') := by
  have nothing : ∀ ⦃rest' bound limit'⦄, (divider rest').bind (items bound) = none →
      following (items bound) divider limit' rest' = ([], rest') := by
    intro rest' bound limit' stops
    cases limit' with
    | zero => rfl
    | succ limit' => simp only [following, stops]
  induction limit generalizing cs as with
  | zero =>
    cases run
    refine ⟨fun short => ?_, [], rfl, Nat.le_refl _, fun rest' bound limit' keep _ stops _ =>
      ⟨nothing stops, keep⟩⟩
    cases List.length_eq_zero_iff.mp (Nat.le_zero.mp short)
    by_contra more
    obtain ⟨found, eq⟩ := Option.ne_none_iff_exists'.mp more
    obtain ⟨word, some, empty, -⟩ := divided_local each divides eq
    exact some (List.append_eq_nil_iff.mp empty.symm).1
  | succ limit ih =>
    unfold following at run
    split at run
    · rename_i stop
      cases run
      exact ⟨fun _ => stop, [], rfl, Nat.le_refl _, fun rest' bound limit' keep _ stops _ =>
        ⟨nothing stops, keep⟩⟩
    · rename_i first inside found
      cases run
      obtain ⟨word, some, rfl, reads⟩ := divided_local each divides found
      obtain ⟨stop, word', whole, count, follows⟩ := ih rfl
      have visible := List.length_pos_iff.mpr some
      refine ⟨fun short => stop ?_, word ++ word', ?_, ?_,
        fun rest' bound limit' keep short stops enough => ?_⟩
      · rw [List.length_append] at short
        omega
      · rw [List.append_assoc, ← whole]
      · rw [List.length_cons, List.length_append]
        omega
      · rw [List.length_append] at short
        rw [List.length_cons] at enough
        obtain ⟨limit', rfl⟩ := Nat.exists_eq_add_one_of_ne_zero (Nat.ne_zero_of_lt enough)
        obtain ⟨later, keep'⟩ := follows keep (show word'.length < bound by omega) stops
          (show _ ≤ limit' by omega)
        have read := reads keep' (show word.length < bound by omega)
        obtain ⟨after, divided, _⟩ := Option.bind_eq_some_iff.mp read
        rw [List.append_assoc]
        refine ⟨?_, continues _ divided⟩
        simp only [following, read, later]

theorem separated_local {cs rest : List Char} {as : List α}
    (run : separated item divider cs = (as, rest)) :
    ∃ word, cs = word ++ rest ∧ (as ≠ [] → word ≠ [] ∧ (divider rest).bind item = none) ∧
      ∀ ⦃rest' bound⦄, Keep rest rest' → word.length < bound →
        (divider rest').bind (items bound) = none → (as = [] → items bound rest' = none) →
        separated (items bound) divider (word ++ rest') = (as, rest') := by
  unfold separated at run
  split at run
  · cases run
    refine ⟨[], rfl, fun some => absurd rfl some, fun rest' bound _ _ _ stops => ?_⟩
    simp only [separated, List.nil_append, stops rfl]
  · rename_i first inside found
    cases run
    obtain ⟨word, some, rfl, reads⟩ := each found
    obtain ⟨stop, word', whole, count, follows⟩ := following_local each divides continues rfl
    refine ⟨word ++ word', by rw [List.append_assoc, ← whole],
      fun _ => ⟨by simp [some], stop (Nat.le_refl _)⟩, fun rest' bound keep short stops _ => ?_⟩
    rw [List.length_append] at short
    obtain ⟨later, keep'⟩ := follows keep (show word'.length < bound by omega) stops
      (show _ ≤ (word' ++ rest').length by rw [List.length_append]; omega)
    have read := reads keep' (show word.length < bound by omega)
    rw [List.append_assoc]
    simp only [separated, read, later]

end Lists

theorem member_stops {cs rest : List Char} (closing : symbol ']' cs = some rest) :
    member cs = none := by
  have cut := cut_of_symbol rfl closing
  cases cs with
  | nil => rfl
  | cons c more =>
    have other : isNameStart c = false := by
      by_contra start
      have continues := isNameChar_of_isNameStart (Bool.of_not_eq_false start)
      rw [cut c rfl] at continues
      cases continues
    unfold member
    split
    · rename_i same
      cases same
      rw [symbol_other rfl (by decide)] at closing
      cases closing
    · simp [name, identifier, other]

theorem component_local : Local (fun _ _ => True) component fun _ => component := by
  intro cs part rest found
  obtain ⟨word, inside, opened, listing, closed, keyword, opening, run, closing, rfl⟩ :=
    component_eq_some.mp found
  have keyword_eq := eq_of_componentKeyword keyword
  obtain ⟨start, _, opening_eq, opens⟩ := symbol_local opening
  obtain ⟨last, visible, closing_eq, closes⟩ := symbol_local closing
  have comma : ∀ cs {cs' rest}, (symbol ',' cs').map skipBlanks = some rest → KeepsCut cs cs' := by
    intro cs cs' rest found _
    obtain ⟨_, read, _⟩ := Option.map_eq_some_iff.mp found
    exact cut_of_symbol rfl read
  obtain ⟨members, members_eq, _, again⟩ :=
    separated_local member_local (skipping_divides ',') comma run
  rw [closing_eq, ← List.append_assoc] at members_eq
  refine ⟨word.keyword.toList ++ (start ++ (opened.takeWhile isBlank ++ (members ++ last))), ?_, ?_,
    fun rest' bound _ _ => ?_⟩
  · simp [visible]
  · have whole : opened = opened.takeWhile isBlank ++ (members ++ last ++ rest) := by
      rw [← members_eq, blanks_append]
    simpa [keyword_eq, opening_eq] using whole
  · have skips := skipBlanks_again members_eq (by simp [visible]) rest'
    have closing' := closes rest'
    have listed := again (fun _ => cut_of_symbol rfl closing') (Nat.lt_succ_self members.length)
      (by rw [symbol_unless closing' (by decide)]; rfl) (fun _ => member_stops closing')
    simp only [List.append_assoc] at skips ⊢
    refine component_eq_some.mpr ⟨word, _, _, listing, _, componentKeyword_reads word trivial,
      opens _, ?_, closing', rfl⟩
    rw [skips, listed]

theorem components_local : Local KeepsEnd components fun _ => components := by
  intro cs effect rest found
  obtain ⟨parts, nonempty, run, rfl⟩ := components_eq_some.mp found
  obtain ⟨word, whole, visible, again⟩ := separated_local component_local (skipping_divides '&')
    (fun _ _ _ _ => trivial) run
  obtain ⟨some, stop⟩ := visible nonempty
  refine ⟨word, some, whole, fun rest' bound keeps short => ?_⟩
  have listed := again trivial short (keeps.2 stop) (fun none => absurd none nonempty)
  exact components_eq_some.mpr ⟨parts, nonempty, listed, rfl⟩

theorem keepsEnd_of_symbol {mark : Char} {cs' rest : List Char} (found : symbol mark cs' = some rest)
    (other : isNameChar mark = false) (different : mark ≠ '&') (cs : List Char) :
    KeepsEnd cs cs' := by
  refine ⟨fun _ => cut_of_symbol other found, fun _ => ?_⟩
  rw [NoComponent, symbol_unless found different]
  rfl

/-- The parameters are followed by a bracket, so that only the result looks at what comes after the
arrow. Its pieces are shorter by the bracket at the front. -/
theorem arrow_local {reader : Scanner Effect} {readers : Nat → Scanner Effect}
    (each : Local KeepsEnd reader readers)
    (stops : ∀ {cs rest}, symbol ')' cs = some rest → ∀ bound, readers bound cs = none) :
    Local KeepsEnd (arrow reader) fun bound => arrow (readers (bound - 1)) := by
  intro cs effect rest found
  obtain ⟨opened, inputs, ended, closed, after, result, rfl, run, closing, tied, read, rfl⟩ :=
    arrow_eq_some.mp found
  obtain ⟨params, params_eq, _, again⟩ := separated_local each (symbol_divides ',')
    (fun cs _ _ comma => keepsEnd_of_symbol comma rfl (by decide) cs) run
  obtain ⟨last, _, closing_eq, closes⟩ := symbol_local closing
  obtain ⟨word, visible, rfl, reads⟩ := each read
  have tie : skipBlanks closed = ('=' :: '>' :: word) ++ rest := tied
  rw [closing_eq] at params_eq
  refine ⟨'(' :: (params ++ (last ++ (closed.takeWhile isBlank ++ ('=' :: '>' :: word)))),
    List.cons_ne_nil _ _, ?_, fun rest' bound keeps short => ?_⟩
  · have whole : closed = closed.takeWhile isBlank ++ ('=' :: '>' :: (word ++ rest)) := by
      rw [← tied, blanks_append]
    simpa [params_eq] using whole
  · simp only [List.length_cons, List.length_append] at short
    have skips := skipBlanks_again tie (List.cons_ne_nil _ _) rest'
    have closing' := closes (closed.takeWhile isBlank ++ ('=' :: '>' :: (word ++ rest')))
    have listed := again (keepsEnd_of_symbol closing' rfl (by decide) _)
      (show params.length < bound - 1 by omega)
      (by rw [symbol_unless closing' (by decide)]; rfl) (fun _ => stops closing' _)
    have output := reads keeps (show word.length < bound - 1 by omega)
    simp only [List.cons_append, List.append_assoc]
    exact arrow_eq_some.mpr
      ⟨_, inputs, _, _, _, result, rfl, listed, closing', skips, output, rfl⟩

theorem pureWord_local : Local KeepsCut pureWord fun _ => pureWord := by
  intro cs effect rest found
  obtain ⟨rfl, rfl, cut⟩ := pureWord_spells found
  refine ⟨"Pure".toList, by decide, rfl, fun rest' _ keeps _ => ?_⟩
  exact pureWord_eq_some.mpr ⟨rfl, cut_iff_head.mp (keeps cut), rfl⟩

theorem quantified_spells {cs rest : List Char} {effect : Effect}
    (found : quantified cs = some (effect, rest)) :
    ∃ text, IsName text ∧ effect = .quantified text ∧ cs = text.toList ++ rest ∧ Cut rest := by
  obtain ⟨text, read, rfl⟩ := quantified_eq_some.mp found
  obtain ⟨isName, whole, cut⟩ := name_spells read
  exact ⟨text, isName, rfl, whole, cut⟩

theorem quantified_local : Local KeepsCut quantified fun _ => quantified := by
  intro cs effect rest found
  obtain ⟨text, isName, rfl, rfl, cut⟩ := quantified_spells found
  refine ⟨text.toList, ne_nil_of_isIdentifier isName.1, rfl, fun rest' _ keeps _ => ?_⟩
  exact quantified_eq_some.mpr ⟨text, name_reads isName (keeps cut), rfl⟩

theorem components_first {cs : List Char} {read : Effect × List Char}
    (found : components cs = some read) (reader : Scanner Effect) :
    arrow reader cs = none ∧ pureWord cs = none := by
  obtain ⟨effect, rest⟩ := read
  obtain ⟨parts, nonempty, run, rfl⟩ := components_eq_some.mp found
  unfold separated at run
  split at run
  · cases run
    exact absurd rfl nonempty
  · rename_i first
    obtain ⟨word, inside, _, _, _, keyword, -⟩ := component_eq_some.mp first
    rw [eq_of_componentKeyword keyword]
    exact ⟨arrow_word reader (by cases word <;> decide) inside, by cases word <;> rfl⟩

theorem effect_stops_at_bracket {cs rest : List Char} (found : symbol ')' cs = some rest)
    (depth : Nat) : effect depth cs = none := by
  cases depth with
  | zero => rfl
  | succ depth =>
    rw [effect, symbol_eq_some.mp found]
    rfl

theorem effect_local (depth : Nat) : Local KeepsEnd (effect depth) effect := by
  induction depth with
  | zero =>
    intro cs result rest found
    cases found
  | succ depth ih =>
    intro cs result rest found
    have taken : ∃ word, word ≠ [] ∧ skipBlanks cs = word ++ rest ∧
        ∀ ⦃rest' depth'⦄, KeepsEnd rest rest' → word.length < depth' + 1 →
          (arrow (effect depth') (word ++ rest') <|> pureWord (word ++ rest') <|>
            components (word ++ rest') <|> quantified (word ++ rest')) = some (result, rest') := by
      rcases effect_cases found with found | found | found | found
      · obtain ⟨word, some, whole, reads⟩ := arrow_local ih effect_stops_at_bracket found
        refine ⟨word, some, whole, fun rest' depth' keeps short => ?_⟩
        rw [show arrow (effect depth') (word ++ rest') = _ from reads keeps short]
        rfl
      · obtain ⟨word, some, whole, reads⟩ := pureWord_local found
        refine ⟨word, some, whole, fun rest' depth' keeps short => ?_⟩
        have read := reads keeps.1 short
        obtain ⟨-, spelled, -⟩ := pureWord_spells read
        rw [spelled] at read ⊢
        have first := arrow_word (effect depth') (show IsIdentifier "Pure" by decide) rest'
        simp only [first, read]
        rfl
      · obtain ⟨word, some, whole, reads⟩ := components_local found
        refine ⟨word, some, whole, fun rest' depth' keeps short => ?_⟩
        have read := reads keeps short
        obtain ⟨first, second⟩ := components_first read (effect depth')
        simp only [first, second, read]
        rfl
      · obtain ⟨word, some, whole, reads⟩ := quantified_local found
        refine ⟨word, some, whole, fun rest' depth' keeps short => ?_⟩
        have read := reads keeps.1 short
        obtain ⟨text, isName, -, spelled, cut⟩ := quantified_spells read
        rw [spelled] at read ⊢
        have first := arrow_word (effect depth') isName.1 rest'
        simp only [first, pureWord_name isName cut, components_name isName cut, read]
        rfl
    obtain ⟨word, some, whole, reads⟩ := taken
    refine ⟨cs.takeWhile isBlank ++ word, by simp [some], ?_, fun rest' bound keeps short => ?_⟩
    · rw [List.append_assoc, ← whole, blanks_append]
    · obtain ⟨bound, rfl⟩ := Nat.exists_eq_add_one_of_ne_zero (Nat.ne_zero_of_lt short)
      rw [List.length_append] at short
      rw [List.append_assoc, effect, skipBlanks_again whole some]
      exact reads keeps (by omega)

theorem byteLength_eq (cs : List Char) : byteLength cs = (String.ofList cs).utf8ByteSize := by
  induction cs with
  | nil => rfl
  | cons c rest ih =>
    rw [byteLength, ih, String.ofList_cons, String.utf8ByteSize_append, String.utf8ByteSize_singleton]

theorem skipBlanks_takeWhile (cs : List Char) : skipBlanks (cs.takeWhile isBlank) = [] := by
  rw [skipBlanks, List.dropWhile_eq_nil_iff]
  exact fun c member => List.all_eq_true.mp List.all_takeWhile c member

theorem keepsEnd_takeWhile (rest cs : List Char) : KeepsEnd rest (cs.takeWhile isBlank) := by
  refine ⟨fun _ c first => ?_, fun _ => ?_⟩
  · apply not_isNameChar_of_isBlank
    exact List.all_eq_true.mp List.all_takeWhile c (List.mem_of_mem_head? first)
  · simp [NoComponent, symbol, skipBlanks_takeWhile]

theorem keepsEnd_of_append {front : List Char} (some : front ≠ []) (tail : List Char) :
    KeepsEnd (front ++ tail) front := by
  refine ⟨fun cut c first => cut c ?_, fun none => ?_⟩
  · obtain ⟨d, more, rfl⟩ := List.exists_cons_of_ne_nil some
    exact first
  · by_contra more
    obtain ⟨read, found⟩ := Option.ne_none_iff_exists'.mp more
    -- the component could have been read from the longer text as well
    obtain ⟨word, _, whole, reads⟩ := divided_local component_local (skipping_divides '&') found
    have again := @reads (read.2 ++ tail) _ trivial (Nat.lt_succ_self word.length)
    rw [← List.append_assoc, ← whole] at again
    dsimp only at again
    rw [NoComponent, again] at none
    cases none

end SpecEffects.Effect.Parsing

namespace SpecEffects.Effect

open Parsing

theorem parse_of_effect {text : String} {parsed effect : Effect} {rest : List Char}
    (read : Parsing.effect (text.toList.length + 1) text.toList = some (parsed, rest)) :
    parse text = .ok effect ↔ skipBlanks rest = [] ∧ effect = parsed := by
  unfold parse
  simp only [read]
  split
  · rename_i none
    simp [none, eq_comm]
  · rename_i some
    constructor
    · intro failed
      cases failed
    · rintro ⟨none, _⟩
      exact absurd none some

theorem parse_eq_trailing {text : String} {offset : Nat}
    (failed : parse text = .error ⟨.trailing, offset⟩) :
    ∃ parsed rest c more,
      Parsing.effect (text.toList.length + 1) text.toList = some (parsed, rest) ∧
      skipBlanks rest = c :: more ∧ offset = byteLength text.toList - byteLength (c :: more) := by
  unfold parse at failed
  dsimp only at failed
  split at failed
  · cases failed
  · rename_i parsed rest read
    split at failed
    · cases failed
    · rename_i left some
      obtain ⟨c, more, visible⟩ := List.exists_cons_of_ne_nil some
      cases failed
      exact ⟨parsed, rest, c, more, read, visible, by rw [visible]⟩

theorem parse_parts {cs rest more : List Char} {c : Char} {parsed : Effect}
    (read : Parsing.effect (cs.length + 1) cs = some (parsed, rest))
    (skipped : skipBlanks rest = c :: more) :
    ∃ front, cs = front ++ c :: more ∧ parse (.ofList front) = .ok parsed ∧
      ∀ extra tail, more = extra ++ tail → ∀ effect,
        parse (.ofList (front ++ c :: extra)) ≠ .ok effect := by
  obtain ⟨word, _, taken, reads⟩ := effect_local _ read
  have split : rest = rest.takeWhile isBlank ++ c :: more := by rw [← skipped, blanks_append]
  refine ⟨word ++ rest.takeWhile isBlank, by rw [taken, List.append_assoc, ← split], ?_, ?_⟩
  · have again := reads (keepsEnd_takeWhile rest rest)
      (show word.length < (word ++ rest.takeWhile isBlank).length + 1 by
        rw [List.length_append]
        omega)
    rw [← String.toList_ofList (l := word ++ rest.takeWhile isBlank)] at again
    exact (parse_of_effect again).mpr ⟨skipBlanks_takeWhile rest, rfl⟩
  · intro extra tail parts effect parsed'
    have some : rest.takeWhile isBlank ++ c :: extra ≠ [] := by simp
    have keeps := keepsEnd_of_append some tail
    rw [List.append_assoc, List.cons_append, ← parts, ← split] at keeps
    have again := reads keeps
      (show word.length < (word ++ (rest.takeWhile isBlank ++ c :: extra)).length + 1 by
        rw [List.length_append]
        omega)
    rw [← List.append_assoc,
      ← String.toList_ofList (l := word ++ rest.takeWhile isBlank ++ c :: extra)] at again
    have stops := ((parse_of_effect again).mp parsed').1
    have visible := skipBlanks_again (show skipBlanks rest = [c] ++ more from skipped)
      (List.cons_ne_nil _ _) extra
    rw [List.singleton_append, stops] at visible
    cases visible

theorem exists_extra {front longer more tail : List Char} {c : Char}
    (parts : front ++ c :: more = longer ++ tail)
    (larger : (String.ofList front).utf8ByteSize < (String.ofList longer).utf8ByteSize) :
    ∃ extra, longer = front ++ c :: extra ∧ more = extra ++ tail := by
  rcases List.append_eq_append_iff.mp parts with ⟨extra, rfl, back⟩ | ⟨extra, rfl, _⟩
  · cases extra with
    | nil =>
      rw [List.append_nil] at larger
      omega
    | cons d extra =>
      cases back
      exact ⟨extra, rfl, rfl⟩
  · rw [String.ofList_append, String.utf8ByteSize_append] at larger
    omega

/-- Where something is left over behind an effect, the text before it is this effect, and no longer
part of the text is one. Where nothing can be read, only the blanks at the front have been taken. -/
theorem parse_errors_mark_the_longest_effect (text : String) :
    (∀ offset, parse text = .error ⟨.trailing, offset⟩ →
      offset < text.utf8ByteSize ∧
      ∃ front back : String, text = front ++ back ∧ front.utf8ByteSize = offset ∧
        (∃ c ∈ back.toList.head?, c ∉ Grammar.blanks) ∧
        (∃ effect, parse front = .ok effect) ∧
        ∀ longer rest : String, text = longer ++ rest → offset < longer.utf8ByteSize →
          ∀ effect, parse longer ≠ .ok effect) ∧
    ∀ offset, parse text = .error ⟨.invalid, offset⟩ →
      ∃ front back : String, text = front ++ back ∧ front.utf8ByteSize = offset ∧
        (∀ c ∈ front.toList, c ∈ Grammar.blanks) ∧
        ∀ c ∈ back.toList.head?, c ∉ Grammar.blanks := by
  constructor
  · intro offset failed
    obtain ⟨parsed, rest, c, more, read, skipped, rfl⟩ := parse_eq_trailing failed
    obtain ⟨front, whole, parsedFront, longest⟩ := parse_parts read skipped
    have text_eq : text = String.ofList front ++ String.ofList (c :: more) := by
      rw [← String.ofList_append, ← whole, String.ofList_toList]
    have size : byteLength text.toList - byteLength (c :: more) =
        (String.ofList front).utf8ByteSize := by
      rw [byteLength_eq, byteLength_eq, String.ofList_toList, text_eq, String.utf8ByteSize_append]
      omega
    have solid : c ∉ Grammar.blanks := by
      rw [← Grammar.isBlank_iff, not_isBlank_of_skipBlanks skipped]
      exact Bool.false_ne_true
    rw [size]
    refine ⟨?_, .ofList front, .ofList (c :: more), text_eq, rfl,
      ⟨c, by simp, solid⟩, ⟨parsed, parsedFront⟩, ?_⟩
    · have visible := c.utf8Size_pos
      rw [text_eq, String.utf8ByteSize_append, String.ofList_cons, String.utf8ByteSize_append,
        String.utf8ByteSize_singleton]
      omega
    · intro longer after parts larger effect
      rw [parts, String.toList_append] at whole
      rw [← String.ofList_toList (s := longer)] at larger
      obtain ⟨extra, longer_eq, more_eq⟩ := exists_extra whole.symm larger
      rw [← String.ofList_toList (s := longer), longer_eq]
      exact longest extra after.toList more_eq effect
  · intro offset failed
    unfold parse at failed
    dsimp only at failed
    split at failed
    · cases failed
      refine ⟨.ofList (text.toList.takeWhile isBlank), .ofList (skipBlanks text.toList), ?_,
        (byteLength_eq _).symm, ?_, ?_⟩
      · rw [← String.ofList_append, blanks_append, String.ofList_toList]
      · intro c member
        rw [String.toList_ofList] at member
        exact Grammar.isBlank_iff.mp (List.all_eq_true.mp List.all_takeWhile c member)
      · intro c first
        rw [String.toList_ofList] at first
        obtain ⟨more, skipped⟩ := List.head?_eq_some_iff.mp first
        rw [← Grammar.isBlank_iff, not_isBlank_of_skipBlanks skipped]
        exact Bool.false_ne_true
    · split at failed <;> cases failed

/-- A divider that no component follows is left over, and before an arrow without parameters only the
blanks are taken. -/
theorem longest_effect_before_divider :
    parse "(e) => Read[v] & f" = .error ⟨.trailing, 15⟩ ∧
    (∃ front back : String, "(e) => Read[v] & f" = front ++ back ∧ front.utf8ByteSize = 15 ∧
      (∃ c ∈ back.toList.head?, c ∉ Grammar.blanks) ∧ (∃ effect, parse front = .ok effect) ∧
      ∀ longer rest : String, "(e) => Read[v] & f" = longer ++ rest → 15 < longer.utf8ByteSize →
        ∀ effect, parse longer ≠ .ok effect) ∧
    parse " \t=> e" = .error ⟨.invalid, 2⟩ ∧
    ∃ front back : String, " \t=> e" = front ++ back ∧ front.utf8ByteSize = 2 ∧
      (∀ c ∈ front.toList, c ∈ Grammar.blanks) ∧ ∀ c ∈ back.toList.head?, c ∉ Grammar.blanks := by
  have trailing : parse "(e) => Read[v] & f" = .error ⟨.trailing, 15⟩ := by decide +kernel
  have invalid : parse " \t=> e" = .error ⟨.invalid, 2⟩ := by decide +kernel
  exact ⟨trailing, ((parse_errors_mark_the_longest_effect _).1 15 trailing).2, invalid,
    (parse_errors_mark_the_longest_effect _).2 2 invalid⟩

end SpecEffects.Effect
