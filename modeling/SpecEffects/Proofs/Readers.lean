import SpecEffects.Effect.Parser

/-!
What a reader of the effect syntax has found when it succeeds, and in what order the text holds it.
Statements about readers go through these and do not open the readers again.
-/
namespace SpecEffects.Effect.Parsing

open Text (Scanner)

variable {cs rest : List Char}

theorem symbol_eq_some {mark : Char} :
    symbol mark cs = some rest ↔ skipBlanks cs = mark :: rest := by
  unfold symbol
  cases skipBlanks cs with
  | nil => simp
  | cons c more =>
    by_cases same : c = mark
    · simp [same]
    · simp [same]

theorem identifier_eq_some {text : String} :
    identifier cs = some (text, rest) ↔ ∃ c more, cs = c :: more ∧ isNameStart c = true ∧
      text = String.ofList (c :: more.takeWhile isNameChar) ∧ rest = more.dropWhile isNameChar := by
  cases cs with
  | nil => simp [identifier]
  | cons c more =>
    rw [identifier]
    split
    · rename_i start
      constructor
      · intro found
        cases found
        exact ⟨c, more, rfl, start, rfl, rfl⟩
      · rintro ⟨_, _, eq, -, rfl, rfl⟩
        cases eq
        rfl
    · rename_i other
      constructor
      · intro found
        cases found
      · rintro ⟨_, _, eq, start, -⟩
        cases eq
        exact (other start).elim

theorem name_eq_some {text : String} :
    name cs = some (text, rest) ↔ identifier cs = some (text, rest) ∧ text ∉ keywords := by
  unfold name
  cases identifier cs with
  | none => simp
  | some found =>
    obtain ⟨word, after⟩ := found
    by_cases reserved : word ∈ keywords
    · simp only [Option.bind_eq_bind, Option.bind_some, if_pos reserved, Option.some.injEq,
        Prod.mk.injEq]
      constructor
      · intro absurd
        cases absurd
      · rintro ⟨⟨rfl, rfl⟩, other⟩
        exact (other reserved).elim
    · simp only [Option.bind_eq_bind, Option.bind_some, if_neg reserved, Option.some.injEq,
        Prod.mk.injEq]
      constructor
      · rintro ⟨rfl, rfl⟩
        exact ⟨⟨rfl, rfl⟩, reserved⟩
      · exact And.left

theorem member_cases {set : VariableSet} (found : member cs = some (set, rest)) :
    (∃ inside var, cs = '\'' :: inside ∧ identifier inside = some (var, '\'' :: rest) ∧
      set = .concrete (.singleton var)) ∨
    ∃ text, name cs = some (text, rest) ∧ set = .quantified text := by
  unfold member at found
  split at found
  · simp only [Option.bind_eq_bind, Option.bind_eq_some_iff, Prod.exists] at found
    obtain ⟨var, after, read, found⟩ := found
    split at found
    · cases found
      exact .inl ⟨_, var, rfl, read, rfl⟩
    · cases found
  · simp only [Option.bind_eq_bind, Option.bind_eq_some_iff, Prod.exists] at found
    obtain ⟨text, after, read, found⟩ := found
    cases found
    exact .inr ⟨text, read, rfl⟩

theorem component_eq_some {part : Component × VariableSet} :
    component cs = some (part, rest) ↔ ∃ word inside opened members closed,
      componentKeyword cs = some (word, inside) ∧ symbol '[' inside = some opened ∧
      separated member (fun cs => (symbol ',' cs).map skipBlanks) (skipBlanks opened) =
        (members, closed) ∧
      symbol ']' closed = some rest ∧ part = (word, .join members) := by
  unfold component
  simp only [Option.bind_eq_bind, Option.bind_eq_some_iff, Option.pure_def, Prod.exists,
    Option.some.injEq, Prod.mk.injEq]
  constructor
  · rintro ⟨word, inside, keyword, opened, opening, after, closing, rfl, rfl⟩
    exact ⟨word, inside, opened, _, _, keyword, opening, rfl, closing, rfl⟩
  · rintro ⟨word, inside, opened, members, closed, keyword, opening, run, closing, rfl⟩
    exact ⟨word, inside, keyword, opened, opening, rest, run ▸ closing, run ▸ rfl, rfl⟩

theorem pureWord_eq_some {effect : Effect} :
    pureWord cs = some (effect, rest) ↔
      cs = 'P' :: 'u' :: 'r' :: 'e' :: rest ∧ rest.head?.any isNameChar = false ∧
        effect = .empty := by
  constructor
  · intro found
    unfold pureWord at found
    split at found
    · split at found
      · cases found
      · rename_i ended
        cases found
        exact ⟨rfl, Bool.eq_false_iff.mpr ended, rfl⟩
    · cases found
  · rintro ⟨rfl, ended, rfl⟩
    simp [pureWord, ended]

theorem components_eq_some {effect : Effect} :
    components cs = some (effect, rest) ↔ ∃ parts, parts ≠ [] ∧
      separated component (fun cs => (symbol '&' cs).map skipBlanks) cs = (parts, rest) ∧
      effect = .concrete (.ofParts parts) := by
  unfold components
  generalize separated component (fun cs => (symbol '&' cs).map skipBlanks) cs = run
  obtain ⟨parts, after⟩ := run
  cases parts with
  | nil =>
    constructor
    · intro found
      cases found
    · rintro ⟨parts, some, eq, -⟩
      cases eq
      exact (some rfl).elim
  | cons part more =>
    constructor
    · intro found
      cases found
      exact ⟨part :: more, List.cons_ne_nil part more, rfl, rfl⟩
    · rintro ⟨parts, -, eq, rfl⟩
      cases eq
      rfl

theorem quantified_eq_some {effect : Effect} :
    quantified cs = some (effect, rest) ↔
      ∃ text, name cs = some (text, rest) ∧ effect = .quantified text := by
  unfold quantified
  simp only [Option.bind_eq_bind, Option.bind_eq_some_iff, Prod.exists, Option.some.injEq,
    Prod.mk.injEq]
  constructor
  · rintro ⟨text, after, read, rfl, rfl⟩
    exact ⟨text, read, rfl⟩
  · rintro ⟨text, read, rfl⟩
    exact ⟨text, rest, read, rfl, rfl⟩

theorem arrow_eq_some {reader : Scanner Effect} {effect : Effect} :
    arrow reader cs = some (effect, rest) ↔ ∃ inside params closing closed after result,
      cs = '(' :: inside ∧ separated reader (symbol ',') inside = (params, closing) ∧
      symbol ')' closing = some closed ∧ skipBlanks closed = '=' :: '>' :: after ∧
      reader after = some (result, rest) ∧ effect = .arrow params result := by
  constructor
  · intro found
    unfold arrow at found
    split at found
    · simp only [Option.bind_eq_bind, Option.bind_eq_some_iff] at found
      obtain ⟨closed, closing, found⟩ := found
      split at found
      · rename_i after tied
        obtain ⟨⟨result, _⟩, output, found⟩ := Option.bind_eq_some_iff.mp found
        cases found
        exact ⟨_, _, _, closed, after, result, rfl, rfl, closing, tied, output, rfl⟩
      · cases found
    · cases found
  · rintro ⟨inside, params, closing, closed, after, result, rfl, run, close, tied, output, rfl⟩
    simp only [arrow, run, close, tied, output, Option.bind_eq_bind, Option.bind_some]

/-- An effect is read in one of four ways, and each comes after those before it have failed. -/
theorem effect_cases {depth : Nat} {effect : Effect}
    (found : Parsing.effect (depth + 1) cs = some (effect, rest)) :
    arrow (Parsing.effect depth) (skipBlanks cs) = some (effect, rest) ∨
    pureWord (skipBlanks cs) = some (effect, rest) ∨
    components (skipBlanks cs) = some (effect, rest) ∨
    quantified (skipBlanks cs) = some (effect, rest) := by
  simp only [Parsing.effect, HOrElse.hOrElse, OrElse.orElse, Option.orElse_eq_or,
    Option.or_eq_some_iff] at found
  rcases found with found | ⟨-, found | ⟨-, found | ⟨-, found⟩⟩⟩
  · exact .inl found
  · exact .inr (.inl found)
  · exact .inr (.inr (.inl found))
  · exact .inr (.inr (.inr found))

end SpecEffects.Effect.Parsing
