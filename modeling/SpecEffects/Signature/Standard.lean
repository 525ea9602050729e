import SpecEffects.Signature.Basic

/-!
The builtins of the specification language.
-/
namespace SpecEffects.SignatureTable

def quantifiedFootprint (read update temporal : List String) : Effect :=
  .concrete ⟨.join (read.map .quantified), .join (update.map .quantified),
    .join (temporal.map .quantified)⟩

def valueOperators : List String :=
  ["eq", "neq", "iff", "implies", "not",
    "iadd", "isub", "imul", "idiv", "imod", "ipow", "iuminus", "ilt", "ilte", "igt", "igte",
    "Set", "in", "contains", "union", "intersect", "exclude", "subseteq", "size"]

def connectives : List String := ["and", "or"]

def actionOperators : List String := ["actionAll", "actionAny"]

def assign : Effect :=
  .arrow [quantifiedFootprint ["r1"] [] [], quantifiedFootprint ["r2"] [] []]
    (quantifiedFootprint ["r2"] ["r1"] [])

/-- Both branches update the same variables. -/
def ifThenElse : Effect :=
  .arrow
    [quantifiedFootprint ["r1"] [] [], quantifiedFootprint ["r2"] ["u"] [],
      quantifiedFootprint ["r3"] ["u"] []]
    (quantifiedFootprint ["r1", "r2", "r3"] ["u"] [])

def enabled : Effect :=
  .arrow [quantifiedFootprint ["r1"] ["u1"] []] (quantifiedFootprint ["r1"] [] [])

/-- Under a temporal operator reads become temporal references. -/
def temporalOperator : Effect :=
  .arrow [quantifiedFootprint ["r1"] [] ["t1"]] (quantifiedFootprint [] [] ["r1", "t1"])

/-- An action and the variables that it is fair, kept or changed in. -/
def actionProperty : Effect :=
  .arrow [quantifiedFootprint ["r1"] ["u1"] [], quantifiedFootprint ["r2"] [] []]
    (quantifiedFootprint [] [] ["r1", "u1", "r2"])

def quantifier : Effect :=
  .arrow
    [quantifiedFootprint ["r1"] [] ["t1"],
      .arrow [quantifiedFootprint ["r1"] [] ["t1"]] (quantifiedFootprint ["r2"] ["u2"] ["t2"])]
    (quantifiedFootprint ["r1", "r2"] ["u2"] ["t1", "t2"])

def elementwise : Effect :=
  .arrow
    [quantifiedFootprint ["r1"] [] [],
      .arrow [quantifiedFootprint ["r1"] [] []] (quantifiedFootprint ["r2"] [] [])]
    (quantifiedFootprint ["r1", "r2"] [] [])

def fold : Effect :=
  .arrow
    [quantifiedFootprint ["r1"] [] [], quantifiedFootprint ["r2"] [] [],
      .arrow [quantifiedFootprint ["r2"] [] [], quantifiedFootprint ["r1"] [] []]
        (quantifiedFootprint ["r3"] [] [])]
    (quantifiedFootprint ["r1", "r2", "r3"] [] [])

def fixedSignatures : List (String × Effect) :=
  [("assign", assign), ("ite", ifThenElse), ("enabled", enabled),
    ("always", temporalOperator), ("eventually", temporalOperator),
    ("weakFair", actionProperty), ("strongFair", actionProperty),
    ("orKeep", actionProperty), ("mustChange", actionProperty),
    ("exists", quantifier), ("forall", quantifier),
    ("filter", elementwise), ("map", elementwise), ("fold", fold)]

def standard : SignatureTable :=
  .ofList <|
    valueOperators.map (·, .propagate [.read, .temporal]) ++
    connectives.map (·, .propagate Component.all) ++
    actionOperators.map (·, .propagate [.read, .update]) ++
    fixedSignatures.map fun entry => (entry.1, .fixed entry.2)

end SpecEffects.SignatureTable
