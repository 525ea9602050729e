import SpecEffects.Effect.Basic
import SpecEffects.Effect.Json
import SpecEffects.Effect.Parser
import SpecEffects.FreshNames
import SpecEffects.Inference.State
import SpecEffects.Inference.Traversal
import SpecEffects.Json.Basic
import SpecEffects.Json.Decoder
import SpecEffects.Json.Number
import SpecEffects.Json.Reader
import SpecEffects.Report
import SpecEffects.Scope.Json
import SpecEffects.Scope.Names
import SpecEffects.Scope.Tree
import SpecEffects.Signature.Basic
import SpecEffects.Signature.Document
import SpecEffects.Signature.Standard
import SpecEffects.Sorted.Map
import SpecEffects.Sorted.Set
import SpecEffects.Substitution
import SpecEffects.Text
import SpecEffects.Tree.Basic
import SpecEffects.Tree.Builder
import SpecEffects.Tree.Json
import SpecEffects.Tree.Text
import SpecEffects.Unification.Effects
import SpecEffects.Unification.Error
import SpecEffects.Unification.Variables
import SpecEffects.VariableSet
import SpecEffects.Proofs.Sorted
import SpecEffects.Proofs.Canonical
import SpecEffects.Proofs.Names
import SpecEffects.Proofs.Application
import SpecEffects.Proofs.Terms
import SpecEffects.Proofs.Composition
import SpecEffects.Proofs.Unification.Steps
import SpecEffects.Proofs.Unification.Soundness
import SpecEffects.Proofs.Unification.Elimination
import SpecEffects.Proofs.Unification.SolvedForm
import SpecEffects.Proofs.Unification.MostGeneral
import SpecEffects.Proofs.Tree
import SpecEffects.Proofs.Scope
import SpecEffects.Proofs.Inference.MadeNames
import SpecEffects.Proofs.Inference.Instances
import SpecEffects.Proofs.Inference.Consistency
import SpecEffects.Proofs.Inference.Frame
import SpecEffects.Proofs.Inference.StateSteps
import SpecEffects.Proofs.Inference.Expressions
import SpecEffects.Proofs.Inference.Stretches
import SpecEffects.Proofs.Inference.Annotation
import SpecEffects.Proofs.Inference.Totality
import SpecEffects.Proofs.Lexical
import SpecEffects.Proofs.Renaming
import SpecEffects.Proofs.Signatures
import SpecEffects.Proofs.Unification.Termination
import SpecEffects.Proofs.Unification.Reflexivity
import SpecEffects.Proofs.Unification.Correspondence
import SpecEffects.Proofs.Unification.Unions
import SpecEffects.Proofs.Unification.Renaming
import SpecEffects.Proofs.Inference.ModuleNames
import SpecEffects.Proofs.Inference.Copies
import SpecEffects.Proofs.Inference.Tidy
import SpecEffects.Proofs.Inference.Unseen
import SpecEffects.Proofs.Inference.Mirror
import SpecEffects.Proofs.Inference.MirrorSteps
import SpecEffects.Proofs.Inference.Lockstep
import SpecEffects.Proofs.Inference.SignatureNames
import SpecEffects.Proofs.Inference.Alike
import SpecEffects.Proofs.Inference.Arrival
import SpecEffects.Proofs.Inference.Unfolding
import SpecEffects.Proofs.Inference.Outcome
import SpecEffects.Proofs.Inference.Calls
import SpecEffects.Proofs.Inference.Lets
import SpecEffects.Proofs.Associativity
import SpecEffects.Proofs.Grammar
import SpecEffects.Proofs.Unification.Kinds
import SpecEffects.Proofs.Inference.Kinds
import SpecEffects.Proofs.Inference.Propagation
import SpecEffects.Proofs.Inference.Verdicts
import SpecEffects.Proofs.Inference.Recursion
import SpecEffects.Proofs.Meaning
import SpecEffects.Proofs.Inference.Builtins
import SpecEffects.Proofs.Inference.Abreast
import SpecEffects.Proofs.Inference.Isolation
import SpecEffects.Proofs.Inference.Reading
import SpecEffects.Proofs.Inference.Exchange
import SpecEffects.Proofs.Inference.Invariants
import SpecEffects.Proofs.Inference.Freshness
import SpecEffects.Proofs.Inference.Legibility
import SpecEffects.Proofs.Unification.Symmetry
import SpecEffects.Proofs.NormalForm
import SpecEffects.Proofs.Closure
import SpecEffects.Proofs.Unification.Failures
import SpecEffects.Proofs.LongestEffect
import SpecEffects.Proofs.Inference.Parameters
import SpecEffects.Proofs.ScopePaths
import SpecEffects.Proofs.NameFlow
import SpecEffects.Proofs.Inference.NameSpaces
import SpecEffects.Proofs.Building
import SpecEffects.Proofs.Readers
import SpecEffects.Proofs.Inference.Steps
