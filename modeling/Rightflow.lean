import Rightflow.Main
import Rightflow.Proofs.Values
import Rightflow.Proofs.Discipline
import Rightflow.Proofs.Endings
import Rightflow.Proofs.Indifference
import Rightflow.Proofs.Surroundings
import Rightflow.Proofs.CallerIndependence
import Rightflow.Proofs.Binding
import Rightflow.Proofs.Grants
import Rightflow.Proofs.Activities
import Rightflow.Proofs.Reached
import Rightflow.Proofs.DefinitionOrder
import Rightflow.Proofs.StoreTyping
import Rightflow.Proofs.Arity
import Rightflow.Proofs.CallEffects
import Rightflow.Proofs.Exhaustion
import Rightflow.Proofs.Chronicle
import Rightflow.Proofs.Immutability
import Rightflow.Proofs.Ownership
import Rightflow.Proofs.Relocation
import Rightflow.Proofs.Parsing
import Rightflow.Proofs.ParserPositions
import Rightflow.Proofs.EvaluationPositions
import Rightflow.Proofs.ReturnTypes
import Rightflow.Proofs.Diagnostics
import Rightflow.Proofs.TypeGrammar
import Rightflow.Proofs.BareTrees
import Rightflow.Proofs.ExpressionGrammar
import Rightflow.Proofs.StatementGrammar
import Rightflow.Proofs.ProgramGrammar
import Rightflow.Proofs.Cursors
import Rightflow.Proofs.LongestReading
import Rightflow.Proofs.Lexicon
import Rightflow.Proofs.Automaton
import Rightflow.Proofs.Tokenizing
import Rightflow.Proofs.Spelling
import Rightflow.Proofs.Layout
import Rightflow.Proofs.Printing
import Rightflow.Proofs.Brevity
import Rightflow.Proofs.Roundtrip
import Rightflow.Proofs.Arithmetic
import Rightflow.Proofs.Renaming
import Rightflow.Proofs.Likeness
import Rightflow.Proofs.Hygiene
import Rightflow.Proofs.Bounds
import Rightflow.Proofs.Views
import Rightflow.Proofs.Loops
import Rightflow.Proofs.Writings
import Rightflow.Proofs.Seclusion
import Rightflow.Proofs.EntryPoints
import Rightflow.Proofs.OperatorFailures
import Rightflow.Proofs.Flattening
import Rightflow.Proofs.TypeRoundtrip
import Rightflow.Proofs.Stamps
import Rightflow.Proofs.StampIndependence
import Rightflow.Proofs.GivenStamps
import Rightflow.Proofs.PartialApplication
import Rightflow.Proofs.Numerals
import Rightflow.Proofs.Progress
import Rightflow.Proofs.Exactness
import Rightflow.Proofs.Refusals
import Rightflow.Proofs.Lookahead
import Rightflow.Proofs.LocatedTrees
import Rightflow.Proofs.LocatedParsing
import Rightflow.Proofs.ParserTermination
import Rightflow.Proofs.SourceOrder
import Rightflow.Proofs.Repetition
import Rightflow.Proofs.Excerpts
import Rightflow.Proofs.Rereading
