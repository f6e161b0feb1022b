import Spellbook.Bench.Coverage
import Spellbook.Bench.CoverageTable
import Spellbook.Bench.Field
import Spellbook.Bench.Fingerprint
import Spellbook.Bench.Mishap
import Spellbook.Bench.Path
import Spellbook.Bench.Plateau
import Spellbook.Bench.Profile
import Spellbook.Bench.Round
import Spellbook.Bench.RoundLog
import Spellbook.Bench.Sample
import Spellbook.Bench.SelfCheck
import Spellbook.Bench.Standing
import Spellbook.Bench.Suite
import Spellbook.Bench.TimeShare
import Spellbook.CommandLine
import Spellbook.Datum.Operators
import Spellbook.Datum.Order
import Spellbook.Datum.Text
import Spellbook.Fault
import Spellbook.Files
import Spellbook.Grammar.Automaton
import Spellbook.Grammar.Lexicon
import Spellbook.Grammar.Pattern
import Spellbook.Grammar.Production
import Spellbook.Grammar.Reader
import Spellbook.Grammar.Terminal
import Spellbook.Json.Reader
import Spellbook.Json.Value
import Spellbook.Json.Writer
import Spellbook.Keyword
import Spellbook.Machine
import Spellbook.Main
import Spellbook.Meaning
import Spellbook.Meaning.Choice
import Spellbook.Meaning.Cycle
import Spellbook.Meaning.Expression
import Spellbook.Meaning.Incantation
import Spellbook.Meaning.Part
import Spellbook.Meaning.Rune
import Spellbook.Meaning.Word
import Spellbook.Number.Dyadic
import Spellbook.Number.Logarithm
import Spellbook.Number.Numeral
import Spellbook.Number.Shortest
import Spellbook.Proofs.Additive
import Spellbook.Proofs.Atomicity
import Spellbook.Proofs.Book
import Spellbook.Proofs.Building
import Spellbook.Proofs.Bytewise
import Spellbook.Proofs.Cast
import Spellbook.Proofs.CeilingDivision
import Spellbook.Proofs.Chance
import Spellbook.Proofs.Check
import Spellbook.Proofs.Completeness
import Spellbook.Proofs.Compound
import Spellbook.Proofs.ControlFlow
import Spellbook.Proofs.Convergence
import Spellbook.Proofs.CycleRune
import Spellbook.Proofs.Derivation
import Spellbook.Proofs.DigitCount
import Spellbook.Proofs.Digits
import Spellbook.Proofs.EachCycle
import Spellbook.Proofs.Exits
import Spellbook.Proofs.Expressions
import Spellbook.Proofs.Fibonacci
import Spellbook.Proofs.Fingerprints
import Spellbook.Proofs.FirstTrue
import Spellbook.Proofs.FloatArithmetic
import Spellbook.Proofs.Forms
import Spellbook.Proofs.Frames
import Spellbook.Proofs.Fuel
import Spellbook.Proofs.GivenText
import Spellbook.Proofs.Hoisting
import Spellbook.Proofs.Incantation
import Spellbook.Proofs.Integrity
import Spellbook.Proofs.Interpolation
import Spellbook.Proofs.JsonNumber
import Spellbook.Proofs.JsonReading
import Spellbook.Proofs.JsonText
import Spellbook.Proofs.Kinds
import Spellbook.Proofs.LastPlace
import Spellbook.Proofs.Law
import Spellbook.Proofs.Layout
import Spellbook.Proofs.LestCycle
import Spellbook.Proofs.Lexing
import Spellbook.Proofs.Likeness
import Spellbook.Proofs.Literals
import Spellbook.Proofs.Logarithm
import Spellbook.Proofs.MeasurementLog
import Spellbook.Proofs.Misshapen
import Spellbook.Proofs.MixedArithmetic
import Spellbook.Proofs.Names
import Spellbook.Proofs.NumberOrder
import Spellbook.Proofs.Output
import Spellbook.Proofs.Past
import Spellbook.Proofs.Pattern
import Spellbook.Proofs.Plain
import Spellbook.Proofs.Precedence
import Spellbook.Proofs.Printing
import Spellbook.Proofs.Proclaim
import Spellbook.Proofs.Prose
import Spellbook.Proofs.RangeCycle
import Spellbook.Proofs.RangeEnd
import Spellbook.Proofs.Reaching
import Spellbook.Proofs.Reading
import Spellbook.Proofs.Renaming
import Spellbook.Proofs.Renumbering
import Spellbook.Proofs.Respelling
import Spellbook.Proofs.Roles
import Spellbook.Proofs.Rounding
import Spellbook.Proofs.Scope
import Spellbook.Proofs.Seals
import Spellbook.Proofs.Shapes
import Spellbook.Proofs.Simulation
import Spellbook.Proofs.Squares
import Spellbook.Proofs.Statements
import Spellbook.Proofs.Subtrees
import Spellbook.Proofs.Table
import Spellbook.Proofs.TextArithmetic
import Spellbook.Proofs.TrialReport
import Spellbook.Proofs.Truth
import Spellbook.Proofs.Turns
import Spellbook.Proofs.Unmentioned
import Spellbook.Proofs.WholeArithmetic
import Spellbook.Proofs.WholeText
import Spellbook.Scope
import Spellbook.Session
import Spellbook.Sha256
import Spellbook.Text.Column
import Spellbook.Text.Escape
import Spellbook.Text.Printable
import Spellbook.Text.Quoted
import Spellbook.Text.Space
import Spellbook.Text.Utf8
import Spellbook.Tree
import Spellbook.Trial
import Spellbook.Value
import Spellbook.Value.Arithmetic
import Spellbook.Workload
