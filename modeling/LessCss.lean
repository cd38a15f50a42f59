import LessCss.Compile
import LessCss.Visitor
import LessCss.Evaluation.InPlace
import LessCss.Proofs.Lexing
import LessCss.Proofs.Parsing.Fidelity
import LessCss.Proofs.Starts
import LessCss.Proofs.Evaluation.Finished
import LessCss.Proofs.Evaluation.Leftovers
import LessCss.Proofs.Evaluation.Locality
import LessCss.Proofs.Evaluation.Plain
import LessCss.Proofs.Evaluation.Reach
import LessCss.Proofs.Evaluation.Restoring
import LessCss.Proofs.Evaluation.Termination
import LessCss.Proofs.Evaluation.Alike
import LessCss.Proofs.Nesting.Evaluated
import LessCss.Proofs.Nesting.Flattened
import LessCss.Proofs.Nesting.Groups
import LessCss.Proofs.Nesting.Places
import LessCss.Proofs.Parsing.Totality
import LessCss.Proofs.Evaluation.Scoping
import LessCss.Proofs.Evaluation.Order
import LessCss.Proofs.Evaluation.Standards
import LessCss.Proofs.Nesting.ReadValues
import LessCss.Proofs.Evaluation.Styles
import LessCss.Proofs.Evaluation.Reached
import LessCss.Proofs.Evaluation.Again
import LessCss.Proofs.Grouping.Read
import LessCss.Proofs.Grouping.Steady
import LessCss.Proofs.Nesting.RuleValues
import LessCss.Proofs.Grammar.Derivation
import LessCss.Proofs.Grammar.Choices
import LessCss.Proofs.Grouping.Evaluated
import LessCss.Proofs.Parsing.Avoiding
import LessCss.Proofs.Parsing.Braces
import LessCss.Proofs.Parsing.Mirroring
import LessCss.Proofs.Parsing.Mirrored
import LessCss.Proofs.Parsing.Continuing
import LessCss.Proofs.Parsing.Rows
import LessCss.Proofs.Parsing.Spacing
import LessCss.Proofs.Lexing.Locality
import LessCss.Proofs.Lexing.Cutting
import LessCss.Proofs.Lexing.Parts
import LessCss.Proofs.Parsing.Independence
import LessCss.Visitor.Dispatch
import LessCss.Proofs.Visiting.Tour
import LessCss.Proofs.Visiting.Dispatch
import LessCss.Proofs.Parsing.Advancing
import LessCss.Proofs.Parsing.Reported
import LessCss.Proofs.Parsing.Progress
import LessCss.Proofs.Lexing.Escaping
import LessCss.Proofs.Lexing.Ending
import LessCss.Proofs.Lexing.Joining
import LessCss.Proofs.Parsing.Echoing
import LessCss.Proofs.Parsing.Headings
import LessCss.Proofs.Selectors.Located
import LessCss.Proofs.Selectors.Compounds
import LessCss.Proofs.Selectors.Written
import LessCss.Proofs.Selectors.RoundTrip
import LessCss.Proofs.Evaluation.Arguments
import LessCss.Proofs.Parsing.Occurring
import LessCss.Proofs.Selectors.Heads
import LessCss.Proofs.Selectors.Joined
import LessCss.Proofs.Selectors.Ampersands
import LessCss.Proofs.Grouping.Chains
import LessCss.Proofs.Importance.Marking
import LessCss.Proofs.Writing.Separators
import LessCss.Proofs.Selectors.Extending
import LessCss.Proofs.Importance.Allowances
import LessCss.Proofs.Importance.MarkedOnce
import LessCss.Proofs.Units.Exponents
import LessCss.Proofs.Units.Reduced
import LessCss.Proofs.Units.Conversions
import LessCss.Proofs.Units.Quantities
import LessCss.Proofs.Units.Comparing
import LessCss.Proofs.Units.Sums
import LessCss.Proofs.Visiting.Splicing
import LessCss.Proofs.Visiting.Corresponding
import LessCss.Proofs.Visiting.Replacing
import LessCss.Proofs.Writing.Strings
import LessCss.Proofs.Units.Extremes
import LessCss.Proofs.Evaluation.Arithmetic
import LessCss.Proofs.Evaluation.Kept
import LessCss.Proofs.Evaluation.Located
import LessCss.Proofs.Evaluation.Misfits
import LessCss.Proofs.Grouping.Signs
import LessCss.Proofs.Nesting.ReadRules
import LessCss.Proofs.Evaluation.Holes
import LessCss.Proofs.Evaluation.Strictness
import LessCss.Proofs.Units.Negatives
import LessCss.Proofs.Evaluation.Definitions
import LessCss.Proofs.Selectors.WholeNames
import LessCss.Proofs.Parsing.Statements
import LessCss.Proofs.Parsing.Preludes
import LessCss.Proofs.Lexing.Visits
import LessCss.Proofs.Lexing.Comments
import LessCss.Proofs.Writing.Collapsing
import LessCss.Proofs.Lexing.Keywords
import LessCss.Proofs.Parsing.Starting
import LessCss.Proofs.Grammar.Gates
