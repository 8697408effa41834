import StyleGrammar.Grammar.Render
import StyleGrammar.Main
import StyleGrammar.Proofs.Definition.Brackets
import StyleGrammar.Proofs.Definition.Chains
import StyleGrammar.Proofs.Definition.Integrity
import StyleGrammar.Proofs.Definition.Progress
import StyleGrammar.Proofs.Definition.Required
import StyleGrammar.Proofs.Definition.Reread
import StyleGrammar.Proofs.Matching.Exactness
import StyleGrammar.Proofs.Nesting.Values
import StyleGrammar.Proofs.Number.Digits
import StyleGrammar.Proofs.Number.Fractions
import StyleGrammar.Proofs.Number.Integers
import StyleGrammar.Proofs.Number.Ranges
import StyleGrammar.Proofs.Output.Leaves
import StyleGrammar.Proofs.Output.Printers
import StyleGrammar.Proofs.Reader.Takes
import StyleGrammar.Proofs.Registry.Audit
import StyleGrammar.Proofs.Registry.Order
import StyleGrammar.Proofs.Reparse.Calculations
import StyleGrammar.Proofs.Reparse.ColorTexts
import StyleGrammar.Proofs.Reparse.Elements
import StyleGrammar.Proofs.Reparse.Gradients
import StyleGrammar.Proofs.Reparse.Positions
import StyleGrammar.Proofs.Reparse.Sequences
import StyleGrammar.Proofs.Reparse.Shapes
import StyleGrammar.Proofs.Suggestion.DeadEnds
import StyleGrammar.Proofs.Suggestion.Defaults
import StyleGrammar.Proofs.Value.Arguments
import StyleGrammar.Proofs.Value.FunctionNames
