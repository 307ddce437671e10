import FilterQuery.Command.Arguments
import FilterQuery.Command.Name
import FilterQuery.Command.Run
import FilterQuery.Config
import FilterQuery.Decimal.Double
import FilterQuery.Decimal.Literal
import FilterQuery.Decimal.Scaled
import FilterQuery.Decimal.Shortest
import FilterQuery.Editor.Basic
import FilterQuery.Editor.Terms
import FilterQuery.Editor.Typing
import FilterQuery.Json.Basic
import FilterQuery.Json.Numeral
import FilterQuery.Json.Printer
import FilterQuery.Json.Reader
import FilterQuery.Main
import FilterQuery.Messages
import FilterQuery.Proofs.Config
import FilterQuery.Proofs.Editor.Action
import FilterQuery.Proofs.Editor.Cache
import FilterQuery.Proofs.Editor.Changes
import FilterQuery.Proofs.Editor.Completion
import FilterQuery.Proofs.Editor.Dispatch
import FilterQuery.Proofs.Editor.GroupNegation
import FilterQuery.Proofs.Editor.Keystroke
import FilterQuery.Proofs.Editor.Opening
import FilterQuery.Proofs.Editor.Replacement
import FilterQuery.Proofs.Editor.Request
import FilterQuery.Proofs.Editor.Submission
import FilterQuery.Proofs.Editor.Typing
import FilterQuery.Proofs.Query.Agreement
import FilterQuery.Proofs.Query.Annotation
import FilterQuery.Proofs.Query.Beginning
import FilterQuery.Proofs.Query.Coding
import FilterQuery.Proofs.Query.Conditions
import FilterQuery.Proofs.Query.Connectives
import FilterQuery.Proofs.Query.Derivation
import FilterQuery.Proofs.Query.Descent
import FilterQuery.Proofs.Query.FlatPass
import FilterQuery.Proofs.Query.Layout
import FilterQuery.Proofs.Query.Lookahead
import FilterQuery.Proofs.Query.Position
import FilterQuery.Proofs.Query.Reading
import FilterQuery.Proofs.Query.Rejection
import FilterQuery.Proofs.Query.Spelling
import FilterQuery.Proofs.Rule.Annotation
import FilterQuery.Proofs.Rule.Applying
import FilterQuery.Proofs.Rule.Block
import FilterQuery.Proofs.Rule.Canonical
import FilterQuery.Proofs.Rule.Covering
import FilterQuery.Proofs.Rule.Depth
import FilterQuery.Proofs.Rule.Directive
import FilterQuery.Proofs.Rule.Editing
import FilterQuery.Proofs.Rule.Height
import FilterQuery.Proofs.Rule.Moving
import FilterQuery.Proofs.Rule.Naming
import FilterQuery.Proofs.Rule.Normal
import FilterQuery.Proofs.Rule.Opposite
import FilterQuery.Proofs.Rule.Precedence
import FilterQuery.Proofs.Rule.Reading
import FilterQuery.Proofs.Rule.RoundTrip
import FilterQuery.Proofs.Rule.Spelling
import FilterQuery.Proofs.Rule.Terms
import FilterQuery.Proofs.Rule.Turning
import FilterQuery.Proofs.Rule.Wildcard
import FilterQuery.Proofs.Suggestion.Near
import FilterQuery.Proofs.Suggestion.Session
import FilterQuery.Proofs.Term.Change
import FilterQuery.Proofs.Term.Editing
import FilterQuery.Proofs.Term.Legality
import FilterQuery.Proofs.Term.Linking
import FilterQuery.Proofs.Term.Locating
import FilterQuery.Proofs.Term.Matching
import FilterQuery.Proofs.Term.Nesting
import FilterQuery.Proofs.Term.Pairing
import FilterQuery.Proofs.Term.Reading
import FilterQuery.Proofs.Term.Reindexing
import FilterQuery.Proofs.Term.Symbol
import FilterQuery.Proofs.Term.Table
import FilterQuery.Proofs.Term.Typable
import FilterQuery.Proofs.Text.Distance
import FilterQuery.Proofs.Text.Percent
import FilterQuery.Proofs.Text.Split
import FilterQuery.Proofs.Text.Utf8
import FilterQuery.Query.Lexeme
import FilterQuery.Query.Parse
import FilterQuery.Query.Scanner
import FilterQuery.Rule.Basic
import FilterQuery.Rule.Directive
import FilterQuery.Rule.Edit
import FilterQuery.Rule.Fragment
import FilterQuery.Rule.Match
import FilterQuery.Rule.Outline
import FilterQuery.Rule.Path
import FilterQuery.Rule.Structured
import FilterQuery.Rule.Wildcard
import FilterQuery.Suggestion.Basic
import FilterQuery.Suggestion.Local
import FilterQuery.Suggestion.Near
import FilterQuery.Suggestion.Session
import FilterQuery.Term.Expect
import FilterQuery.Term.Index
import FilterQuery.Term.Table
import FilterQuery.Term.Token
import FilterQuery.Text.Blank
import FilterQuery.Text.Digit
import FilterQuery.Text.Distance
import FilterQuery.Text.LetterCase.Cased
import FilterQuery.Text.LetterCase.Ignorable
import FilterQuery.Text.LetterCase.Lower
import FilterQuery.Text.LowerCase
import FilterQuery.Text.Percent
import FilterQuery.Text.Split
import FilterQuery.Text.Utf8
