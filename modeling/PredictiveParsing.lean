import PredictiveParsing.Service
import PredictiveParsing.Proofs.Derivation
import PredictiveParsing.Proofs.Grammar.Validity
import PredictiveParsing.Proofs.Reduction.FreshVariables
import PredictiveParsing.Proofs.Reduction.LeftRecursion
import PredictiveParsing.Proofs.Reduction.Splitting
import PredictiveParsing.Proofs.Reduction.Useful
import PredictiveParsing.Proofs.Grammar.Names
import PredictiveParsing.Proofs.Reduction.RecursionRemoval
import PredictiveParsing.Proofs.Reduction.Factoring
import PredictiveParsing.Proofs.Reduction.Stages
import PredictiveParsing.Proofs.Reduction.SharedPrefix
import PredictiveParsing.Proofs.Reduction.PrefixRemoval
import PredictiveParsing.Proofs.Reduction.UsefulSymbols
import PredictiveParsing.Proofs.Reduction.UselessRemoval
import PredictiveParsing.Proofs.Reduction.TrimStages
import PredictiveParsing.Proofs.Reduction.NormalForm
import PredictiveParsing.Proofs.Descent.Moves
import PredictiveParsing.Proofs.Descent.Replay
import PredictiveParsing.Proofs.Descent.Subtrees
import PredictiveParsing.Proofs.Descent.Tree
import PredictiveParsing.Proofs.Lookahead.First
import PredictiveParsing.Proofs.ActionTable
import PredictiveParsing.Proofs.Lookahead.Exact
import PredictiveParsing.Proofs.Lookahead.Selection
import PredictiveParsing.Proofs.Descent.Prediction
import PredictiveParsing.Proofs.Descent.Halting
import PredictiveParsing.Proofs.Descent.Acceptance
import PredictiveParsing.Proofs.Lookahead.Bounds
import PredictiveParsing.Proofs.Descent.Recognition
import PredictiveParsing.Proofs.PascalMP
import PredictiveParsing.Proofs.LeftCorner
import PredictiveParsing.Proofs.Descent.Termination
import PredictiveParsing.Proofs.Lookahead.Agreement
import PredictiveParsing.Proofs.Lookahead.Completeness
import PredictiveParsing.Proofs.Descent.Language
import PredictiveParsing.Proofs.Ambiguity
import PredictiveParsing.Proofs.Descent.Consumption
import PredictiveParsing.Proofs.Lookahead.Followers
import PredictiveParsing.Proofs.Lookahead.LeastSets
import PredictiveParsing.Proofs.Conflicts
import PredictiveParsing.Proofs.Lookahead.SententialForms
import PredictiveParsing.Proofs.Descent.Recursion
import PredictiveParsing.Proofs.Renaming.Symbols
import PredictiveParsing.Proofs.Renaming.Passes
import PredictiveParsing.Proofs.Renaming.Stages
import PredictiveParsing.Proofs.Renaming.Lookahead
import PredictiveParsing.Proofs.Renaming.Descent
import PredictiveParsing.Proofs.Renaming.Order
import PredictiveParsing.Proofs.ParseTree.Edits
import PredictiveParsing.Proofs.Reduction.DistinctHeads
import PredictiveParsing.Proofs.RuleText.Reading
import PredictiveParsing.Proofs.Reduction.Lookups
import PredictiveParsing.Proofs.Lookahead.Lookups
import PredictiveParsing.Proofs.RuleText.Lookups
import PredictiveParsing.Proofs.Descent.Lookups
import PredictiveParsing.Proofs.Descent.StepLimit
import PredictiveParsing.Proofs.Service.Answers
import PredictiveParsing.Proofs.Descent.Preorder
import PredictiveParsing.Proofs.RuleText.Comments
import PredictiveParsing.Proofs.RuleText.Complete
import PredictiveParsing.Proofs.RuleText.Quoted
import PredictiveParsing.Proofs.ParseTree.Walks
import PredictiveParsing.Proofs.ParseTree.Drawings
import PredictiveParsing.Proofs.ParseTree.Typeset
import PredictiveParsing.Proofs.Report.Markup
import PredictiveParsing.Proofs.Descent.Refusals
import PredictiveParsing.Proofs.Grammar.RuleNumbers
import PredictiveParsing.Proofs.Report.RuleTrace
import PredictiveParsing.Proofs.Reduction.DisplayOrder
import PredictiveParsing.Proofs.Renaming.Units
import PredictiveParsing.Proofs.Descent.Causality
import PredictiveParsing.Proofs.Text.Decoding
import PredictiveParsing.Proofs.Reduction.NewNames
