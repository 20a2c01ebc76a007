import LexicalLisp.Diagnostic
import LexicalLisp.Evaluation.Eval
import LexicalLisp.Source.Program
import LexicalLisp.Proofs.Correspondence
import LexicalLisp.Proofs.Effect
import LexicalLisp.Proofs.Depth
import LexicalLisp.Proofs.Chain
import LexicalLisp.Proofs.Global
import LexicalLisp.Proofs.OperatorApplication
import LexicalLisp.Proofs.Containment
import LexicalLisp.Proofs.HostEffect
import LexicalLisp.Proofs.WellFormed
import LexicalLisp.Proofs.Permanence
import LexicalLisp.Proofs.Data
import LexicalLisp.Proofs.Equality
import LexicalLisp.Proofs.DataFlow
import LexicalLisp.Proofs.Reading
import LexicalLisp.Proofs.Quotation
import LexicalLisp.Proofs.Erasure
import LexicalLisp.Proofs.Lexing
import LexicalLisp.Proofs.WrittenForm
import LexicalLisp.Proofs.Reprinting
import LexicalLisp.Proofs.QuotedText
import LexicalLisp.Proofs.Continuation
import LexicalLisp.Proofs.BoundNames
import LexicalLisp.Proofs.Grammar
import LexicalLisp.Proofs.LexemeGrammar
import LexicalLisp.Proofs.Recognition
import LexicalLisp.Proofs.Concatenation
import LexicalLisp.Proofs.Mentions
import LexicalLisp.Proofs.Insertion
import LexicalLisp.Proofs.Uniformity
import LexicalLisp.Proofs.Handles
import LexicalLisp.Proofs.Soundness
import LexicalLisp.Proofs.LetApplication
import LexicalLisp.Proofs.Reach
import LexicalLisp.Proofs.Separation
import LexicalLisp.Proofs.Isolation
import LexicalLisp.Proofs.Trace
import LexicalLisp.Proofs.TracedEvaluation
import LexicalLisp.Proofs.Nesting
import LexicalLisp.Proofs.FunctionFree
import LexicalLisp.Proofs.UnmentionedName
import LexicalLisp.Proofs.TracedInvariant
import LexicalLisp.Proofs.TracedCommand
import LexicalLisp.Proofs.Acyclicity
import LexicalLisp.Proofs.RepeatedLet
import LexicalLisp.Proofs.PrimitiveCounts
import LexicalLisp.Proofs.FormCounts
import LexicalLisp.Proofs.Assignment
import LexicalLisp.Proofs.Registration
import LexicalLisp.Proofs.ParameterNames
import LexicalLisp.Proofs.Zone
import LexicalLisp.Proofs.LayoutInsertion
import LexicalLisp.Proofs.Atomicity
import LexicalLisp.Proofs.Junction
import LexicalLisp.Proofs.ScopeConstruction
import LexicalLisp.Proofs.Renumbering
import LexicalLisp.Proofs.ParallelBinding
import LexicalLisp.Proofs.OverloadMerging
import LexicalLisp.Proofs.OverloadOrder
import LexicalLisp.Proofs.Arithmetic
import LexicalLisp.Proofs.Comparison
import LexicalLisp.Proofs.PartialEquivalence
import LexicalLisp.Proofs.FailurePlace
import LexicalLisp.Proofs.Snippet
import LexicalLisp.Proofs.Progress
import LexicalLisp.Proofs.Alternatives
import LexicalLisp.Proofs.StringLiteral
