import PolishNotation.Main
import PolishNotation.Proofs.RoundTrip
import PolishNotation.Proofs.Grammar.Meaning
import PolishNotation.Proofs.OperatorStack
import PolishNotation.Grammar.Parentheses
import PolishNotation.Proofs.Grammar.Parentheses
import PolishNotation.Proofs.Shortest
import PolishNotation.Proofs.Substitution
import PolishNotation.Proofs.Tree.Block
import PolishNotation.Proofs.Grammar.Neighbour
import PolishNotation.Proofs.Needless
import PolishNotation.Proofs.Grammar.Nesting
import PolishNotation.Proofs.Links.VisitOrder
import PolishNotation.Proofs.Reader.Stops
import PolishNotation.Proofs.Refusal
import PolishNotation.Proofs.Compaction
import PolishNotation.Proofs.Reader.Groups
import PolishNotation.Proofs.Links.Lookup
import PolishNotation.Proofs.Memo
import PolishNotation.Proofs.Session
import PolishNotation.Proofs.Recency
import PolishNotation.CommandLine.Contribution
import PolishNotation.Proofs.CommandLine.Contribution
import PolishNotation.Proofs.CommandLine.Arguments
import PolishNotation.Proofs.CommandLine.Outcome
import PolishNotation.Proofs.Recovery
import PolishNotation.Proofs.Links.Forest
import PolishNotation.Proofs.Miscount
import PolishNotation.Proofs.Term.Stops
import PolishNotation.Proofs.Links.Filling
import PolishNotation.Proofs.Term.Leftovers
import PolishNotation.Proofs.Links.Adoption
import PolishNotation.Proofs.Links.Attachment
import PolishNotation.Proofs.Links.Acyclic
import PolishNotation.Proofs.Links.Operation
import PolishNotation.Proofs.Links.Record
import PolishNotation.Proofs.Events
import PolishNotation.Proofs.Tree.Bracketed
import PolishNotation.Proofs.Tree.Drawing
import PolishNotation.Proofs.Links.Search
