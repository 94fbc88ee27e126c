import Lox.Main
import Lox.Proofs.Renaming.Programs
import Lox.Proofs.Grammar.Language
import Lox.Proofs.Evaluation.Restoration
import Lox.Proofs.Session.Rejection
import Lox.Proofs.Session.Pieces
import Lox.Proofs.Grammar.RoundTrip
import Lox.Proofs.Session.Printing
import Lox.Proofs.Token.Partition
import Lox.Proofs.Session.WellFounded
import Lox.Proofs.Session.Identities
import Lox.Proofs.Session.Output
import Lox.Proofs.Session.Blame
import Lox.Proofs.Resolution.Rules
import Lox.Proofs.Grammar.Positions
import Lox.Proofs.Grammar.Recovery
import Lox.Proofs.Evaluation.Leaving
import Lox.Proofs.Session.Calls
import Lox.Proofs.Scoping.Inheritance
import Lox.Proofs.Session.Construction
import Lox.Proofs.Session.Properties
import Lox.Proofs.Token.Composition
import Lox.Proofs.Grammar.Loops
import Lox.Proofs.Heap.Lookup
import Lox.Proofs.Number.Printing
import Lox.Proofs.Tree.Rendering
