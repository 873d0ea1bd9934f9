import ProtocolIR.Grammar.Listing
import ProtocolIR.Proofs.Compile.Complete
import ProtocolIR.Proofs.Compile.Exhausted
import ProtocolIR.Proofs.Grammar.LookAhead
import ProtocolIR.Proofs.Grammar.Fields
import ProtocolIR.Proofs.Grammar.Symbols
import ProtocolIR.Proofs.Links.Rounds
import ProtocolIR.Proofs.Numbering
import ProtocolIR.Proofs.Round.NeverSettles
import ProtocolIR.Proofs.Scope.Privacy
import ProtocolIR.Proofs.Tree.Misuse
import ProtocolIR.Proofs.Unification.Reference
import ProtocolIR.Proofs.Unification.Units
import ProtocolIR.Visit
