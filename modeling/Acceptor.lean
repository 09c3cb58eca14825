import Acceptor.Automaton.Lemmas
import Acceptor.Automaton.Workspace
import Acceptor.Matcher
import Acceptor.Pattern.Session
import Acceptor.Proofs.Automaton.Relocation
import Acceptor.Proofs.Automaton.Saturation
import Acceptor.Proofs.Automaton.Trim
import Acceptor.Proofs.Matcher
import Acceptor.Proofs.Pattern.Conversation
import Acceptor.Proofs.Pattern.Group
import Acceptor.Proofs.Pattern.Scopes
import Acceptor.Proofs.Regex.Compilation
import Acceptor.Proofs.Regex.Interleaving
import Acceptor.Proofs.Regex.Parentheses
import Acceptor.Proofs.Regex.Shape
import Acceptor.Proofs.Regex.Size
import Acceptor.Proofs.Regex.Thompson
import Acceptor.Proofs.Search.Consistency
import Acceptor.Proofs.Search.Exhaustion
import Acceptor.Proofs.Search.Legibility
import Acceptor.Proofs.Search.Limit
import Acceptor.Proofs.Search.Loop
import Acceptor.Proofs.Search.Order
import Acceptor.Proofs.Search.Report
import Acceptor.Proofs.Table.Dead
import Acceptor.Proofs.Table.Numbering
import Acceptor.Proofs.Table.Subsets
