import BlockText.Desk
import BlockText.Edit
import BlockText.Expectation
import BlockText.Main
import BlockText.Proofs.Attribution
import BlockText.Proofs.Conditionals
import BlockText.Proofs.Connecting
import BlockText.Proofs.Contiguity
import BlockText.Proofs.Conversions
import BlockText.Proofs.Counting
import BlockText.Proofs.Debouncing
import BlockText.Proofs.Desks
import BlockText.Proofs.Exclusion
import BlockText.Proofs.Expressions
import BlockText.Proofs.Following
import BlockText.Proofs.History
import BlockText.Proofs.Locations
import BlockText.Proofs.Nesting
import BlockText.Proofs.Placing
import BlockText.Proofs.Precedence
import BlockText.Proofs.Refusals
import BlockText.Proofs.Saving
import BlockText.Proofs.Sequences
import BlockText.Proofs.Sessions
import BlockText.Proofs.Soundness
import BlockText.Proofs.Stability
import BlockText.Proofs.Termination
import BlockText.Proofs.Views
import BlockText.Proofs.Widening
