import Graft.Body.Effect
import Graft.Text.Hex
import Graft.Assembly.Listing
import Graft.Assembly.Reader
import Graft.Body.Encoding
import Graft.Typing.Flow
import Graft.Execution.Run
import Graft.Dict
import Graft.Matcher
import Graft.Pattern
import Graft.Cursor.Edit
import Graft.Plan.Apply
import Graft.Script
import Graft.Host.Basic
import Graft.Json.Reader
import Graft.Json.Writer
import Graft.Form.Plan
import Graft.Command.Directory
import Graft.Main
import Graft.Proofs.Typing.Control
import Graft.Proofs.Typing.Operands
import Graft.Proofs.Typing.Blocks
import Graft.Proofs.Typing.Worklist
import Graft.Proofs.Execution.Steps
import Graft.Proofs.Execution.Limits
import Graft.Proofs.Typing.Exactness
import Graft.Proofs.Typing.Rules
import Graft.Proofs.Execution.Soundness
import Graft.Proofs.Execution.Effects
import Graft.Proofs.Body.Numbering
import Graft.Proofs.Body.Substitution
import Graft.Proofs.Cursor.Replacement
import Graft.Proofs.Execution.Lockstep
import Graft.Proofs.Dict
import Graft.Proofs.Cursor.Stability
import Graft.Proofs.Host.MethodTable
import Graft.Proofs.Host.Attempts
import Graft.Proofs.Body.Content
import Graft.Proofs.Body.CanonicalBytes
import Graft.Proofs.Alike.Basic
import Graft.Proofs.Alike.Verification
import Graft.Proofs.Alike.Behaviour
import Graft.Proofs.Typing.Substitution
import Graft.Proofs.Plan.Selection
import Graft.Proofs.Plan.Replacements
import Graft.Proofs.Plan.Calls
import Graft.Proofs.Plan.Patched
import Graft.Proofs.Plan.Order
import Graft.Proofs.Plan.Revision
import Graft.Proofs.Host.Reached
import Graft.Proofs.Typing.Encodable
import Graft.Proofs.Host.Plans
import Graft.Proofs.Host.LoadOrder
import Graft.Proofs.Text.Pieces
import Graft.Proofs.Text.Tokens
import Graft.Proofs.Assembly.Tokens
import Graft.Proofs.Assembly.Headers
import Graft.Proofs.Assembly.Rows
import Graft.Proofs.Assembly.Reassembly
import Graft.Proofs.Assembly.RoundTrip
import Graft.Proofs.Host.WorkingCopies
import Graft.Proofs.Host.Hooks
import Graft.Proofs.Host.Lifecycle
import Graft.Proofs.Settings
import Graft.Proofs.Session
import Graft.Proofs.Json.Tokens
import Graft.Proofs.Json.Reading
import Graft.Proofs.Form.Basic
import Graft.Proofs.Form.Instruction
import Graft.Proofs.Form.Pattern
import Graft.Proofs.Form.Plan
import Graft.Proofs.Cursor.Branches
import Graft.Proofs.Cursor.Operations
import Graft.Proofs.Body.Padding
import Graft.Proofs.Typing.Padding
import Graft.Proofs.Execution.Padding
import Graft.Proofs.Cursor.Sweep
import Graft.Proofs.Cursor.Search
import Graft.Proofs.Value
import Graft.Proofs.Body.Externals
import Graft.Proofs.Host.Redefinition
import Graft.Proofs.Command.Printed
import Graft.Proofs.Host.Installation
import Graft.Proofs.Snapshots
import Graft.Proofs.Assembly.Drafts
import Graft.Proofs.Typing.Causes
import Graft.Proofs.Assembly.Structure
import Graft.Proofs.Assembly.Concatenation
import Graft.Proofs.Literals
import Graft.Proofs.Matcher
import Graft.Proofs.Body.Operations
import Graft.Proofs.Host.Notifications
import Graft.Proofs.Typing.Lookups
import Graft.Proofs.Typing.Turns
