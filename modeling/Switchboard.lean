import Switchboard.Proofs.Table.Shelf
import Switchboard.Proofs.Table.Capacity
import Switchboard.Proofs.Table.Map
import Switchboard.Proofs.Table.Course
import Switchboard.Proofs.Table.Growth
import Switchboard.Proofs.Table.Sweep
import Switchboard.Proofs.Table.Optional
import Switchboard.Proofs.Table.Insertion
import Switchboard.Proofs.Table.Changes
import Switchboard.Scenario.Session
import Switchboard.Table.Cursor
import Switchboard.Table.Recipe
import Switchboard.Proofs.Registry.Ledger
import Switchboard.Proofs.Registry.Account
import Switchboard.Proofs.Registry.State
import Switchboard.Proofs.World.Step
import Switchboard.Proofs.World.Use
import Switchboard.Proofs.World.Standing
import Switchboard.Proofs.World.Conservation
import Switchboard.Proofs.World.Grants
import Switchboard.Proofs.World.Pair
import Switchboard.Proofs.World.Accounting
import Switchboard.Proofs.World.Call
import Switchboard.Proofs.World.Ensures
import Switchboard.Proofs.World.Dismissal
import Switchboard.Proofs.World.Binding
import Switchboard.Proofs.World.RoundTrip
import Switchboard.Proofs.World.Sweep
import Switchboard.Proofs.World.Validity
import Switchboard.Proofs.World.Withdrawal
import Switchboard.Proofs.World.Provenance
import Switchboard.Proofs.World.Entries
import Switchboard.Proofs.World.Awaiting
import Switchboard.Proofs.World.Lifetime
import Switchboard.Proofs.World.Reclaim
import Switchboard.Proofs.World.Numbering
import Switchboard.Proofs.World.Turn
import Switchboard.Proofs.World.Index
import Switchboard.Proofs.World.Allotment
import Switchboard.Proofs.World.Log
import Switchboard.Proofs.World.Events
import Switchboard.Proofs.World.References
import Switchboard.Proofs.World.Lookup
import Switchboard.Proofs.World.Minting
import Switchboard.Proofs.World.Making
import Switchboard.Proofs.World.Sharing
import Switchboard.Proofs.Registry.Twin
import Switchboard.Proofs.World.Twin
import Switchboard.Proofs.World.Failure
import Switchboard.Proofs.World.Capacity
import Switchboard.Proofs.Registry.Weight
import Switchboard.Proofs.World.Bulk
import Switchboard.Proofs.World.History
import Switchboard.Proofs.World.Stamped
import Switchboard.Proofs.World.Effort
import Switchboard.Proofs.World.Termination
