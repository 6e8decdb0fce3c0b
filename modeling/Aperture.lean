import Aperture.Session
import Aperture.Bytes
import Aperture.Pool.Placement
import Aperture.Frames.Touched
import Aperture.Gather.Pieces
import Aperture.Gather.Joints
import Aperture.Layout
import Aperture.Ledger
import Aperture.Admission
import Aperture.Batch
import Aperture.Bisect
import Aperture.Pool.History
import Aperture.Pool.Places
import Aperture.Frames.Arena
import Aperture.Frames.History
import Aperture.Frames.Roll
import Aperture.Gather.History
import Aperture.Shift
import Aperture.Served
import Aperture.Restored
import Aperture.Payload.Found
import Aperture.Payload.Onto
import Aperture.Synced
import Aperture.Payload.Pieces
import Aperture.Frames.Onto
import Aperture.HostMemory.History
import Aperture.Table.History
import Aperture.Cache.Sweep
import Aperture.ByteSize.Spelling
import Aperture.Proofs.Word.Total
import Aperture.Proofs.Word.Multiples
import Aperture.Proofs.Pool.Search
import Aperture.Proofs.Pool.Reserve
import Aperture.Proofs.Pool.FirstFit
import Aperture.Proofs.Pool.History
import Aperture.Proofs.Pool.Places
import Aperture.Proofs.Pool.Suits
import Aperture.Proofs.Pool.LeastFit
import Aperture.Proofs.Pool.Release
import Aperture.Proofs.Frames.Record
import Aperture.Proofs.Frames.Laid
import Aperture.Proofs.Frames.Arena
import Aperture.Proofs.Frames.Roll
import Aperture.Proofs.Frames.Answers
import Aperture.Proofs.Gather.Cutting
import Aperture.Proofs.Gather.Append
import Aperture.Proofs.Gather.Runs
import Aperture.Proofs.Gather.Exact
import Aperture.Proofs.Gather.Limits
import Aperture.Proofs.Gather.Account
import Aperture.Proofs.Gather.Neighbours
import Aperture.Proofs.Gather.Cropping
import Aperture.Proofs.Gather.Shift
import Aperture.Proofs.Gather.Chopping
import Aperture.Proofs.Gather.Tiling
import Aperture.Proofs.Payload.Walk
import Aperture.Proofs.Payload.Found
import Aperture.Proofs.Payload.Bytes
import Aperture.Proofs.Payload.Failure
import Aperture.Proofs.Payload.Onto
import Aperture.Proofs.Payload.Linear
import Aperture.Proofs.Table.Bindings
import Aperture.Proofs.Tag.Aside
import Aperture.Proofs.Tag.Load
import Aperture.Proofs.Tag.Lawful
import Aperture.Proofs.Tag.Offer
import Aperture.Proofs.Tag.Route
import Aperture.Proofs.Tag.Course
import Aperture.Proofs.Tag.View
import Aperture.Proofs.Tag.Occupied
import Aperture.Proofs.Tag.Placement
import Aperture.Proofs.Tag.Reload
import Aperture.Proofs.Table.Fresh
import Aperture.Proofs.Table.Entry
import Aperture.Proofs.Table.Lookup
import Aperture.Proofs.Table.Wiring
import Aperture.Proofs.Session.Steps
import Aperture.Proofs.Session.Changes
import Aperture.Proofs.Ledger.Tenancies
import Aperture.Proofs.Ledger.Effect
import Aperture.Proofs.Ledger.Sound
import Aperture.Proofs.Ledger.DeviceView
import Aperture.Proofs.Ledger.FailedLoad
import Aperture.Proofs.Ledger.Accounting
import Aperture.Proofs.Ledger.Exposure
import Aperture.Proofs.Ledger.Limits
import Aperture.Proofs.Ledger.Overrun
import Aperture.Proofs.Ledger.Verdict
import Aperture.Proofs.Ledger.Batch
import Aperture.Proofs.Ledger.Placement
import Aperture.Proofs.Ledger.Chopping
import Aperture.Proofs.Ledger.Interval
import Aperture.Proofs.Ledger.Wired
import Aperture.Proofs.Ledger.Entries
import Aperture.Proofs.Ledger.Undo
import Aperture.Proofs.Tag.Sync
import Aperture.Proofs.Ledger.Synced
import Aperture.Proofs.Frames.Onto
import Aperture.Proofs.HostMemory.Contract
import Aperture.Proofs.Payload.Pieces
import Aperture.Proofs.Ledger.Pieces
import Aperture.Proofs.Tag.Overstep
import Aperture.Proofs.Ledger.Overstep
import Aperture.Proofs.Table.Format
import Aperture.Proofs.Table.History
import Aperture.Proofs.Tag.Teardown
import Aperture.Proofs.Ledger.Teardown
import Aperture.Proofs.HostMemory.Overflow
import Aperture.Proofs.Cache.Lines
import Aperture.Proofs.ByteSize.Text
import Aperture.Proofs.ByteSize.Value
import Aperture.Proofs.Ledger.Memory
import Aperture.Proofs.Handle.FailedLoad
import Aperture.Proofs.Handle.Reuse
