import OnePipeline.Core.Acting
import OnePipeline.Core.Calendar
import OnePipeline.Core.Chase
import OnePipeline.Core.Checks
import OnePipeline.Core.Cuts
import OnePipeline.Core.Decimal
import OnePipeline.Core.Dfs
import OnePipeline.Core.Doubled
import OnePipeline.Core.Flood
import OnePipeline.Core.Keyed
import OnePipeline.Core.Maps
import OnePipeline.Core.Markers
import OnePipeline.Core.Merge
import OnePipeline.Core.Owed
import OnePipeline.Core.Reported
import OnePipeline.Core.Runs
import OnePipeline.Core.Tail
import OnePipeline.Core.Text
import OnePipeline.Core.Topmost
import OnePipeline.Core.Worklist
import OnePipeline.Laws.Acknowledged
import OnePipeline.Laws.Arrivals
import OnePipeline.Laws.AtDispatch
import OnePipeline.Laws.Attempts
import OnePipeline.Laws.Bar
import OnePipeline.Laws.Boundary
import OnePipeline.Laws.Carried
import OnePipeline.Laws.Chains
import OnePipeline.Laws.Changes
import OnePipeline.Laws.Checked
import OnePipeline.Laws.Checkpoint
import OnePipeline.Laws.Compiled
import OnePipeline.Laws.Concurrency
import OnePipeline.Laws.Criteria
import OnePipeline.Laws.Cycles
import OnePipeline.Laws.Deliveries
import OnePipeline.Laws.Derived
import OnePipeline.Laws.Difference
import OnePipeline.Laws.Discharge
import OnePipeline.Laws.Edges
import OnePipeline.Laws.Ended
import OnePipeline.Laws.FlowCursor
import OnePipeline.Laws.Folded
import OnePipeline.Laws.Forest
import OnePipeline.Laws.Freshness
import OnePipeline.Laws.Gate
import OnePipeline.Laws.Handover
import OnePipeline.Laws.Holding
import OnePipeline.Laws.Holds
import OnePipeline.Laws.Hooks
import OnePipeline.Laws.InPass
import OnePipeline.Laws.InTurn
import OnePipeline.Laws.Instants
import OnePipeline.Laws.ItemWriter
import OnePipeline.Laws.Late
import OnePipeline.Laws.Ledger
import OnePipeline.Laws.Lineage
import OnePipeline.Laws.Lines
import OnePipeline.Laws.Notes
import OnePipeline.Laws.OneBranch
import OnePipeline.Laws.Order
import OnePipeline.Laws.Ownership
import OnePipeline.Laws.Parks
import OnePipeline.Laws.Passing
import OnePipeline.Laws.Placement
import OnePipeline.Laws.Pool
import OnePipeline.Laws.Preserve
import OnePipeline.Laws.Readjust
import OnePipeline.Laws.Recovery
import OnePipeline.Laws.Release
import OnePipeline.Laws.Renaming
import OnePipeline.Laws.ReplayAgrees
import OnePipeline.Laws.Rereads
import OnePipeline.Laws.Restacks
import OnePipeline.Laws.Reworked
import OnePipeline.Laws.Schedule
import OnePipeline.Laws.Settled
import OnePipeline.Laws.Shapes
import OnePipeline.Laws.Sources
import OnePipeline.Laws.Splice
import OnePipeline.Laws.Stacking
import OnePipeline.Laws.StackingPlacement
import OnePipeline.Laws.Supersession
import OnePipeline.Laws.Takeover
import OnePipeline.Laws.Telemetry
import OnePipeline.Laws.Timestamps
import OnePipeline.Laws.Upstream
import OnePipeline.Laws.Watchers
import OnePipeline.Laws.Writeback
import OnePipeline.Model.AtDispatch
import OnePipeline.Model.Attempts
import OnePipeline.Model.Boundary
import OnePipeline.Model.Changes
import OnePipeline.Model.Checkpoint
import OnePipeline.Model.Command
import OnePipeline.Model.Criteria
import OnePipeline.Model.Deliveries
import OnePipeline.Model.Difference
import OnePipeline.Model.Discharge
import OnePipeline.Model.Edits
import OnePipeline.Model.FlowCursor
import OnePipeline.Model.Gate
import OnePipeline.Model.Graph
import OnePipeline.Model.Handover
import OnePipeline.Model.Holding
import OnePipeline.Model.Holds
import OnePipeline.Model.Hooks
import OnePipeline.Model.HumanItem
import OnePipeline.Model.InPass
import OnePipeline.Model.ItemWriter
import OnePipeline.Model.Journal
import OnePipeline.Model.Ledger
import OnePipeline.Model.Lineage
import OnePipeline.Model.Note
import OnePipeline.Model.Ownership
import OnePipeline.Model.Placement
import OnePipeline.Model.Plan
import OnePipeline.Model.Pool
import OnePipeline.Model.Preserve
import OnePipeline.Model.Projection
import OnePipeline.Model.Readjust
import OnePipeline.Model.Record
import OnePipeline.Model.Recovery
import OnePipeline.Model.Release
import OnePipeline.Model.Replay
import OnePipeline.Model.Rereads
import OnePipeline.Model.Restacks
import OnePipeline.Model.Run
import OnePipeline.Model.Schedule
import OnePipeline.Model.Serde
import OnePipeline.Model.Sources
import OnePipeline.Model.Stack
import OnePipeline.Model.StackingPlacement
import OnePipeline.Model.Supersession
import OnePipeline.Model.Takeover
import OnePipeline.Model.Task
import OnePipeline.Model.Telemetry
import OnePipeline.Model.Timestamp
import OnePipeline.Model.Upstream
import OnePipeline.Model.Validate
import OnePipeline.Model.Watchers
import OnePipeline.Model.Withdrawal
import OnePipeline.Model.Writeback
