import AgreedOrder.Main
import AgreedOrder.Connection
import AgreedOrder.Schedule
import AgreedOrder.Proofs.HoldQueue.Content
import AgreedOrder.Proofs.HoldQueue.Operations
import AgreedOrder.Proofs.Sequencer.Coherence
import AgreedOrder.Proofs.Sequencer.Release
import AgreedOrder.Proofs.Sequencer.Ahead
import AgreedOrder.Proofs.Sequencer.History
import AgreedOrder.Proofs.Sequencer.Succession
import AgreedOrder.Proofs.Sequencer.Bookkeeping
import AgreedOrder.Proofs.Sequencer.Cut
import AgreedOrder.Proofs.Sequencer.Timing
import AgreedOrder.Proofs.Balloting
import AgreedOrder.Proofs.HoldQueue.Order
import AgreedOrder.Proofs.Votes
import AgreedOrder.Proofs.PeerTable
import AgreedOrder.Proofs.Protocol.Step
import AgreedOrder.Proofs.Protocol.Records
import AgreedOrder.Proofs.Protocol.Membership
import AgreedOrder.Proofs.Protocol.Voting
import AgreedOrder.Proofs.Protocol.Placement
import AgreedOrder.Proofs.Protocol.Invariant
import AgreedOrder.Proofs.Protocol.Act
import AgreedOrder.Proofs.Protocol.TotalOrder
import AgreedOrder.Proofs.Protocol.Attention
import AgreedOrder.Proofs.Protocol.Progress
import AgreedOrder.Proofs.Protocol.Quiescence
import AgreedOrder.Proofs.Base64
import AgreedOrder.Proofs.Json.Quoted
import AgreedOrder.Proofs.MessageId
import AgreedOrder.Proofs.Protocol.Completeness
import AgreedOrder.Proofs.Json.Record
import AgreedOrder.Proofs.Envelope
import AgreedOrder.Proofs.Protocol.Divergence
import AgreedOrder.Proofs.Flooding.Lines
import AgreedOrder.Proofs.Flooding.Onward
import AgreedOrder.Proofs.Flooding.Carrying
import AgreedOrder.Proofs.Flooding.Covering
import AgreedOrder.Proofs.Flooding.Termination
import AgreedOrder.Proofs.Flooding.Rest
import AgreedOrder.Proofs.Flooding.Act
import AgreedOrder.Proofs.Flooding.Delivery
import AgreedOrder.Proofs.Protocol.Handlers
import AgreedOrder.Proofs.Flooding.Handlers
import AgreedOrder.Proofs.Stack.Lines
import AgreedOrder.Proofs.Stack.Wiring
import AgreedOrder.Proofs.Stack.Mirror
import AgreedOrder.Proofs.Bank.Payload
import AgreedOrder.Proofs.Bank.Replaying
import AgreedOrder.Proofs.Bank.Replication
import AgreedOrder.Proofs.Protocol.Numbering
import AgreedOrder.Proofs.Stack.Rest
import AgreedOrder.Proofs.Stack.Handlers
import AgreedOrder.Proofs.Connection
import AgreedOrder.Proofs.Framing
import AgreedOrder.Proofs.Protocol.SenderOrder
import AgreedOrder.Proofs.Stack.Channels
import AgreedOrder.Proofs.Stack.Overtaking
import AgreedOrder.Proofs.Stack.SenderOrder
import AgreedOrder.Proofs.HoldQueue.Refinement
import AgreedOrder.Proofs.Bank.Conservation
import AgreedOrder.Proofs.Tasks.Head
import AgreedOrder.Proofs.Queues.Script
import AgreedOrder.Proofs.Collecting.Decision
import AgreedOrder.Proofs.Bank.Exact
import AgreedOrder.Proofs.Bank.Processing
import AgreedOrder.Proofs.Flooding.Intake
import AgreedOrder.Proofs.Tasks.Twin
import AgreedOrder.Proofs.Tasks.Lockstep
import AgreedOrder.Proofs.Tasks.Unheeded
import AgreedOrder.Proofs.Text.Blank
import AgreedOrder.Proofs.Text.Numeral
import AgreedOrder.Proofs.Bank.Command
import AgreedOrder.Proofs.Bank.CommandInput
import AgreedOrder.Proofs.Address
import AgreedOrder.Proofs.Bank.NodeTable
import AgreedOrder.Proofs.HoldQueue.Misplaced
import AgreedOrder.Proofs.Bank.Quorum
import AgreedOrder.Proofs.Bank.Snapshot
import AgreedOrder.Proofs.Decoding
