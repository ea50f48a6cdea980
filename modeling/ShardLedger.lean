import ShardLedger.Main
import ShardLedger.Block.Record
import ShardLedger.Config.File
import ShardLedger.Block.Summary
import ShardLedger.Chain.Summary
import ShardLedger.Ledger.Summary
import ShardLedger.Simulation.Summary
import ShardLedger.Proofs.Fork.Tree
import ShardLedger.Proofs.Fork.Pruning
import ShardLedger.Proofs.Fork.Waiting
import ShardLedger.Proofs.Fork.Rule
import ShardLedger.Proofs.Fork.Confluence
import ShardLedger.Proofs.Chain.Sound
import ShardLedger.Proofs.Ledger.Arranged
import ShardLedger.Proofs.Ledger.Listing
import ShardLedger.Proofs.Tree.Sorting
import ShardLedger.Proofs.Ledger.Shifting
import ShardLedger.Proofs.Ledger.Keeping
import ShardLedger.Proofs.Ledger.Routed
import ShardLedger.Proofs.Ledger.OneStore
import ShardLedger.Proofs.Ledger.Floors
import ShardLedger.Proofs.Ledger.Reached
import ShardLedger.Proofs.Tree.Staleness
import ShardLedger.Proofs.Tree.Revisits
import ShardLedger.Proofs.Tree.Returns
import ShardLedger.Proofs.Ledger.Buffers
import ShardLedger.Proofs.Tree.Arrival
import ShardLedger.Proofs.Ledger.Shape
import ShardLedger.Proofs.Simulation.Verdict
import ShardLedger.Proofs.Simulation.Criteria
import ShardLedger.Proofs.Simulation.Streams
import ShardLedger.Proofs.Ledger.Staged
import ShardLedger.Proofs.Ledger.Linearizing
import ShardLedger.Proofs.Tree.Refusing
import ShardLedger.Proofs.Tree.Proposing
import ShardLedger.Proofs.Content.Filling
import ShardLedger.Proofs.Content.Regrouping
import ShardLedger.Proofs.Fork.Discarding
import ShardLedger.Proofs.Fork.Walking
import ShardLedger.Proofs.Fork.Heaviest
import ShardLedger.Proofs.Ledger.SingleChain
import ShardLedger.Proofs.Tree.Submission
