import ReactiveReach.Main
import ReactiveReach.Proofs.Acyclic
import ReactiveReach.Proofs.Cone
import ReactiveReach.Proofs.Distribution
import ReactiveReach.Proofs.Enlargement
import ReactiveReach.Proofs.Height
import ReactiveReach.Proofs.Interruption
import ReactiveReach.Proofs.Leastness
import ReactiveReach.Proofs.Locality
import ReactiveReach.Proofs.PathJoins
import ReactiveReach.Proofs.Paths
import ReactiveReach.Proofs.Reordering
import ReactiveReach.Proofs.Rest
import ReactiveReach.Proofs.Specification
import ReactiveReach.Proofs.Underestimate
import ReactiveReach.Samples.BitAssembly
import ReactiveReach.Samples.Configurations
import ReactiveReach.Samples.Counter
import ReactiveReach.Samples.Term
import ReactiveReach.Stored.Hexadecimal
import ReactiveReach.Stored.Outcome
import ReactiveReach.Proofs.Records
import ReactiveReach.Proofs.Safety
import ReactiveReach.Proofs.Digits
import ReactiveReach.Proofs.JsonNumbers
import ReactiveReach.Proofs.JsonGrammar
import ReactiveReach.Proofs.JsonTokens
import ReactiveReach.Proofs.JsonText
import ReactiveReach.Proofs.CheckpointText
import ReactiveReach.Proofs.Bytes
import ReactiveReach.Proofs.CheckpointBytes
import ReactiveReach.Proofs.Unreachable
import ReactiveReach.Proofs.Log
import ReactiveReach.Proofs.Pinning
import ReactiveReach.Proofs.Renaming
import ReactiveReach.Proofs.RenamedRuns
import ReactiveReach.Proofs.DryRun
import ReactiveReach.Proofs.PassCounts
import ReactiveReach.Proofs.Isolation
import ReactiveReach.Proofs.Defects
import ReactiveReach.Proofs.Refusals
import ReactiveReach.Proofs.Trajectories
import ReactiveReach.Proofs.FlagMachines
import ReactiveReach.Proofs.CheckpointFields
import ReactiveReach.Proofs.Contributions
import ReactiveReach.Proofs.ReadBack
import ReactiveReach.Proofs.Drafts
