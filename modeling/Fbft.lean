import Fbft.Quorum
import Fbft.RoastActive
import Fbft.Certificates
import Fbft.Cluster
import Fbft.Journal
import Fbft.Authentic
import Fbft.Proposals
import Fbft.Uniqueness
import Fbft.Blocks
import Fbft.Agreement
import Fbft.LogViews
import Fbft.Seqno
import Fbft.Votes
import Fbft.InSync
import Fbft.NullEntries
import Fbft.Returns
import Fbft.CppString
import Fbft.Wallet
import Fbft.Process
import Fbft.Validation
import Fbft.Shares
import Fbft.Aborts
import Fbft.Incoming
import Fbft.Json
import Fbft.Fields
import Fbft.Ingest
import Fbft.Transport
import Fbft.Acceptance
import Fbft.ClusterSizes
import Fbft.Checkpoints
import Fbft.ViewChanges
import Fbft.RoastRuns
import Fbft.FinalSession
import Fbft.PreSignatures
import Fbft.Redelivery
import Fbft.Timestamps
import Fbft.Hex
import Fbft.Wire
import Fbft.Draining
import Fbft.Restart
import Fbft.Stateful
import Fbft.Nonces
import Fbft.Codecs
import Fbft.VirtualCalls
import Fbft.Signing
import Fbft.Outgoing
import Fbft.ViewChangeDigests
import Fbft.JsonText
import Fbft.Progression
import Fbft.Buffers
import Fbft.OutputTables
import Fbft.Broadcast
import Fbft.Malicious
import Fbft.Aggregation
import Fbft.Robustness
import Fbft.Timeouts
import Fbft.Quiescence
import Fbft.Decisions
import Fbft.Digests
import Fbft.Grinding
import Fbft.Notifications
import Fbft.Generation
import Fbft.Completion
import Fbft.Resumption
import Fbft.Provenance
import Fbft.Envelopes
import Fbft.Deployment
import Fbft.Refinement
