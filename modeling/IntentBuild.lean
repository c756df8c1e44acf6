import IntentBuild.Conversation.Chat
import IntentBuild.Conversation.Script
import IntentBuild.Main
import IntentBuild.Proofs.Assoc
import IntentBuild.Proofs.Store.Supply
import IntentBuild.Proofs.Operation.Event
import IntentBuild.Proofs.Dependency.Ledger
import IntentBuild.Proofs.Dependency.Reconciler
import IntentBuild.Proofs.Dependency.UnionLaw
import IntentBuild.Proofs.Build.Course
import IntentBuild.Proofs.Build.Frame
import IntentBuild.Proofs.Json.RoundTrip
import IntentBuild.Proofs.Build.Freshness
import IntentBuild.Proofs.Build.Budget
import IntentBuild.Proofs.Build.Cancellation
import IntentBuild.Proofs.Dependency.Drift
import IntentBuild.Proofs.Cache.Hits
import IntentBuild.Proofs.Operation.Persistence
import IntentBuild.Proofs.Build.Containment
import IntentBuild.Proofs.Graph.Rows
import IntentBuild.Proofs.Graph.Addresses
import IntentBuild.Proofs.Instance.Fence
import IntentBuild.Proofs.Instance.Operations
import IntentBuild.Proofs.Graph.Cascade
import IntentBuild.Proofs.Graph.Contents
import IntentBuild.Proofs.Instance.Sharing
import IntentBuild.Proofs.Conversation.Extraction
import IntentBuild.Proofs.Result.Retraction
import IntentBuild.Proofs.Setup
import IntentBuild.Proofs.Build.Areas
import IntentBuild.Proofs.Build.Applied
import IntentBuild.Proofs.Build.LastWins
import IntentBuild.Proofs.Dependency.Package
import IntentBuild.Proofs.Cache.History
import IntentBuild.Proofs.Dependency.Exactness
import IntentBuild.Proofs.Build.Mirror
import IntentBuild.Proofs.Build.Displaced
import IntentBuild.Proofs.Version.Ranking
import IntentBuild.Proofs.Json.Faithful
import IntentBuild.Proofs.Conversation.Order
import IntentBuild.Proofs.Conversation.Spacing
import IntentBuild.Proofs.Store.Moves
import IntentBuild.Proofs.Build.Sources
import IntentBuild.Proofs.Extension.History
import IntentBuild.Proofs.Dependency.Spelling
import IntentBuild.Proofs.Dependency.Failure
import IntentBuild.Proofs.Build.Rendered
import IntentBuild.Proofs.Build.Replay
