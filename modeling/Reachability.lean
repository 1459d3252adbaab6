import Reachability.CommandLine.Rehearsal
import Reachability.Main
import Reachability.Proofs.Analysis.Lawful
import Reachability.Proofs.Bounds.Restriction
import Reachability.Proofs.Execution.Blocking
import Reachability.Proofs.Exploration.History
import Reachability.Proofs.FlowGraph.LoopHeads
import Reachability.Proofs.FlowGraph.Messages
import Reachability.Proofs.Parallel
import Reachability.Proofs.Program.Reading
import Reachability.Proofs.Source.Calls
import Reachability.Proofs.Source.Distinct
import Reachability.Proofs.Source.Loops
import Reachability.Proofs.Verification.Account
import Reachability.Proofs.Verification.Components
import Reachability.Proofs.Verification.Consistency
import Reachability.Proofs.Verification.Constants
import Reachability.Proofs.Verification.Order
import Reachability.Proofs.Verification.Readiness
import Reachability.Proofs.Verification.Replays
import Reachability.Proofs.Verification.Skipping
import Reachability.Proofs.Verification.Walks
import Reachability.Session.Step
import Reachability.Verification.Findings
