import AriParti.L4Cluster.Stranded
import AriParti.L4Cluster.Verdict
import AriParti.L4Cluster.ClosedForm
import AriParti.L3Coordinator.Agreement
import AriParti.L3Coordinator.Attended
import AriParti.L3Coordinator.Selection
import AriParti.L3Coordinator.Framing
import AriParti.L2Partitioner.Answers
import AriParti.L2Partitioner.Statistics
import AriParti.L1Bounds.Falsified
import AriParti.L1Bounds.Scan
import AriParti.L1Bounds.Order
import AriParti.L1Bounds.Occurrences
import AriParti.L1Input.Clauses
import AriParti.L1Input.Variables
import AriParti.L1Input.Values
import AriParti.L1Arith.Ranges
import AriParti.L3Coordinator.Goals
import AriParti.L1Input.Goal
import AriParti.L3Coordinator.Wired
