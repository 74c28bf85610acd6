import CardSat.Main
import CardSat.Proofs.Answers
import CardSat.Proofs.Bounds
import CardSat.Proofs.Clauses
import CardSat.Proofs.CnfPlus.Agreement
import CardSat.Proofs.CnfPlus.Receiving
import CardSat.Proofs.Consequences
import CardSat.Proofs.Deciding
import CardSat.Proofs.Directing
import CardSat.Proofs.Intervals
import CardSat.Proofs.Inventory
import CardSat.Proofs.Lessons
import CardSat.Proofs.Occasions
import CardSat.Proofs.Origins
import CardSat.Proofs.Progress
import CardSat.Proofs.Queue
import CardSat.Proofs.Reasons
import CardSat.Proofs.Recovery
import CardSat.Proofs.Reducing
import CardSat.Proofs.Reloads
import CardSat.Proofs.Simplifying
import CardSat.Proofs.Unmarked
import CardSat.Proofs.Waiting
import CardSat.Proofs.Watches
