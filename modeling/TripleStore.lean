import TripleStore.Store
import TripleStore.Term
import TripleStore.Proofs.CanonicalOrder
import TripleStore.Proofs.Collection.Claimed
import TripleStore.Proofs.Collection.Compressible
import TripleStore.Proofs.Collection.Cycles
import TripleStore.Proofs.Collection.Phases
import TripleStore.Proofs.Collection.Registrations
import TripleStore.Proofs.Collection.Revocation
import TripleStore.Proofs.Collection.SeparateLists
import TripleStore.Proofs.Evaluation.Failing
import TripleStore.Proofs.Evaluation.Joining
import TripleStore.Proofs.Evaluation.NameKinds
import TripleStore.Proofs.Evaluation.Projections
import TripleStore.Proofs.Evaluation.Repetition
import TripleStore.Proofs.Evaluation.Rigour
import TripleStore.Proofs.Evaluation.Settings
import TripleStore.Proofs.Graph.Mentions
import TripleStore.Proofs.Loading.Loads
import TripleStore.Proofs.Turtle.Accounting
import TripleStore.Proofs.Turtle.Forest
import TripleStore.Proofs.Turtle.Limits
import TripleStore.Proofs.Turtle.RoundTrip
import TripleStore.Proofs.Turtle.SingleItems
