import Woof.Recipe
import Woof.Shelf
import Woof.Value.Equality
import Woof.Proofs.Refinement
import Woof.Proofs.RoundTrip
import Woof.Proofs.Delivery
import Woof.Proofs.Concatenation
import Woof.Proofs.Shelf
import Woof.Proofs.NestingLimit
import Woof.Proofs.Accumulation
import Woof.Proofs.Recipe
import Woof.Proofs.Escalation
import Woof.Proofs.Bounds
import Woof.Proofs.Consumption
import Woof.Proofs.Lookahead
import Woof.Proofs.Commitment
import Woof.Proofs.Relocation
import Woof.Proofs.Rereading
import Woof.Proofs.Decimal
import Woof.Proofs.Literal
import Woof.Proofs.Refusal
import Woof.Proofs.Exclusion
import Woof.Proofs.Skipping
import Woof.Proofs.Repetition
import Woof.Proofs.Parameters
