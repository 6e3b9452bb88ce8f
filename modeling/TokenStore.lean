import TokenStore.Proofs.Appending
import TokenStore.Proofs.Atomicity
import TokenStore.Proofs.Closed
import TokenStore.Proofs.Commute
import TokenStore.Proofs.Condensed
import TokenStore.Proofs.Deposits
import TokenStore.Proofs.Elision
import TokenStore.Proofs.Forgetting
import TokenStore.Proofs.LeafPaths
import TokenStore.Proofs.Listing
import TokenStore.Proofs.Locality
import TokenStore.Proofs.Navigation
import TokenStore.Proofs.Permanence
import TokenStore.Proofs.Picks
import TokenStore.Proofs.Readings
import TokenStore.Proofs.Rereading
import TokenStore.Proofs.Scalars
import TokenStore.Proofs.Sweeping
import TokenStore.Proofs.TagTable
