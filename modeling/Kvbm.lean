import Kvbm.Proofs.Store.Notices
import Kvbm.Proofs.Store.Races
import Kvbm.Proofs.Registry.System
import Kvbm.Proofs.Registry.Branch
import Kvbm.Proofs.Pull.Plan
import Kvbm.Proofs.Remote.Plan
import Kvbm.Proofs.Pull.Stripe
import Kvbm.Proofs.Offload.Cancel
import Kvbm.Proofs.Offload.Claims
import Kvbm.Proofs.Tiering.Fence
import Kvbm.Proofs.Tiering.Commit
import Kvbm.Proofs.Transfer.TwoHop
import Kvbm.Proofs.Transfer.Lower
import Kvbm.Proofs.Transfer.Execute
import Kvbm.Proofs.Consolidator.Holders
import Kvbm.Proofs.Hub.Tier.Order
import Kvbm.Proofs.Hub.Registration.Transactions
import Kvbm.Proofs.Connector.Fences
import Kvbm.Proofs.Connector.Save
import Kvbm.Proofs.Sequence.External
import Kvbm.Proofs.Sequence.Scheduled
