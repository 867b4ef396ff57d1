import MeteredMap.Arena.Lemmas
import MeteredMap.Comparator.Orders
import MeteredMap.Proofs.Accounting
import MeteredMap.Proofs.Arena.Foretelling
import MeteredMap.Proofs.Calls.Pools
import MeteredMap.Proofs.Capacity
import MeteredMap.Proofs.Clones
import MeteredMap.Proofs.Deque
import MeteredMap.Proofs.Dictionary.Refinement
import MeteredMap.Proofs.Equality
import MeteredMap.Proofs.Failure
import MeteredMap.Proofs.Lockstep
import MeteredMap.Proofs.Nesting
import MeteredMap.Proofs.Restart
import MeteredMap.Proofs.Ring.Turns
import MeteredMap.Proofs.Tree.Cloning
import MeteredMap.Proofs.Tree.Height
import MeteredMap.Proofs.Tree.Inversion
import MeteredMap.Proofs.Tree.Outline
import MeteredMap.Proofs.Tree.Placing
import MeteredMap.Proofs.Tree.RedBlack
import MeteredMap.Proofs.Verdict
import MeteredMap.Session.Blocks
import MeteredMap.Session.OneTree
import MeteredMap.Session.Pool
import MeteredMap.Session.Slots
