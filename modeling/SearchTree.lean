import SearchTree.Key
import SearchTree.Double
import SearchTree.Map.Command
import SearchTree.Map.Shown
import SearchTree.Tree.Ordered
import SearchTree.Proofs.Place
import SearchTree.Proofs.Deletion
import SearchTree.Proofs.Copy
import SearchTree.Proofs.Conservation
import SearchTree.Proofs.Order
import SearchTree.Proofs.CoarseQuery
import SearchTree.Proofs.Ledger
import SearchTree.Proofs.Contents
import SearchTree.Proofs.Congruence
import SearchTree.Proofs.Rebuild
import SearchTree.Proofs.Log
import SearchTree.Proofs.ParentWalk
import SearchTree.Proofs.Reshape
import SearchTree.Proofs.Refusal
import SearchTree.Proofs.Parentage
import SearchTree.Proofs.Assembly
import SearchTree.Proofs.NewLeaf
import SearchTree.Proofs.Undo
import SearchTree.Proofs.Bulk
import SearchTree.Proofs.Drain
import SearchTree.Proofs.Depth
import SearchTree.Proofs.Iteration
import SearchTree.Proofs.Overwrite
import SearchTree.Proofs.Checks
