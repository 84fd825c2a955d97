import ConstArray.Array.Build
import ConstArray.Array.Compare
import ConstArray.Array.Consume
import ConstArray.Array.Convert
import ConstArray.Array.InPlace
import ConstArray.Array.Lockstep
import ConstArray.Array.Overflow
import ConstArray.Array.Regroup
import ConstArray.Array.Total
import ConstArray.Array.Traversal
import ConstArray.Array.Truncate
import ConstArray.Array.TryFromIter
import ConstArray.Crypto.Batch
import ConstArray.Crypto.Channel
import ConstArray.Crypto.EncryptThenMac
import ConstArray.Crypto.Fake
import ConstArray.Crypto.Hkdf
import ConstArray.Crypto.Hmac
import ConstArray.Crypto.HybridKem
import ConstArray.Crypto.Lamport
import ConstArray.Crypto.Nonces
import ConstArray.Crypto.Session
import ConstArray.Crypto.Signature
import ConstArray.Crypto.Traits
import ConstArray.Crypto.Truncated
import ConstArray.Foundation.Absorb
import ConstArray.Foundation.Consume
import ConstArray.Foundation.Deque
import ConstArray.Foundation.Digits
import ConstArray.Foundation.Generator
import ConstArray.Foundation.InPlace
import ConstArray.Foundation.Layout
import ConstArray.Foundation.Lexicographic
import ConstArray.Foundation.Memory
import ConstArray.Foundation.OrderedChannel
import ConstArray.Foundation.Ownership
import ConstArray.Foundation.PositiveRig
import ConstArray.Foundation.Postcondition
import ConstArray.Foundation.Simulation
import ConstArray.Foundation.SliceLoop
import ConstArray.Foundation.Traverse
import ConstArray.Foundation.Unwind
import ConstArray.Foundation.Usize
import ConstArray.Foundation.Window
import ConstArray.Iter.Conserve
import ConstArray.Iter.Deque
import ConstArray.Iter.IntoIter
import ConstArray.Iter.Refinement
import ConstArray.Iter.Run
import ConstArray.Owner.InPlace
import ConstArray.Owner.Operation
import ConstArray.Owner.Run
import ConstArray.Owner.World
import ConstArray.Size.Basic
import ConstArray.Size.Completeness
import ConstArray.Size.Debug
import ConstArray.Size.Proof
import ConstArray.Size.Soundness
import ConstArray.Storage.Layout
import ConstArray.Storage.Value
import ConstArray.View.Chain
import ConstArray.View.Checked
import ConstArray.View.Chunks
import ConstArray.View.Owned
import ConstArray.View.Slice
