import Memero.Basic.Amounts
import Memero.Basic.MerkleRoot
import Memero.Blockchain.AltTimestamps
import Memero.Crypto.SignedData
import Memero.Miner.Worker
import Memero.Net.Bans
import Memero.Net.PeerLists
import Memero.Net.Segmentation
import Memero.Net.StorageRoundTrip
import Memero.Node.Distribution
import Memero.Node.KeyImages
import Memero.Node.Locks
import Memero.Node.Lwma
import Memero.Node.Reached
import Memero.Node.Rejected
import Memero.Node.WriteRuns
import Memero.Rpc.GetTransactions
import Memero.Wallet.Address
import Memero.Wallet.GammaPicker
import Memero.Wallet.GenuineSeeds
import Memero.Wallet.Reorganisation
