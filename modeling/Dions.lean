import Dions.Verification.Index.DoubleSpend
import Dions.Verification.Alias.Ownership
import Dions.Verification.Index.Overlay
import Dions.Verification.Mempool.PendingRuns
import Dions.Verification.Wallet.Receiving
import Dions.Verification.Chain.StakeSelection
import Dions.Verification.Net.Delivery
import Dions.Verification.Script.Canonical
import Dions.Verification.Mempool.Equality
import Dions.Verification.Script.SignatureHash
import Dions.Verification.Script.Limits
import Dions.Verification.Chain.Merkle
import Dions.Verification.Mempool.Orphans
import Dions.Verification.Chain.OrphanBlocks
import Dions.Verification.Alias.RescanHeight
import Dions.Verification.Wallet.Reflection
import Dions.Verification.Alias.Posting
import Dions.Verification.Wallet.Commit
import Dions.Verification.AddrMan.Eviction
import Dions.Verification.AddrMan.Check
import Dions.Verification.AddrMan.Room
import Dions.Verification.Alias.RelayInv
import Dions.Verification.Chain.BlockImport
import Dions.Verification.Wallet.KeyPoolRuns
import Dions.Verification.Wallet.Order
import Dions.Verification.Wallet.AliasMasking
import Dions.Verification.Wallet.Groupings
import Dions.Verification.Wire.DataStream
import Dions.Verification.Chain.Locator
import Dions.Verification.Script.BigNum
import Dions.Verification.Wire.Uint256
import Dions.Verification.Chain.MoneySupply
import Dions.Verification.Wallet.Encryption
import Dions.Verification.Wallet.Messaging
import Dions.Verification.Miner.Difficulty
import Dions.Verification.Wallet.AmountText
import Dions.Verification.Net.AdjustedTime
import Dions.Verification.Net.AlertOrder
import Dions.Verification.Net.AlertPeers
import Dions.Verification.Net.UrgentAlert
