import Lethean.CryptonoteBasic.CheckHash
import Lethean.CryptonoteBasic.Lwma3
import Lethean.CryptonoteBasic.LegacyDifficulty
import Lethean.CryptonoteBasic.TreeHash
import Lethean.CryptonoteBasic.ContainerGrowth
import Lethean.BlockchainDb.LmdbRuns
import Lethean.CryptonoteCore.PoolRestart
import Lethean.CryptonoteCore.RejectedBlock
import Lethean.CryptonoteCore.HeaviestChain
import Lethean.CryptonoteCore.EnforceCheckpoints
import Lethean.CryptonoteCore.PrecomputedPow
import Lethean.CryptonoteCore.Premine
import Lethean.CryptonoteCore.RewardPenalty
import Lethean.CryptonoteCore.TxSemantic
import Lethean.Crypto.RingSignature
import Lethean.CryptonoteCore.SwapTx
import Lethean.CryptonoteCore.ChainSync
import Lethean.CryptonoteCore.DynamicFee
import Lethean.P2p.Peerlist
import Lethean.P2p.Levin
import Lethean.Rpc.GetBlockTemplate
import Lethean.CryptonoteProtocol.ResponseObjects
import Lethean.Wallet.ScanThreads
import Lethean.Wallet.HeightByDate
import Lethean.Wallet.ImportMaps
import Lethean.Wallet.Burnt
import Lethean.Wallet.FreshScan
import Lethean.Wallet.Sweep
import Lethean.Wallet.PaymentsAddUp
import Lethean.Wallet.Uri
import Lethean.Mnemonics.ElectrumWords
