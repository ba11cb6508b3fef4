import Webthree.Lib.BigEndian
import Webthree.Lib.EState
import Webthree.Rlp.Item
import Webthree.Rlp.Reader
import Webthree.Rlp.Stream
import Webthree.Lemmas.RlpReader
import Webthree.Lemmas.RlpTree
import Webthree.Theorems.RlpAccess
import Webthree.Lib.Ledger
import Webthree.Evm.Vm
import Webthree.Evm.Executive
import Webthree.Lemmas.VmRun
import Webthree.Lemmas.State
import Webthree.Lemmas.Executive
import Webthree.Theorems.Vm
import Webthree.Theorems.Executive
import Webthree.Theorems.Trie
import Webthree.Theorems.TransactionQueue
import Webthree.Theorems.Block
import Webthree.Theorems.BlockChain
import Webthree.Theorems.BlockQueue
import Webthree.Theorems.NodeTable
import Webthree.Theorems.Optimise
import Webthree.Theorems.Assembly
import Webthree.Asm.ExpressionClasses
import Webthree.Evm.Arithmetic
import Webthree.Lemmas.ExpressionClasses
import Webthree.Lemmas.ExpressionValues
import Webthree.Lemmas.FindLevels
import Webthree.Theorems.ExpressionClasses
import Webthree.Client.ClientBase
import Webthree.Core.HeaderRLP
import Webthree.Core.TransactionBase
import Webthree.Lemmas.BloomFilter
import Webthree.Lemmas.ClientBase
import Webthree.Lemmas.Envelope
import Webthree.Lemmas.HeaderRLP
import Webthree.Lemmas.LogFilter
import Webthree.Lemmas.TransactionBase
import Webthree.Lemmas.WhisperQueue
import Webthree.Theorems.BlockHeader
import Webthree.Theorems.ClientBase
import Webthree.Theorems.TransactionBase
import Webthree.Theorems.WhisperHost
import Webthree.Theorems.Iban
import Webthree.Theorems.SolidityCoder
import Webthree.Theorems.ChainQueries
import Webthree.Theorems.BlockSync
import Webthree.Theorems.ChunkMap
import Webthree.Theorems.ConstantOptimiser
import Webthree.Theorems.NodeBuckets
import Webthree.Theorems.Append
import Webthree.Theorems.RLPXFrameWriter
import Webthree.Theorems.RLPXFrameReader
import Webthree.Theorems.KnownState
import Webthree.Theorems.KnownTrace
import Webthree.Theorems.StorageOffsets
import Webthree.Theorems.RangeMask
import Webthree.Theorems.NearestNodes
import Webthree.Theorems.VmJumps
import Webthree.Theorems.Elhash
import Webthree.Theorems.Linearization
import Webthree.Theorems.RationalNumber
import Webthree.Theorems.Base58
import Webthree.Theorems.HexPrefix
