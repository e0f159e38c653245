import PunksBids.Lib.Words
import PunksBids.Lib.Checked
import PunksBids.Lib.Keccak
import PunksBids.Lib.Abi
import PunksBids.Lib.TypedData
import PunksBids.Lib.Memory
import PunksBids.Lib.Text
import PunksBids.Lib.Parts
import PunksBids.Lib.Shares
import PunksBids.Lib.OpenCalls
import PunksBids.Lib.Stretches
import PunksBids.Lib.Drift
import PunksBids.Lib.Replay
import PunksBids.Lib.OrderBook
import PunksBids.Lib.Shuffle
import PunksBids.Contract.BidStructs
import PunksBids.Contract.EIP712
import PunksBids.Contract.StringUtils
import PunksBids.Contract.World
import PunksBids.Contract.OpenZeppelin
import PunksBids.Contract.Matching
import PunksBids.Contract.Functions
import PunksBids.Contract.Steps
import PunksBids.Digest.Binding
import PunksBids.Digest.StructHash
import PunksBids.Matching.Search
import PunksBids.Matching.Equality
import PunksBids.Matching.Ordering
import PunksBids.Matching.Splitting
import PunksBids.Matching.AttributeLists
import PunksBids.Matching.Criterion
import PunksBids.Matching.Fees
import PunksBids.Matching.Cursor
import PunksBids.Matching.Verdict
import PunksBids.Runs.Basic
import PunksBids.Runs.Outcome
import PunksBids.Runs.Authority
import PunksBids.Runs.Isolation
import PunksBids.Runs.ChainSplit
import PunksBids.Runs.Batch
import PunksBids.Runs.Journal
import PunksBids.Runs.Governance
import PunksBids.Runs.OrderBook
import PunksBids.Runs.Turns
import PunksBids.Runs.Users
import PunksBids.Runs.Wallet
import PunksBids.Market.Externals
import PunksBids.Market.Settlement
import PunksBids.Market.Refinement
import PunksBids.Market.Bazaar
import PunksBids.Market.Protection
import PunksBids.Market.Solvency
import PunksBids.Market.Commutation
import PunksBids.Market.Exposure
import PunksBids.Market.Standing
import PunksBids.Market.Ledger
