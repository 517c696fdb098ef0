import Litecoin.Wire.Emission
import Litecoin.Wire.Endian
import Litecoin.Wire.Record
import Litecoin.Consensus.Encode
import Litecoin.Consensus.Format
import Litecoin.Mimblewimble.Varint
import Litecoin.Mimblewimble.VarintWords
import Litecoin.Crypto.Secp256k1
import Litecoin.Mimblewimble.Codec
import Litecoin.Mimblewimble.Format
import Litecoin.Mimblewimble.Exactness
import Litecoin.Mimblewimble.Coherence
import Litecoin.Blockdata.Transaction
import Litecoin.Blockdata.TransactionFormat
import Litecoin.Blockdata.TransactionExactness
import Litecoin.Blockdata.Block
import Litecoin.Blockdata.BlockExactness
import Litecoin.Tree.Levels
import Litecoin.Tree.Pruned
import Litecoin.MerkleTree.Block
import Litecoin.MerkleTree.Roots
import Litecoin.Wire.Run
import Litecoin.Wire.Indexed
import Litecoin.Crypto.Key
import Litecoin.Bip32
import Litecoin.Crypto.Hashes
import Litecoin.Taproot.Builder
import Litecoin.Taproot.Rebuild
import Litecoin.Psbt.Raw
import Litecoin.Psbt.RawFormat
import Litecoin.Psbt.Serialize
import Litecoin.Psbt.Stability
import Litecoin.Psbt.Mweb
import Litecoin.Psbt.MwebFormat
import Litecoin.Psbt.Map
import Litecoin.Psbt.MapFormat
import Litecoin.Psbt.Global
import Litecoin.Psbt.GlobalFormat
import Litecoin.Psbt.Layout
import Litecoin.Psbt.Growth
import Litecoin.Psbt.Reserialize
import Litecoin.Psbt.Duplicates
import Litecoin.MerkleTree.Extraction
import Litecoin.MerkleTree.Completeness
import Litecoin.Pow.U256
import Litecoin.Pow.Arithmetic
import Litecoin.Pow.Target
import Litecoin.Pow.Retarget
import Litecoin.Script.Instruction
import Litecoin.Script.RoundTrip
import Litecoin.Bip32.Derivation
import Litecoin.Blockdata.WitnessStack
import Litecoin.Psbt.Combine
import Litecoin.Psbt.CombineKeys
import Litecoin.Psbt.CombineOrder
import Litecoin.Wire.Outcome
import Litecoin.Psbt.Extract
import Litecoin.Psbt.Broadcast
import Litecoin.Bip32.Codec
import Litecoin.Crypto.Sighash
import Litecoin.Crypto.SighashLegacy
import Litecoin.Crypto.SighashTransparency
import Litecoin.Crypto.SighashBinding
import Litecoin.Taproot.SpendInfo
import Litecoin.Tree.Walk
import Litecoin.Taproot.Commitment
import Litecoin.Taproot.Serde
import Litecoin.Crypto.SipHash
import Litecoin.Wire.Bits
import Litecoin.Bip158
import Litecoin.Bip158.BitStream
import Litecoin.Wire.Scan
import Litecoin.Bip158.Matching
import Litecoin.Bip152
import Litecoin.Bip152.Reconstruction
import Litecoin.Base58
import Litecoin.Base58.RoundTrip
import Litecoin.Address
import Litecoin.Address.OutputScript
import Litecoin.Bech32
import Litecoin.Address.Text
import Litecoin.Address.Canonical
import Litecoin.Bech32.Bip173
import Litecoin.Units.Amount
import Litecoin.Units.RoundTrip
import Litecoin.Crypto.Engine
import Litecoin.Crypto.Streaming
import Litecoin.Tree.Binding
import Litecoin.MerkleTree.Binding
import Litecoin.Consensus.Framing
import Litecoin.P2p.Address
import Litecoin.P2p.Network
import Litecoin.Blockdata.Rewriting
import Litecoin.P2p.Inventory
import Litecoin.P2p.CompactBlocks
import Litecoin.P2p.Message
import Litecoin.P2p.Frame
import Litecoin.P2p.RoundTrip
import Litecoin.P2p.Relay
import Litecoin.Pow.Compact
import Litecoin.Psbt.CombineXpubs
import Litecoin.Pow.Epoch
import Litecoin.Blockdata.Sizes
import Litecoin.Blockdata.WeightPrediction
import Litecoin.Psbt.KernelMap
import Litecoin.Psbt.Funding
import Litecoin.Psbt.Spending
import Litecoin.Psbt.Sign
import Litecoin.Psbt.SignBlind
import Litecoin.Psbt.SignFrame
import Litecoin.Psbt.SignSteps
import Litecoin.Psbt.SignAgain
import Litecoin.Psbt.SignLoop
import Litecoin.Pow.Multiplication
import Litecoin.Pow.Inverse
import Litecoin.Pow.Division
import Litecoin.Units.Parse
import Litecoin.Pow.Hex
import Litecoin.Script.Indices
import Litecoin.Script.Multisig
import Litecoin.Script.Sigops
import Litecoin.Blockdata.SigopCost
import Litecoin.Script.Number
import Litecoin.Bip32.Path
import Litecoin.Script.Verify
import Litecoin.Psbt.SighashChecks
import Litecoin.Units.Relative
import Litecoin.Units.FeeRate
import Litecoin.Address.Matches
import Litecoin.Crypto.Wif
import Litecoin.P2p.Indexes
import Litecoin.Wire.Rice
import Litecoin.Bip158.Untrusted
import Litecoin.Bip158.Overflow
import Litecoin.Units.Accepted
import Litecoin.Units.Numerals
import Litecoin.Tree.Huffman
import Litecoin.Units.Printing
import Litecoin.Wire.Heap
import Litecoin.Taproot.Huffman
import Litecoin.P2p.AddressFamilies
import Litecoin.Taproot.ControlBlock
import Litecoin.Blockdata.Height
import Litecoin.Internals.ArrayVec
import Litecoin.Crypto.SerializedSignature
import Litecoin.Crypto.SipHashEngine
import Litecoin.Crypto.ConstHash
import Litecoin.Script.Assembly
import Litecoin.Io.FiniteSource
import Litecoin.Wire.Loop
import Litecoin.Io.InMemory
import Litecoin.Consensus.FiniteReader
import Litecoin.Wire.Program
import Litecoin.Io.Source
import Litecoin.Consensus.Programs
import Litecoin.Consensus.IterReader
import Litecoin.Consensus.Serde
import Litecoin.Blockdata.Streaming
import Litecoin.Psbt.Providers
import Litecoin.Psbt.SignKeys
import Litecoin.Psbt.SignFiled
import Litecoin.Psbt.SignNamed
import Litecoin.Psbt.Circulation
import Litecoin.Wire.Chain
import Litecoin.Bip158.BlockFilter
import Litecoin.MerkleTree.WitnessCommitment
import Litecoin.Crypto.HashTypes
import Litecoin.Crypto.CrateHashes
import Litecoin.Io.Cut
import Litecoin.P2p.Connection
