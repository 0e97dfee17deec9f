import ExecutionLayer.AltBn128.Operand
import ExecutionLayer.Proofs.AltBn128.Embedding
import ExecutionLayer.Proofs.Block.Receipts
import ExecutionLayer.Proofs.Block.Records
import ExecutionLayer.Proofs.Chain.Boundary
import ExecutionLayer.Proofs.Chain.Ownership
import ExecutionLayer.Proofs.Evm.Compression
import ExecutionLayer.Proofs.Evm.CurveMultiple
import ExecutionLayer.Proofs.Evm.Discipline
import ExecutionLayer.Proofs.Evm.Exponentiation
import ExecutionLayer.Proofs.Evm.Static
import ExecutionLayer.Proofs.Evm.Tracing
import ExecutionLayer.Proofs.Evm.TwosComplement
import ExecutionLayer.Proofs.Genesis
import ExecutionLayer.Proofs.Integer
import ExecutionLayer.Proofs.Numeric
import ExecutionLayer.Proofs.Rlp.Joined
import ExecutionLayer.Proofs.State.Copies
import ExecutionLayer.Proofs.Transaction.Destructions
import ExecutionLayer.Proofs.Transaction.Malleability
import ExecutionLayer.Proofs.Transaction.Signing
import ExecutionLayer.Proofs.Trie.Canonical
import ExecutionLayer.Trie.Session
