import ExecutionLayer.Crypto.Keccak
import ExecutionLayer.Rlp.Item

/-! # Addresses of contracts -/
namespace ExecutionLayer

def contractAddress (creator : Address) (nonce : Nat) : Address :=
  Word.toAddress (keccak256 (Rlp.encodeToBytes (.list [.ofFixed creator, .ofNat nonce])))

def saltedContractAddress (creator : Address) (salt : Word) (initCode : Bytes) : Address :=
  Word.toAddress <| keccak256 <|
    Bytes.ofList [0xff] ++ fixedBytes creator ++ fixedBytes salt ++ keccak256Bytes initCode

end ExecutionLayer
