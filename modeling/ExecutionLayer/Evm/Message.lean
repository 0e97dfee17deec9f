import ExecutionLayer.Fork
import ExecutionLayer.State.Basic

/-! # Environments and messages

The environment is what all frames of a transaction share and none changes. A message is what one
frame is asked to do.
-/
namespace ExecutionLayer.Evm

structure Environment where
  fork : Fork
  caller : Address
  origin : Address
  coinbase : Address
  number : Nat
  gasLimit : Nat
  gasPrice : Nat
  time : Word
  difficulty : Nat
  prevRandao : Hash
  chainId : Nat
  baseFeePerGas : Nat
  excessBlobGas : Nat
  blockHashes : List Hash
  blobHashes : List Hash
  /-- Whether a proof shows that the committed polynomial takes the value `y` at `z`. Where no
  verifier is at hand, no proof is accepted. -/
  verifyOpening : (commitment z y proof : Bytes) → Bool := fun _ _ _ _ => false
deriving Inhabited

abbrev AddressSet := Std.ExtTreeSet Address

abbrev SlotKey := BitVec 416

instance (priority := 2000) SlotKey.transOrd : Std.TransOrd SlotKey := BitVec.instTransOrd

def slotKey (address : Address) (key : Word) : SlotKey := address ++ key

structure Message where
  caller : Address
  /-- The account called; nothing if a contract is to be created. -/
  target : Option Address
  /-- The account whose storage and balance the code acts on. -/
  currentTarget : Address
  gas : Nat
  value : Word
  data : Bytes
  codeAddress : Option Address
  code : Bytes
  depth : Nat
  shouldTransferValue : Bool
  isStatic : Bool
  accessedAddresses : AddressSet
  accessedSlots : Std.ExtTreeSet SlotKey
  /-- The accounts that frames above this one have marked for deletion. -/
  deletedAbove : AddressSet
  /-- The refunds that frames above this one have collected. -/
  refundAbove : Int

instance : Inhabited Message where
  default := {
    caller := 0, target := none, currentTarget := 0, gas := 0, value := 0
    data := ByteArray.empty, codeAddress := none, code := ByteArray.empty, depth := 0
    shouldTransferValue := true, isStatic := false, accessedAddresses := ∅, accessedSlots := ∅
    deletedAbove := ∅, refundAbove := 0 }

def depthLimit : Nat := 1024

end ExecutionLayer.Evm
