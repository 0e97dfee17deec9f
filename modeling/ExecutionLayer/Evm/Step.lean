import ExecutionLayer.Evm.Step.Compute
import ExecutionLayer.Evm.Step.Control
import ExecutionLayer.Evm.Step.Memory
import ExecutionLayer.Evm.Step.Query
import ExecutionLayer.Evm.Step.Storage

/-! # Instructions -/
namespace ExecutionLayer.Evm.Step
open Exec

def compute : Opcode → Exec Unit
  | .add => binaryTotal Gas.veryLow (· + ·)
  | .mul => binaryTotal Gas.low (· * ·)
  | .sub => binaryTotal Gas.veryLow (· - ·)
  | .div => binaryTotal Gas.low Arithmetic.div
  | .sdiv => binary Gas.low Arithmetic.sdiv
  | .mod => binaryTotal Gas.low Arithmetic.mod
  | .smod => binary Gas.low Arithmetic.smod
  | .addmod => ternary Gas.mid Arithmetic.addmod
  | .mulmod => ternary Gas.mid Arithmetic.mulmod
  | .exp => exp
  | .signextend => binaryTotal Gas.low Arithmetic.signextend
  | .lt => binaryTotal Gas.veryLow Arithmetic.lt
  | .gt => binaryTotal Gas.veryLow Arithmetic.gt
  | .slt => binaryTotal Gas.veryLow Arithmetic.slt
  | .sgt => binaryTotal Gas.veryLow Arithmetic.sgt
  | .eq => binaryTotal Gas.veryLow Arithmetic.eq
  | .iszero => unary Gas.veryLow Arithmetic.isZero
  | .and => binaryTotal Gas.veryLow (· &&& ·)
  | .or => binaryTotal Gas.veryLow (· ||| ·)
  | .xor => binaryTotal Gas.veryLow (· ^^^ ·)
  | .not => unary Gas.veryLow (~~~ ·)
  | .byte => binaryTotal Gas.veryLow Arithmetic.byte
  | .shl => binary Gas.veryLow Arithmetic.shl
  | .shr => binaryTotal Gas.veryLow Arithmetic.shr
  | .sar => binary Gas.veryLow Arithmetic.sar
  | op => halt (.invalidOpcode op.toByte)

def lookUp : Opcode → Exec Unit
  | .address => query Gas.base (return (← message).currentTarget.toWord)
  | .balance => queryAccount Gas.balance (.ok ·.balance)
  | .origin => query Gas.base (return (← read).origin.toWord)
  | .caller => query Gas.base (return (← message).caller.toWord)
  | .callvalue => query Gas.base (return (← message).value)
  | .calldataload => callDataLoad
  | .calldatasize => queryNat (return (← message).data.size)
  | .codesize => queryNat (return (← frame).code.size)
  | .gasprice => queryNat (return (← read).gasPrice)
  | .extcodesize => queryAccount Gas.external (Word.ofNat? ·.code.size)
  | .returndatasize => queryNat (return (← frame).returnData.size)
  | .extcodehash => queryAccount Gas.codeHash (.ok <| codeHash ·)
  | .blockhash => blockHash
  | .coinbase => query Gas.base (return (← read).coinbase.toWord)
  | .timestamp => query Gas.base (return (← read).time)
  | .number => queryNat (return (← read).number)
  | .difficulty => do
    if Fork.paris ≤ (← fork) then query Gas.base (return (← read).prevRandao)
    else queryNat (return (← read).difficulty)
  | .gaslimit => queryNat (return (← read).gasLimit)
  | .chainid => queryNat (return (← read).chainId)
  | .selfbalance => selfBalance
  | .basefee => queryNat (return (← read).baseFeePerGas)
  | .blobhash => blobHash
  | .blobbasefee => queryNat (return Gas.blobPrice (← read).excessBlobGas)
  | .pc => queryNat (return (← frame).pc)
  | .msize => queryNat (return (← frame).memory.size)
  | .gas => queryNat (return (← frame).gasLeft)
  | op => compute op

def move : Opcode → Exec Unit
  | .keccak => keccak
  | .calldatacopy => copy (return (← message).data)
  | .codecopy => copy (return (← frame).code)
  | .extcodecopy => copyExternalCode
  | .returndatacopy => copyReturnData
  | .pop => dropTop
  | .mload => mload
  | .mstore => mstore
  | .mstore8 => mstore8
  | .mcopy => mcopy
  | .sload => sload
  | .sstore => sstore
  | .tload => tload
  | .tstore => tstore
  | .push n => pushImmediate n
  | .dup n => dup n
  | .swap n => swap n
  | .log n => log n
  | op => lookUp op

def executeAlone : Opcode → Exec Unit
  | .stop => stop
  | .jump => jump
  | .jumpi => jumpi
  | .jumpdest => jumpdest
  | .ret => ret
  | .revert => revert
  | .selfdestruct => selfdestruct
  | op => move op

def execute : Opcode → Exec (Option Pending)
  | .create => create
  | .call => call
  | .callcode => callcode
  | .delegatecall => delegatecall
  | .create2 => create2
  | .staticcall => staticcall
  | op => do
    executeAlone op
    return none

end ExecutionLayer.Evm.Step
