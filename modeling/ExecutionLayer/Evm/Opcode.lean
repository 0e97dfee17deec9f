import ExecutionLayer.Fork

/-! # Opcodes -/
namespace ExecutionLayer.Evm

inductive Opcode where
  | stop | add | mul | sub | div | sdiv | mod | smod | addmod | mulmod | exp | signextend
  | lt | gt | slt | sgt | eq | iszero | and | or | xor | not | byte | shl | shr | sar
  | keccak
  | address | balance | origin | caller | callvalue | calldataload | calldatasize | calldatacopy
  | codesize | codecopy | gasprice | extcodesize | extcodecopy | returndatasize | returndatacopy
  | extcodehash
  | blockhash | coinbase | timestamp | number
  /-- The difficulty of the block, and later its random value. -/
  | difficulty
  | gaslimit | chainid | selfbalance | basefee | blobhash | blobbasefee
  | pop | mload | mstore | mstore8 | sload | sstore | jump | jumpi | pc | msize | gas | jumpdest
  | tload | tstore | mcopy
  | push (size : Fin 33)
  /-- Duplicates the entry that lies below the given number of others. -/
  | dup (depth : Fin 16)
  /-- Exchanges the top with the entry that lies below it and the given number of others. -/
  | swap (depth : Fin 16)
  | log (topics : Fin 5)
  | create | call | callcode | ret | delegatecall | create2 | staticcall | revert | selfdestruct
deriving DecidableEq, Repr, Inhabited

namespace Opcode

def ofByte? (b : UInt8) : Option Opcode :=
  match b.toNat with
  | 0x00 => some stop
  | 0x01 => some add
  | 0x02 => some mul
  | 0x03 => some sub
  | 0x04 => some div
  | 0x05 => some sdiv
  | 0x06 => some mod
  | 0x07 => some smod
  | 0x08 => some addmod
  | 0x09 => some mulmod
  | 0x0a => some exp
  | 0x0b => some signextend
  | 0x10 => some lt
  | 0x11 => some gt
  | 0x12 => some slt
  | 0x13 => some sgt
  | 0x14 => some eq
  | 0x15 => some iszero
  | 0x16 => some and
  | 0x17 => some or
  | 0x18 => some xor
  | 0x19 => some not
  | 0x1a => some byte
  | 0x1b => some shl
  | 0x1c => some shr
  | 0x1d => some sar
  | 0x20 => some keccak
  | 0x30 => some address
  | 0x31 => some balance
  | 0x32 => some origin
  | 0x33 => some caller
  | 0x34 => some callvalue
  | 0x35 => some calldataload
  | 0x36 => some calldatasize
  | 0x37 => some calldatacopy
  | 0x38 => some codesize
  | 0x39 => some codecopy
  | 0x3a => some gasprice
  | 0x3b => some extcodesize
  | 0x3c => some extcodecopy
  | 0x3d => some returndatasize
  | 0x3e => some returndatacopy
  | 0x3f => some extcodehash
  | 0x40 => some blockhash
  | 0x41 => some coinbase
  | 0x42 => some timestamp
  | 0x43 => some number
  | 0x44 => some difficulty
  | 0x45 => some gaslimit
  | 0x46 => some chainid
  | 0x47 => some selfbalance
  | 0x48 => some basefee
  | 0x49 => some blobhash
  | 0x4a => some blobbasefee
  | 0x50 => some pop
  | 0x51 => some mload
  | 0x52 => some mstore
  | 0x53 => some mstore8
  | 0x54 => some sload
  | 0x55 => some sstore
  | 0x56 => some jump
  | 0x57 => some jumpi
  | 0x58 => some pc
  | 0x59 => some msize
  | 0x5a => some gas
  | 0x5b => some jumpdest
  | 0x5c => some tload
  | 0x5d => some tstore
  | 0x5e => some mcopy
  | 0xf0 => some create
  | 0xf1 => some call
  | 0xf2 => some callcode
  | 0xf3 => some ret
  | 0xf4 => some delegatecall
  | 0xf5 => some create2
  | 0xfa => some staticcall
  | 0xfd => some revert
  | 0xff => some selfdestruct
  | n =>
    if n < 0x5f then none
    else if h : n - 0x5f < 33 then some (push ⟨n - 0x5f, h⟩)
    else if h : n - 0x80 < 16 then some (dup ⟨n - 0x80, h⟩)
    else if h : n - 0x90 < 16 then some (swap ⟨n - 0x90, h⟩)
    else if h : n - 0xa0 < 5 then some (log ⟨n - 0xa0, h⟩)
    else none

def since : Opcode → Fork
  | delegatecall => .homestead
  | returndatasize | returndatacopy | staticcall | revert => .byzantium
  | shl | shr | sar | extcodehash | create2 => .constantinople
  | chainid | selfbalance => .istanbul
  | basefee => .london
  | push 0 => .shanghai
  | blobhash | blobbasefee | tload | tstore | mcopy => .cancun
  | _ => .frontier

def decode (fork : Fork) (b : UInt8) : Option Opcode :=
  match ofByte? b with
  | some op => if op.since ≤ fork then some op else none
  | none => none

def toByte : Opcode → UInt8
  | stop => 0x00
  | add => 0x01
  | mul => 0x02
  | sub => 0x03
  | div => 0x04
  | sdiv => 0x05
  | mod => 0x06
  | smod => 0x07
  | addmod => 0x08
  | mulmod => 0x09
  | exp => 0x0a
  | signextend => 0x0b
  | lt => 0x10
  | gt => 0x11
  | slt => 0x12
  | sgt => 0x13
  | eq => 0x14
  | iszero => 0x15
  | and => 0x16
  | or => 0x17
  | xor => 0x18
  | not => 0x19
  | byte => 0x1a
  | shl => 0x1b
  | shr => 0x1c
  | sar => 0x1d
  | keccak => 0x20
  | address => 0x30
  | balance => 0x31
  | origin => 0x32
  | caller => 0x33
  | callvalue => 0x34
  | calldataload => 0x35
  | calldatasize => 0x36
  | calldatacopy => 0x37
  | codesize => 0x38
  | codecopy => 0x39
  | gasprice => 0x3a
  | extcodesize => 0x3b
  | extcodecopy => 0x3c
  | returndatasize => 0x3d
  | returndatacopy => 0x3e
  | extcodehash => 0x3f
  | blockhash => 0x40
  | coinbase => 0x41
  | timestamp => 0x42
  | number => 0x43
  | difficulty => 0x44
  | gaslimit => 0x45
  | chainid => 0x46
  | selfbalance => 0x47
  | basefee => 0x48
  | blobhash => 0x49
  | blobbasefee => 0x4a
  | pop => 0x50
  | mload => 0x51
  | mstore => 0x52
  | mstore8 => 0x53
  | sload => 0x54
  | sstore => 0x55
  | jump => 0x56
  | jumpi => 0x57
  | pc => 0x58
  | msize => 0x59
  | gas => 0x5a
  | jumpdest => 0x5b
  | tload => 0x5c
  | tstore => 0x5d
  | mcopy => 0x5e
  | push n => (0x5f + n.val).toUInt8
  | dup n => (0x80 + n.val).toUInt8
  | swap n => (0x90 + n.val).toUInt8
  | log n => (0xa0 + n.val).toUInt8
  | create => 0xf0
  | call => 0xf1
  | callcode => 0xf2
  | ret => 0xf3
  | delegatecall => 0xf4
  | create2 => 0xf5
  | staticcall => 0xfa
  | revert => 0xfd
  | selfdestruct => 0xff

/-- The name of an instruction, which for one of them depends on the fork. -/
def name (fork : Fork) : Opcode → String
  | stop => "STOP"
  | add => "ADD"
  | mul => "MUL"
  | sub => "SUB"
  | div => "DIV"
  | sdiv => "SDIV"
  | mod => "MOD"
  | smod => "SMOD"
  | addmod => "ADDMOD"
  | mulmod => "MULMOD"
  | exp => "EXP"
  | signextend => "SIGNEXTEND"
  | lt => "LT"
  | gt => "GT"
  | slt => "SLT"
  | sgt => "SGT"
  | eq => "EQ"
  | iszero => "ISZERO"
  | and => "AND"
  | or => "OR"
  | xor => "XOR"
  | not => "NOT"
  | byte => "BYTE"
  | shl => "SHL"
  | shr => "SHR"
  | sar => "SAR"
  | keccak => "KECCAK"
  | address => "ADDRESS"
  | balance => "BALANCE"
  | origin => "ORIGIN"
  | caller => "CALLER"
  | callvalue => "CALLVALUE"
  | calldataload => "CALLDATALOAD"
  | calldatasize => "CALLDATASIZE"
  | calldatacopy => "CALLDATACOPY"
  | codesize => "CODESIZE"
  | codecopy => "CODECOPY"
  | gasprice => "GASPRICE"
  | extcodesize => "EXTCODESIZE"
  | extcodecopy => "EXTCODECOPY"
  | returndatasize => "RETURNDATASIZE"
  | returndatacopy => "RETURNDATACOPY"
  | extcodehash => "EXTCODEHASH"
  | blockhash => "BLOCKHASH"
  | coinbase => "COINBASE"
  | timestamp => "TIMESTAMP"
  | number => "NUMBER"
  | difficulty => if Fork.paris ≤ fork then "PREVRANDAO" else "DIFFICULTY"
  | gaslimit => "GASLIMIT"
  | chainid => "CHAINID"
  | selfbalance => "SELFBALANCE"
  | basefee => "BASEFEE"
  | blobhash => "BLOBHASH"
  | blobbasefee => "BLOBBASEFEE"
  | pop => "POP"
  | mload => "MLOAD"
  | mstore => "MSTORE"
  | mstore8 => "MSTORE8"
  | sload => "SLOAD"
  | sstore => "SSTORE"
  | jump => "JUMP"
  | jumpi => "JUMPI"
  | pc => "PC"
  | msize => "MSIZE"
  | gas => "GAS"
  | jumpdest => "JUMPDEST"
  | tload => "TLOAD"
  | tstore => "TSTORE"
  | mcopy => "MCOPY"
  | push n => s!"PUSH{n.val}"
  | dup n => s!"DUP{n.val + 1}"
  | swap n => s!"SWAP{n.val + 1}"
  | log n => s!"LOG{n.val}"
  | create => "CREATE"
  | call => "CALL"
  | callcode => "CALLCODE"
  | ret => "RETURN"
  | delegatecall => "DELEGATECALL"
  | create2 => "CREATE2"
  | staticcall => "STATICCALL"
  | revert => "REVERT"
  | selfdestruct => "SELFDESTRUCT"

end Opcode

end ExecutionLayer.Evm
