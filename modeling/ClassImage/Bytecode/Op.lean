import ClassImage.Bytecode.Form

/-!
# Decoded operations

An operation with its operands in one canonical spelling: the local variable is always explicit,
the `wide` marker and the long and short spellings of jumps and constant loads are gone, and jump
targets are offsets into the code rather than distances.
-/

namespace ClassImage.Bytecode

/-- The spellings that push an int. -/
inductive PushForm where
  | implicit
  | byte
  | short
deriving DecidableEq, Repr

/-- Ways to call a method, with the operands that only some of them have. -/
inductive Call where
  | virtual
  | special
  | static
  | interface (count : UInt8)
deriving DecidableEq, Repr

/-- The way to call without its operands. -/
def Call.invocation : Call → Invocation
  | virtual => .virtual
  | special => .special
  | static => .static
  | interface _ => .interface

/-- A decoded operation. Slots of constants are indices into the constant pool. -/
inductive Op where
  | plain (op : Plain)
  | pushInt (form : PushForm) (value : Int32)
  | load (isWide : Bool) (index : UInt16)
  | localVar (op : LocalOperation) (slot : UInt16)
  | increment (slot : UInt16) (amount : Int16)
  | branch (jump : Jump) (target : Nat)
  | tableSwitch (default : Nat) (low : Int32) (targets : List Nat)
  | lookupSwitch (default : Nat) (cases : List (Int32 × Nat))
  | field (access : FieldAccess) (index : UInt16)
  | invoke (call : Call) (index : UInt16)
  | invokeDynamic (index : UInt16)
  | onClass (op : ClassOperation) (index : UInt16)
  | newArray (elementType : UInt8)
  | newMultiArray (index : UInt16) (dimensions : UInt8)
deriving DecidableEq, Repr

namespace Op

/-- The form of the canonical spelling of an operation. -/
def form : Op → Form
  | plain op => .plain op
  | pushInt .implicit value => .intConst value
  | pushInt .byte _ => .bytePush
  | pushInt .short _ => .shortPush
  | load isWide _ => .load isWide
  | localVar op _ => .localVar op
  | increment .. => .increment
  | branch jump _ => .branch jump
  | tableSwitch .. => .tableSwitch
  | lookupSwitch .. => .lookupSwitch
  | field access _ => .field access
  | invoke call _ => .invoke call.invocation
  | invokeDynamic _ => .invokeDynamic
  | onClass op _ => .onClass op
  | newArray _ => .newArray
  | newMultiArray .. => .newMultiArray

/-- The opcode of the canonical spelling of an operation. -/
def opcode (op : Op) : UInt8 := op.form.opcode

/-- The name of the canonical spelling of an operation. -/
def name (op : Op) : String := op.form.name

/-- All offsets at which an operation can continue by a jump; the default of a switch comes
first. -/
def jumpTargets : Op → List Nat
  | branch _ target => [target]
  | tableSwitch default _ targets => default :: targets
  | lookupSwitch default cases => default :: cases.map Prod.snd
  | _ => []

/-- The operands of an operation in a listing, each after a blank. -/
def operandText : Op → String
  | plain _ | pushInt .implicit _ => ""
  | pushInt .byte value | pushInt .short value => s!" {value.toInt}"
  | load _ index | field _ index | invokeDynamic index | onClass _ index => s!" #{index.toNat}"
  | invoke (.interface count) index => s!" #{index.toNat} {count.toNat}"
  | invoke _ index => s!" #{index.toNat}"
  | localVar _ slot => s!" {slot.toNat}"
  | increment slot amount => s!" {slot.toNat} {amount.toInt}"
  | branch _ target => s!" @{target}"
  | tableSwitch default low targets =>
    s!" low={low.toInt} default=@{default}" ++
      String.join (targets.map fun target => s!" @{target}")
  | lookupSwitch default cases =>
    s!" default=@{default}" ++
      String.join (cases.map fun (key, target) => s!" {key.toInt}:@{target}")
  | newArray elementType => s!" {elementType.toNat}"
  | newMultiArray index dimensions => s!" #{index.toNat} {dimensions.toNat}"

/-- An operation in a listing. -/
def text (op : Op) : String := op.name ++ op.operandText

end Op

end ClassImage.Bytecode
