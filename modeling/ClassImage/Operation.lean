/-!
# Operations common to both instruction sets

The stack machine of the class file and the target machine share most of their operations and
differ in how they write them down. This module names the shared operations once; each
instruction set then says which bytes and which mnemonic stand for them.

Every enumeration here comes with the list of its members in the order both instruction sets
number them, and most with the place of a member in that list.
-/

namespace ClassImage

/-- The kinds of value that a local variable or a stack slot can hold. -/
inductive ValueKind where
  | int | long | float | double | ref
deriving DecidableEq, Repr

namespace ValueKind

def all : List ValueKind := [int, long, float, double, ref]

/-- The place of a kind in `all`. -/
def code : ValueKind → UInt8
  | int => 0 | long => 1 | float => 2 | double => 3 | ref => 4

/-- The letter that marks a kind in mnemonics. -/
def letter : ValueKind → String
  | int => "i" | long => "l" | float => "f" | double => "d" | ref => "a"

end ValueKind

/-- The kinds of number that arithmetic works on. -/
inductive NumberKind where
  | int | long | float | double
deriving DecidableEq, Repr

namespace NumberKind

def all : List NumberKind := [int, long, float, double]

/-- The place of a kind in `all`. -/
def code : NumberKind → UInt8
  | int => 0 | long => 1 | float => 2 | double => 3

/-- The letter that marks a kind in mnemonics. -/
def letter : NumberKind → String
  | int => "i" | long => "l" | float => "f" | double => "d"

end NumberKind

/-- The kinds of number whose bits can be combined and shifted. -/
inductive WordKind where
  | int | long
deriving DecidableEq, Repr

namespace WordKind

def all : List WordKind := [int, long]

/-- The place of a kind in `all`. -/
def code : WordKind → UInt8
  | int => 0 | long => 1

/-- The letter that marks a kind in mnemonics. -/
def letter : WordKind → String
  | int => "i" | long => "l"

end WordKind

/-- The kinds of array element. -/
inductive ElementKind where
  | int | long | float | double | ref | byte | char | short
deriving DecidableEq, Repr

namespace ElementKind

def all : List ElementKind := [int, long, float, double, ref, byte, char, short]

/-- The place of a kind in `all`. -/
def code : ElementKind → UInt8
  | int => 0 | long => 1 | float => 2 | double => 3 | ref => 4 | byte => 5 | char => 6 | short => 7

/-- The letter that marks a kind in mnemonics. -/
def letter : ElementKind → String
  | int => "i" | long => "l" | float => "f" | double => "d" | ref => "a" | byte => "b"
  | char => "c" | short => "s"

end ElementKind

/-- Arithmetic on numbers of one kind. -/
inductive Arithmetic where
  | add | sub | mul | div | rem | neg
deriving DecidableEq, Repr

namespace Arithmetic

def all : List Arithmetic := [add, sub, mul, div, rem, neg]

/-- The place of an operation in `all`. -/
def code : Arithmetic → UInt8
  | add => 0 | sub => 1 | mul => 2 | div => 3 | rem => 4 | neg => 5

def mnemonic : Arithmetic → String
  | add => "add" | sub => "sub" | mul => "mul" | div => "div" | rem => "rem" | neg => "neg"

end Arithmetic

/-- Shifts and bitwise combinations. -/
inductive Bitwise where
  | shl | shr | ushr | and | or | xor
deriving DecidableEq, Repr

namespace Bitwise

def all : List Bitwise := [shl, shr, ushr, and, or, xor]

/-- The place of an operation in `all`. -/
def code : Bitwise → UInt8
  | shl => 0 | shr => 1 | ushr => 2 | and => 3 | or => 4 | xor => 5

def mnemonic : Bitwise → String
  | shl => "shl" | shr => "shr" | ushr => "ushr" | and => "and" | or => "or" | xor => "xor"

end Bitwise

/-- Conversions between kinds of number. -/
inductive Cast where
  | intToLong | intToFloat | intToDouble
  | longToInt | longToFloat | longToDouble
  | floatToInt | floatToLong | floatToDouble
  | doubleToInt | doubleToLong | doubleToFloat
  | intToByte | intToChar | intToShort
deriving DecidableEq, Repr

namespace Cast

def all : List Cast :=
  [intToLong, intToFloat, intToDouble, longToInt, longToFloat, longToDouble, floatToInt,
    floatToLong, floatToDouble, doubleToInt, doubleToLong, doubleToFloat, intToByte, intToChar,
    intToShort]

/-- The place of a conversion in `all`. -/
def code : Cast → UInt8
  | intToLong => 0 | intToFloat => 1 | intToDouble => 2
  | longToInt => 3 | longToFloat => 4 | longToDouble => 5
  | floatToInt => 6 | floatToLong => 7 | floatToDouble => 8
  | doubleToInt => 9 | doubleToLong => 10 | doubleToFloat => 11
  | intToByte => 12 | intToChar => 13 | intToShort => 14

def mnemonic : Cast → String
  | intToLong => "i2l" | intToFloat => "i2f" | intToDouble => "i2d"
  | longToInt => "l2i" | longToFloat => "l2f" | longToDouble => "l2d"
  | floatToInt => "f2i" | floatToLong => "f2l" | floatToDouble => "f2d"
  | doubleToInt => "d2i" | doubleToLong => "d2l" | doubleToFloat => "d2f"
  | intToByte => "i2b" | intToChar => "i2c" | intToShort => "i2s"

end Cast

/-- Three-way comparisons; for floating point numbers the last letter says on which side a NaN
falls. -/
inductive Comparison where
  | long | floatLess | floatGreater | doubleLess | doubleGreater
deriving DecidableEq, Repr

namespace Comparison

def all : List Comparison := [long, floatLess, floatGreater, doubleLess, doubleGreater]

/-- The place of a comparison in `all`. -/
def code : Comparison → UInt8
  | long => 0 | floatLess => 1 | floatGreater => 2 | doubleLess => 3 | doubleGreater => 4

def mnemonic : Comparison → String
  | long => "cmp.l" | floatLess => "cmpl.f" | floatGreater => "cmpg.f"
  | doubleLess => "cmpl.d" | doubleGreater => "cmpg.d"

end Comparison

/-- Operations that take all they need from the operand stack. -/
inductive Plain where
  | nop
  | pushNull
  | pushLong0 | pushLong1
  | pushFloat0 | pushFloat1 | pushFloat2
  | pushDouble0 | pushDouble1
  | arrayLoad (kind : ElementKind)
  | arrayStore (kind : ElementKind)
  | pop | pop2 | dup | dupX1 | dupX2 | dup2 | dup2X1 | dup2X2 | swap
  | arithmetic (op : Arithmetic) (kind : NumberKind)
  | bitwise (op : Bitwise) (kind : WordKind)
  | cast (conversion : Cast)
  | compare (comparison : Comparison)
  | returnValue (kind : ValueKind)
  | returnVoid
  | arrayLength
  | throw
  | monitorEnter
  | monitorExit
deriving DecidableEq, Repr

/-- Every operation on the operand stack. -/
def Plain.all : List Plain :=
  [nop, pushNull, pushLong0, pushLong1, pushFloat0, pushFloat1, pushFloat2, pushDouble0,
    pushDouble1] ++
  ElementKind.all.map arrayLoad ++
  ElementKind.all.map arrayStore ++
  [pop, pop2, dup, dupX1, dupX2, dup2, dup2X1, dup2X2, swap] ++
  Arithmetic.all.flatMap (fun op => NumberKind.all.map (arithmetic op)) ++
  Bitwise.all.flatMap (fun op => WordKind.all.map (bitwise op)) ++
  Cast.all.map cast ++
  Comparison.all.map compare ++
  ValueKind.all.map returnValue ++
  [returnVoid, arrayLength, throw, monitorEnter, monitorExit]

/-- The ways in which a number can compare with another. -/
inductive Relation where
  | eq | ne | lt | ge | gt | le
deriving DecidableEq, Repr

namespace Relation

def all : List Relation := [eq, ne, lt, ge, gt, le]

/-- The place of a relation in `all`. -/
def code : Relation → UInt8
  | eq => 0 | ne => 1 | lt => 2 | ge => 3 | gt => 4 | le => 5

def mnemonic : Relation → String
  | eq => "eq" | ne => "ne" | lt => "lt" | ge => "ge" | gt => "gt" | le => "le"

end Relation

/-- What a conditional branch tests. -/
inductive Condition where
  /-- An int against zero. -/
  | zero (relation : Relation)
  /-- An int against another. -/
  | ints (relation : Relation)
  | sameRef
  | differentRef
  | null
  | nonNull
deriving DecidableEq, Repr

def Condition.all : List Condition :=
  Relation.all.map zero ++ Relation.all.map ints ++ [sameRef, differentRef, null, nonNull]

/-- Ways to use a field. -/
inductive FieldAccess where
  | getStatic | putStatic | getField | putField
deriving DecidableEq, Repr

namespace FieldAccess

def all : List FieldAccess := [getStatic, putStatic, getField, putField]

/-- The place of an access in `all`. -/
def code : FieldAccess → UInt8
  | getStatic => 0 | putStatic => 1 | getField => 2 | putField => 3

def mnemonic : FieldAccess → String
  | getStatic => "get.static" | putStatic => "put.static"
  | getField => "get.field" | putField => "put.field"

end FieldAccess

/-- Ways to call a method. -/
inductive Invocation where
  | virtual | special | static | interface
deriving DecidableEq, Repr

namespace Invocation

def all : List Invocation := [virtual, special, static, interface]

/-- The place of a way to call in `all`. -/
def code : Invocation → UInt8
  | virtual => 0 | special => 1 | static => 2 | interface => 3

def mnemonic : Invocation → String
  | virtual => "invoke.virtual" | special => "invoke.special"
  | static => "invoke.static" | interface => "invoke.interface"

end Invocation

/-- Operations whose only operand is a class. -/
inductive ClassOperation where
  | new | newArray | checkCast | instanceOf
deriving DecidableEq, Repr

def ClassOperation.all : List ClassOperation := [new, newArray, checkCast, instanceOf]

end ClassImage
