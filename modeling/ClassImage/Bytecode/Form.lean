import ClassImage.Operation

/-!
# The instruction set of class files

Every opcode below 202 is defined. The table gives, in the order of the opcodes, the name of each
and its form: how its operands are laid out and which operation they complete. Several opcodes are
short spellings of the same operation; what an instruction means is decided by its form alone.
-/

namespace ClassImage.Bytecode

/-- Operations on a local variable named by its slot. -/
inductive LocalOperation where
  | load (kind : ValueKind)
  | store (kind : ValueKind)
  /-- Returns from a subroutine to the address in the variable. -/
  | ret
deriving DecidableEq, Repr

/-- Operations that can continue at another instruction. -/
inductive Jump where
  | when (condition : Condition)
  | goto
  /-- Calls a subroutine. -/
  | jsr
deriving DecidableEq, Repr

/-- How the bytes after an opcode are laid out, and what they are operands of. -/
inductive Form where
  /-- No operands. -/
  | plain (op : Plain)
  /-- No operands; pushes a small int. -/
  | intConst (value : Int32)
  /-- A signed byte to push. -/
  | bytePush
  /-- A signed 16-bit number to push. -/
  | shortPush
  /-- A constant to push, named by an 8-bit slot. -/
  | loadNear
  /-- A constant to push, named by a 16-bit slot; wide ones take two places on the stack. -/
  | load (isWide : Bool)
  /-- No operands; the local variable is part of the opcode. -/
  | implicitLocal (op : LocalOperation) (slot : UInt16)
  /-- An 8-bit local variable. -/
  | localVar (op : LocalOperation)
  /-- An 8-bit local variable and a signed byte to add to it. -/
  | increment
  /-- A signed 16-bit distance. -/
  | branch (jump : Jump)
  /-- A signed 32-bit distance. -/
  | wideBranch (jump : Jump)
  | tableSwitch
  | lookupSwitch
  /-- The slot of a field reference. -/
  | field (access : FieldAccess)
  /-- The slot of a method reference; for an interface also a count and a zero byte. -/
  | invoke (invocation : Invocation)
  /-- The slot of a dynamic call and two zero bytes. -/
  | invokeDynamic
  /-- The slot of a class. -/
  | onClass (op : ClassOperation)
  /-- The code of a primitive type. -/
  | newArray
  /-- The slot of a class and a number of dimensions. -/
  | newMultiArray
  /-- An instruction with wider operands. -/
  | wide
deriving DecidableEq, Repr

/-- The name and the form of every opcode, in order. -/
def table : Array (String × Form) := #[
  ("nop", .plain .nop),
  ("aconst_null", .plain .pushNull),
  ("iconst_m1", .intConst (-1)),
  ("iconst_0", .intConst 0),
  ("iconst_1", .intConst 1),
  ("iconst_2", .intConst 2),
  ("iconst_3", .intConst 3),
  ("iconst_4", .intConst 4),
  ("iconst_5", .intConst 5),
  ("lconst_0", .plain .pushLong0),
  ("lconst_1", .plain .pushLong1),
  ("fconst_0", .plain .pushFloat0),
  ("fconst_1", .plain .pushFloat1),
  ("fconst_2", .plain .pushFloat2),
  ("dconst_0", .plain .pushDouble0),
  ("dconst_1", .plain .pushDouble1),
  ("bipush", .bytePush),
  ("sipush", .shortPush),
  ("ldc", .loadNear),
  ("ldc_w", .load false),
  ("ldc2_w", .load true),
  ("iload", .localVar (.load .int)),
  ("lload", .localVar (.load .long)),
  ("fload", .localVar (.load .float)),
  ("dload", .localVar (.load .double)),
  ("aload", .localVar (.load .ref)),
  ("iload_0", .implicitLocal (.load .int) 0),
  ("iload_1", .implicitLocal (.load .int) 1),
  ("iload_2", .implicitLocal (.load .int) 2),
  ("iload_3", .implicitLocal (.load .int) 3),
  ("lload_0", .implicitLocal (.load .long) 0),
  ("lload_1", .implicitLocal (.load .long) 1),
  ("lload_2", .implicitLocal (.load .long) 2),
  ("lload_3", .implicitLocal (.load .long) 3),
  ("fload_0", .implicitLocal (.load .float) 0),
  ("fload_1", .implicitLocal (.load .float) 1),
  ("fload_2", .implicitLocal (.load .float) 2),
  ("fload_3", .implicitLocal (.load .float) 3),
  ("dload_0", .implicitLocal (.load .double) 0),
  ("dload_1", .implicitLocal (.load .double) 1),
  ("dload_2", .implicitLocal (.load .double) 2),
  ("dload_3", .implicitLocal (.load .double) 3),
  ("aload_0", .implicitLocal (.load .ref) 0),
  ("aload_1", .implicitLocal (.load .ref) 1),
  ("aload_2", .implicitLocal (.load .ref) 2),
  ("aload_3", .implicitLocal (.load .ref) 3),
  ("iaload", .plain (.arrayLoad .int)),
  ("laload", .plain (.arrayLoad .long)),
  ("faload", .plain (.arrayLoad .float)),
  ("daload", .plain (.arrayLoad .double)),
  ("aaload", .plain (.arrayLoad .ref)),
  ("baload", .plain (.arrayLoad .byte)),
  ("caload", .plain (.arrayLoad .char)),
  ("saload", .plain (.arrayLoad .short)),
  ("istore", .localVar (.store .int)),
  ("lstore", .localVar (.store .long)),
  ("fstore", .localVar (.store .float)),
  ("dstore", .localVar (.store .double)),
  ("astore", .localVar (.store .ref)),
  ("istore_0", .implicitLocal (.store .int) 0),
  ("istore_1", .implicitLocal (.store .int) 1),
  ("istore_2", .implicitLocal (.store .int) 2),
  ("istore_3", .implicitLocal (.store .int) 3),
  ("lstore_0", .implicitLocal (.store .long) 0),
  ("lstore_1", .implicitLocal (.store .long) 1),
  ("lstore_2", .implicitLocal (.store .long) 2),
  ("lstore_3", .implicitLocal (.store .long) 3),
  ("fstore_0", .implicitLocal (.store .float) 0),
  ("fstore_1", .implicitLocal (.store .float) 1),
  ("fstore_2", .implicitLocal (.store .float) 2),
  ("fstore_3", .implicitLocal (.store .float) 3),
  ("dstore_0", .implicitLocal (.store .double) 0),
  ("dstore_1", .implicitLocal (.store .double) 1),
  ("dstore_2", .implicitLocal (.store .double) 2),
  ("dstore_3", .implicitLocal (.store .double) 3),
  ("astore_0", .implicitLocal (.store .ref) 0),
  ("astore_1", .implicitLocal (.store .ref) 1),
  ("astore_2", .implicitLocal (.store .ref) 2),
  ("astore_3", .implicitLocal (.store .ref) 3),
  ("iastore", .plain (.arrayStore .int)),
  ("lastore", .plain (.arrayStore .long)),
  ("fastore", .plain (.arrayStore .float)),
  ("dastore", .plain (.arrayStore .double)),
  ("aastore", .plain (.arrayStore .ref)),
  ("bastore", .plain (.arrayStore .byte)),
  ("castore", .plain (.arrayStore .char)),
  ("sastore", .plain (.arrayStore .short)),
  ("pop", .plain .pop),
  ("pop2", .plain .pop2),
  ("dup", .plain .dup),
  ("dup_x1", .plain .dupX1),
  ("dup_x2", .plain .dupX2),
  ("dup2", .plain .dup2),
  ("dup2_x1", .plain .dup2X1),
  ("dup2_x2", .plain .dup2X2),
  ("swap", .plain .swap),
  ("iadd", .plain (.arithmetic .add .int)),
  ("ladd", .plain (.arithmetic .add .long)),
  ("fadd", .plain (.arithmetic .add .float)),
  ("dadd", .plain (.arithmetic .add .double)),
  ("isub", .plain (.arithmetic .sub .int)),
  ("lsub", .plain (.arithmetic .sub .long)),
  ("fsub", .plain (.arithmetic .sub .float)),
  ("dsub", .plain (.arithmetic .sub .double)),
  ("imul", .plain (.arithmetic .mul .int)),
  ("lmul", .plain (.arithmetic .mul .long)),
  ("fmul", .plain (.arithmetic .mul .float)),
  ("dmul", .plain (.arithmetic .mul .double)),
  ("idiv", .plain (.arithmetic .div .int)),
  ("ldiv", .plain (.arithmetic .div .long)),
  ("fdiv", .plain (.arithmetic .div .float)),
  ("ddiv", .plain (.arithmetic .div .double)),
  ("irem", .plain (.arithmetic .rem .int)),
  ("lrem", .plain (.arithmetic .rem .long)),
  ("frem", .plain (.arithmetic .rem .float)),
  ("drem", .plain (.arithmetic .rem .double)),
  ("ineg", .plain (.arithmetic .neg .int)),
  ("lneg", .plain (.arithmetic .neg .long)),
  ("fneg", .plain (.arithmetic .neg .float)),
  ("dneg", .plain (.arithmetic .neg .double)),
  ("ishl", .plain (.bitwise .shl .int)),
  ("lshl", .plain (.bitwise .shl .long)),
  ("ishr", .plain (.bitwise .shr .int)),
  ("lshr", .plain (.bitwise .shr .long)),
  ("iushr", .plain (.bitwise .ushr .int)),
  ("lushr", .plain (.bitwise .ushr .long)),
  ("iand", .plain (.bitwise .and .int)),
  ("land", .plain (.bitwise .and .long)),
  ("ior", .plain (.bitwise .or .int)),
  ("lor", .plain (.bitwise .or .long)),
  ("ixor", .plain (.bitwise .xor .int)),
  ("lxor", .plain (.bitwise .xor .long)),
  ("iinc", .increment),
  ("i2l", .plain (.cast .intToLong)),
  ("i2f", .plain (.cast .intToFloat)),
  ("i2d", .plain (.cast .intToDouble)),
  ("l2i", .plain (.cast .longToInt)),
  ("l2f", .plain (.cast .longToFloat)),
  ("l2d", .plain (.cast .longToDouble)),
  ("f2i", .plain (.cast .floatToInt)),
  ("f2l", .plain (.cast .floatToLong)),
  ("f2d", .plain (.cast .floatToDouble)),
  ("d2i", .plain (.cast .doubleToInt)),
  ("d2l", .plain (.cast .doubleToLong)),
  ("d2f", .plain (.cast .doubleToFloat)),
  ("i2b", .plain (.cast .intToByte)),
  ("i2c", .plain (.cast .intToChar)),
  ("i2s", .plain (.cast .intToShort)),
  ("lcmp", .plain (.compare .long)),
  ("fcmpl", .plain (.compare .floatLess)),
  ("fcmpg", .plain (.compare .floatGreater)),
  ("dcmpl", .plain (.compare .doubleLess)),
  ("dcmpg", .plain (.compare .doubleGreater)),
  ("ifeq", .branch (.when (.zero .eq))),
  ("ifne", .branch (.when (.zero .ne))),
  ("iflt", .branch (.when (.zero .lt))),
  ("ifge", .branch (.when (.zero .ge))),
  ("ifgt", .branch (.when (.zero .gt))),
  ("ifle", .branch (.when (.zero .le))),
  ("if_icmpeq", .branch (.when (.ints .eq))),
  ("if_icmpne", .branch (.when (.ints .ne))),
  ("if_icmplt", .branch (.when (.ints .lt))),
  ("if_icmpge", .branch (.when (.ints .ge))),
  ("if_icmpgt", .branch (.when (.ints .gt))),
  ("if_icmple", .branch (.when (.ints .le))),
  ("if_acmpeq", .branch (.when .sameRef)),
  ("if_acmpne", .branch (.when .differentRef)),
  ("goto", .branch .goto),
  ("jsr", .branch .jsr),
  ("ret", .localVar .ret),
  ("tableswitch", .tableSwitch),
  ("lookupswitch", .lookupSwitch),
  ("ireturn", .plain (.returnValue .int)),
  ("lreturn", .plain (.returnValue .long)),
  ("freturn", .plain (.returnValue .float)),
  ("dreturn", .plain (.returnValue .double)),
  ("areturn", .plain (.returnValue .ref)),
  ("return", .plain .returnVoid),
  ("getstatic", .field .getStatic),
  ("putstatic", .field .putStatic),
  ("getfield", .field .getField),
  ("putfield", .field .putField),
  ("invokevirtual", .invoke .virtual),
  ("invokespecial", .invoke .special),
  ("invokestatic", .invoke .static),
  ("invokeinterface", .invoke .interface),
  ("invokedynamic", .invokeDynamic),
  ("new", .onClass .new),
  ("newarray", .newArray),
  ("anewarray", .onClass .newArray),
  ("arraylength", .plain .arrayLength),
  ("athrow", .plain .throw),
  ("checkcast", .onClass .checkCast),
  ("instanceof", .onClass .instanceOf),
  ("monitorenter", .plain .monitorEnter),
  ("monitorexit", .plain .monitorExit),
  ("wide", .wide),
  ("multianewarray", .newMultiArray),
  ("ifnull", .branch (.when .null)),
  ("ifnonnull", .branch (.when .nonNull)),
  ("goto_w", .wideBranch .goto),
  ("jsr_w", .wideBranch .jsr)]

namespace Form

/-- The form of an opcode. -/
def ofOpcode? (opcode : UInt8) : Option Form := table[opcode.toNat]?.map Prod.snd

/-- The first opcode of a form. -/
def opcode (form : Form) : UInt8 :=
  UInt8.ofNat (table.findIdx fun row => row.2 == form)

/-- The name of the first opcode of a form. -/
def name (form : Form) : String :=
  match table[form.opcode.toNat]? with
  | some (name, _) => name
  | none => ""

end Form

end ClassImage.Bytecode
