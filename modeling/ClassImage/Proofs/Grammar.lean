import ClassImage.Proofs.Cutting
import ClassImage.Proofs.Decoding

/-!
# The grammar of code

What an instruction looks like is said here once more, without the decoder and without its table of
operations: `kindOf` gives the layout of the bytes after every opcode, in ranges of opcodes, and
`Completes` says which bytes there are and what they stand for. Instructions with more than one
spelling stand for one canonical operation, an opcode with operands. `Stands` adds that all jumps
stay in the code.

The table of the decoder agrees with the ranges (`Form.agrees_of_ofOpcode?`,
`Form.exists_of_kindOf`).
-/

namespace ClassImage.Bytecode

open ClassFile (Fault LineNumber)

/-! ### Canonical operations -/

/-- The operands of a canonical operation. Targets are offsets. -/
inductive Operands where
  | none
  | localVar (slot : UInt16)
  | increment (slot : UInt16) (amount : Int16)
  | immediate (value : Int32)
  | constant (index : UInt16)
  | interface (index : UInt16) (count : UInt8)
  | multiArray (index : UInt16) (dimensions : UInt8)
  | branch (target : Nat)
  | tableSwitch (default : Nat) (low : Int32) (targets : List Nat)
  | lookupSwitch (default : Nat) (cases : List (Int32 × Nat))
deriving DecidableEq, Repr

/-- The offsets that operands lead to. -/
def Operands.targets : Operands → List Nat
  | branch target => [target]
  | tableSwitch default _ targets => default :: targets
  | lookupSwitch default cases => default :: cases.map Prod.snd
  | _ => []

namespace Op

def operands : Op → Operands
  | plain _ | pushInt .implicit _ => .none
  | pushInt .byte value | pushInt .short value => .immediate value
  | load _ index | field _ index | invokeDynamic index | onClass _ index => .constant index
  | localVar _ slot => .localVar slot
  | increment slot amount => .increment slot amount
  | branch _ target => .branch target
  | tableSwitch default low targets => .tableSwitch default low targets
  | lookupSwitch default cases => .lookupSwitch default cases
  | invoke (.interface count) index => .interface index count
  | invoke _ index => .constant index
  | newArray elementType => .immediate (Int32.ofNat elementType.toNat)
  | newMultiArray index dimensions => .multiArray index dimensions

/-- An operation as an opcode with operands. -/
def canonical (op : Op) : UInt8 × Operands := (op.opcode, op.operands)

theorem targets_operands (op : Op) : op.operands.targets = op.jumpTargets := by
  cases op with
  | pushInt form => cases form <;> rfl
  | invoke call => cases call <;> rfl
  | _ => rfl

end Op

/-! ### The grammar -/

/-- Layouts of the bytes after an opcode. -/
inductive OperandKind where
  | simple
  | implicitLocal
  | localVar
  | increment
  | byte
  | short
  | arrayType
  | nearConstant
  | constant
  | interfaceMethod
  | dynamicMethod
  | multiArray
  | branch
  | wideBranch
  | tableSwitch
  | lookupSwitch
  | wide
deriving DecidableEq, Repr

/-- The layouts in the order of the opcodes, each up to the opcode where the next one begins. -/
def kindRanges : List (Nat × OperandKind) := [
  (0x10, .simple), (0x11, .byte), (0x12, .short), (0x13, .nearConstant), (0x15, .constant),
  (0x1a, .localVar), (0x2e, .implicitLocal), (0x36, .simple), (0x3b, .localVar),
  (0x4f, .implicitLocal), (0x84, .simple), (0x85, .increment), (0x99, .simple), (0xa9, .branch),
  (0xaa, .localVar), (0xab, .tableSwitch), (0xac, .lookupSwitch), (0xb2, .simple),
  (0xb9, .constant), (0xba, .interfaceMethod), (0xbb, .dynamicMethod), (0xbc, .constant),
  (0xbd, .arrayType), (0xbe, .constant), (0xc0, .simple), (0xc2, .constant), (0xc4, .simple),
  (0xc5, .wide), (0xc6, .multiArray), (0xc8, .branch), (0xca, .wideBranch)]

def kindOf (opcode : UInt8) : Option OperandKind :=
  (kindRanges.find? fun range => opcode.toNat < range.1).map Prod.snd

/-- The opcode that an opcode with an implicit local variable is short for. There are four for
each. -/
def generalOf (opcode : UInt8) : UInt8 :=
  if opcode < 0x3b then 0x15 + (opcode - 0x1a) / 4 else 0x36 + (opcode - 0x3b) / 4

/-- The local variable of an opcode with an implicit local variable. -/
def slotOf (opcode : UInt8) : UInt16 :=
  (if opcode < 0x3b then (opcode - 0x1a) % 4 else (opcode - 0x3b) % 4).toUInt16

def word16 (word : UInt16) : Bytes := ByteOrder.big.bytes 2 word.toNat

def signed16 (number : Int16) : Bytes := word16 number.toUInt16

def signed32 (number : Int32) : Bytes := ByteOrder.big.bytes 4 number.toUInt32.toNat

/-- Where a jump over a distance leads. -/
def destination (offset : Nat) (distance : Int) : Nat := ((offset : Int) + distance).toNat

/-- A jump over the distance does not lead to before the code. -/
def Lands (offset : Nat) (distance : Int) : Prop := 0 ≤ (offset : Int) + distance

/-- The bytes that bring what follows the opcode at an offset to a multiple of four. -/
structure Aligns (offset : Nat) (pad : Bytes) : Prop where
  length_le : pad.length ≤ 3
  aligned : (offset + 1 + pad.length) % 4 = 0

/-- The bytes after the opcode `op` at an offset, and the canonical operation that they complete it
to. -/
inductive Completes (offset : Nat) (op : UInt8) : OperandKind → Bytes → UInt8 →
    Operands → Prop where
  | simple : Completes offset op .simple [] op .none
  | implicitLocal : Completes offset op .implicitLocal [] (generalOf op) (.localVar (slotOf op))
  | localVar (slot : UInt8) : Completes offset op .localVar [slot] op (.localVar slot.toUInt16)
  | increment (slot : UInt8) (amount : Int8) :
    Completes offset op .increment [slot, amount.toUInt8] op
      (.increment slot.toUInt16 amount.toInt16)
  | byte (value : Int8) : Completes offset op .byte [value.toUInt8] op (.immediate value.toInt32)
  | short (value : Int16) :
    Completes offset op .short (signed16 value) op (.immediate value.toInt32)
  | arrayType (code : UInt8) :
    Completes offset op .arrayType [code] op (.immediate (Int32.ofNat code.toNat))
  | nearConstant (index : UInt8) :
    Completes offset op .nearConstant [index] 0x13 (.constant index.toUInt16)
  | constant (index : UInt16) : Completes offset op .constant (word16 index) op (.constant index)
  | interfaceMethod (index : UInt16) (count zero : UInt8) :
    Completes offset op .interfaceMethod (word16 index ++ [count, zero]) op (.interface index count)
  | dynamicMethod (index zeros : UInt16) :
    Completes offset op .dynamicMethod (word16 index ++ word16 zeros) op (.constant index)
  | multiArray (index : UInt16) (dimensions : UInt8) :
    Completes offset op .multiArray (word16 index ++ [dimensions]) op (.multiArray index dimensions)
  | branch {distance : Int16} (h : Lands offset distance.toInt) :
    Completes offset op .branch (signed16 distance) op (.branch (destination offset distance.toInt))
  /-- The opcode of the wide jump lies `0x21` above that of the narrow one. -/
  | wideBranch {distance : Int32} (h : Lands offset distance.toInt) :
    Completes offset op .wideBranch (signed32 distance) (op - 0x21)
      (.branch (destination offset distance.toInt))
  | tableSwitch {pad : Bytes} (hpad : Aligns offset pad) {default low high : Int32}
    {distances : List Int32} (hdefault : Lands offset default.toInt) (hle : low.toInt ≤ high.toInt)
    (hcount : (distances.length : Int) = high.toInt - low.toInt + 1)
    (hdistances : ∀ distance ∈ distances, Lands offset distance.toInt) :
    Completes offset op .tableSwitch
      (pad ++ (signed32 default ++
        (signed32 low ++ (signed32 high ++ distances.flatMap signed32)))) op
      (.tableSwitch (destination offset default.toInt) low
        (distances.map fun distance => destination offset distance.toInt))
  | lookupSwitch {pad : Bytes} (hpad : Aligns offset pad) {default count : Int32}
    {cases : List (Int32 × Int32)} (hdefault : Lands offset default.toInt)
    (hcount : (cases.length : Int) = count.toInt)
    (hcases : ∀ entry ∈ cases, Lands offset entry.2.toInt) :
    Completes offset op .lookupSwitch
      (pad ++ (signed32 default ++ (signed32 count ++
        cases.flatMap fun entry => signed32 entry.1 ++ signed32 entry.2))) op
      (.lookupSwitch (destination offset default.toInt)
        (cases.map fun entry => (entry.1, destination offset entry.2.toInt)))
  | wideLocal {modified : UInt8} (h : kindOf modified = some .localVar) (slot : UInt16) :
    Completes offset op .wide (modified :: word16 slot) modified (.localVar slot)
  | wideIncrement {modified : UInt8} (h : kindOf modified = some .increment) (slot : UInt16)
    (amount : Int16) :
    Completes offset op .wide (modified :: (word16 slot ++ signed16 amount)) modified
      (.increment slot amount)

/-- An instruction at an offset: an opcode and the bytes that its layout asks for. -/
def Spells (offset : Nat) (s : Bytes) (canonical : UInt8 × Operands) : Prop :=
  ∃ op kind t, s = op :: t ∧ kindOf op = some kind ∧
    Completes offset op kind t canonical.1 canonical.2

/-- An instruction in code of a given length, into which it jumps. -/
def Stands (length offset : Nat) (s : Bytes) (canonical : UInt8 × Operands) : Prop :=
  Spells offset s canonical ∧ ∀ target ∈ canonical.2.targets, target < length

/-! ### The table of the decoder -/

namespace Form

/-- The layout of the bytes of a form. -/
def kind : Form → OperandKind
  | plain _ | intConst _ => .simple
  | bytePush => .byte
  | shortPush => .short
  | loadNear => .nearConstant
  | load _ | field _ | onClass _ => .constant
  | implicitLocal .. => .implicitLocal
  | localVar _ => .localVar
  | increment => .increment
  | branch _ => .branch
  | wideBranch _ => .wideBranch
  | tableSwitch => .tableSwitch
  | lookupSwitch => .lookupSwitch
  | invoke .interface => .interfaceMethod
  | invoke _ => .constant
  | invokeDynamic => .dynamicMethod
  | newArray => .arrayType
  | newMultiArray => .multiArray
  | wide => .wide

theorem exists_localVar_of_kind {form : Form} (h : form.kind = .localVar) :
    ∃ op, form = localVar op := by
  cases form with
  | localVar op => exact ⟨op, rfl⟩
  | invoke invocation => cases invocation <;> simp [kind] at h
  | _ => simp [kind] at h

theorem eq_increment_of_kind {form : Form} (h : form.kind = .increment) : form = increment := by
  cases form with
  | increment => rfl
  | invoke invocation => cases invocation <;> simp [kind] at h
  | _ => simp [kind] at h

/-- The first row of the table that has a form. -/
def row (form : Form) : Nat := table.toList.findIdx fun row => row.2 == form

theorem opcode_eq (form : Form) : form.opcode = UInt8.ofNat form.row := by
  rw [opcode, row, ← List.findIdx_toArray, Array.toArray_toList]

/-- What the table says of an opcode agrees with the grammar. -/
def agrees (opcode : UInt8) (form : Form) : Bool :=
  UInt8.ofNat form.row = opcode && kindOf opcode = some form.kind &&
    match form with
    | implicitLocal op slot => UInt8.ofNat (localVar op).row = generalOf opcode &&
        slot = slotOf opcode
    | wideBranch jump => UInt8.ofNat (branch jump).row = opcode - 0x21
    | _ => true

/-- What holds of every row of the table holds of every opcode with its form. -/
theorem of_all_rows {p : UInt8 → Form → Bool}
    (hrows : table.toList.zipIdx.all fun entry => p (UInt8.ofNat entry.2) entry.1.2)
    {opcode : UInt8} {form : Form} (h : ofOpcode? opcode = some form) : p opcode form = true := by
  rw [ofOpcode?, Option.map_eq_some_iff] at h
  obtain ⟨row, hrow, rfl⟩ := h
  have hmem : (row, opcode.toNat) ∈ table.toList.zipIdx := by
    rw [List.mem_zipIdx_iff_getElem?, Array.getElem?_toList]
    exact hrow
  have hp := List.all_eq_true.mp hrows _ hmem
  rwa [UInt8.ofNat_toNat] at hp

theorem agrees_of_ofOpcode? {opcode : UInt8} {form : Form} (h : ofOpcode? opcode = some form) :
    form.agrees opcode = true :=
  of_all_rows (p := fun opcode form => form.agrees opcode) (by decide +kernel) h

theorem opcode_of_ofOpcode? {opcode : UInt8} {form : Form} (h : ofOpcode? opcode = some form) :
    form.opcode = opcode := by
  have hagrees := agrees_of_ofOpcode? h
  simp only [agrees, Bool.and_eq_true, decide_eq_true_eq] at hagrees
  rw [opcode_eq]
  exact hagrees.1.1

theorem kindOf_of_ofOpcode? {opcode : UInt8} {form : Form} (h : ofOpcode? opcode = some form) :
    kindOf opcode = some form.kind := by
  have hagrees := agrees_of_ofOpcode? h
  simp only [agrees, Bool.and_eq_true, decide_eq_true_eq] at hagrees
  exact hagrees.1.2

/-- An implicit local variable is found from the opcode. -/
theorem general_of_ofOpcode? {opcode : UInt8} {op : LocalOperation} {slot : UInt16}
    (h : ofOpcode? opcode = some (implicitLocal op slot)) :
    (localVar op).opcode = generalOf opcode ∧ slot = slotOf opcode := by
  have hagrees := agrees_of_ofOpcode? h
  simp only [agrees, Bool.and_eq_true, decide_eq_true_eq] at hagrees
  rw [opcode_eq]
  exact hagrees.2

theorem narrow_of_ofOpcode? {opcode : UInt8} {jump : Jump}
    (h : ofOpcode? opcode = some (wideBranch jump)) :
    (branch jump).opcode = opcode - 0x21 := by
  have hagrees := agrees_of_ofOpcode? h
  simp only [agrees, Bool.and_eq_true, decide_eq_true_eq] at hagrees
  rw [opcode_eq]
  exact hagrees.2

theorem opcode_load : (load false).opcode = 0x13 := by
  rw [opcode_eq]
  decide +kernel

theorem exists_of_kindOf {opcode : UInt8} {kind : OperandKind} (h : kindOf opcode = some kind) :
    ∃ form, ofOpcode? opcode = some form ∧ form.kind = kind := by
  have hlt : opcode.toNat < table.size := by
    have hranges : ∀ range ∈ kindRanges, range.1 ≤ table.size := by decide +kernel
    obtain ⟨range, hrange, -⟩ := Option.map_eq_some_iff.mp h
    have hopcode := List.find?_some hrange
    have hle := hranges range (List.mem_of_find?_eq_some hrange)
    simp only [decide_eq_true_eq] at hopcode
    omega
  have hform : ofOpcode? opcode = some table[opcode.toNat].2 := by
    rw [ofOpcode?, Array.getElem?_eq_getElem hlt, Option.map_some]
  have hkind := kindOf_of_ofOpcode? hform
  rw [h, Option.some.injEq] at hkind
  exact ⟨_, hform, hkind.symm⟩

end Form

end ClassImage.Bytecode
