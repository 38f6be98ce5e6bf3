import ClassImage.Proofs.DecoderExact
import ClassImage.Proofs.Totality

/-!
# The bytes of lowered instructions

Most opcodes of a class file become opcodes of the target machine in whole ranges, each moved to
another place. `imageBytes` says this of the bytes alone, without the operations that they stand
for. The forms of the decoder's table and the opcodes that lowering picks agree with the ranges
(`Form.byte_mem_imageBytes`), so the bytes of a lowered body are those that the ranges give for the
instructions of the code (`ends_imageBytes`).
-/

namespace ClassImage

open Image (Opcode)

namespace Bytecode

/-! ### Ranges of bytes -/

/-- The ranges of opcodes that are moved as a whole: the first opcode, the last one, and the byte
that the first one becomes. -/
def movedRanges : List (UInt8 × UInt8 × UInt8) := [
  (0x00, 0x01, 0x00), (0x09, 0x0f, 0x02), (0x15, 0x19, 0x80), (0x2e, 0x35, 0x10),
  (0x36, 0x3a, 0x85), (0x4f, 0x56, 0x18), (0x57, 0x5f, 0x20), (0x60, 0x83, 0x30),
  (0x84, 0x84, 0x8a), (0x85, 0x93, 0x58), (0x94, 0x98, 0x68), (0x99, 0xa6, 0x91),
  (0xa7, 0xa7, 0x8b), (0xaa, 0xab, 0xc0), (0xac, 0xb1, 0x70), (0xb2, 0xb9, 0xb0),
  (0xbb, 0xbd, 0xb8), (0xbe, 0xbf, 0x76), (0xc0, 0xc1, 0xbc), (0xc2, 0xc3, 0x78),
  (0xc5, 0xc5, 0xbb), (0xc6, 0xc7, 0x9f)]

/-- The bytes that the opcode of a canonical operation can become. There is one, except for the
constants in slots, where it depends on the constant; for opcodes without a counterpart there is
none. -/
def imageBytes (opcode : UInt8) : List UInt8 :=
  if opcode = 0x13 then [0x90, 0xa8, 0xa9, 0xac, 0xad]
  else if opcode = 0x14 then [0xaa, 0xab]
  else if 0x02 ≤ opcode && opcode ≤ 0x08 || 0x10 ≤ opcode && opcode ≤ 0x11 then [0x90]
  else (movedRanges.find? fun range => range.1 ≤ opcode && opcode ≤ range.2.1).toList.map
    fun range => opcode - range.1 + range.2.2

/-- The opcodes that an operation of a form is lowered to. -/
def Form.images : Form → List Opcode
  | plain op => [.plain op]
  | intConst _ | bytePush | shortPush => [.pushShort]
  | load false => [.pushShort, .pushInt, .pushFloat, .pushString, .pushClass]
  | load true => [.pushLong, .pushDouble]
  | localVar (.load kind) => [.load kind]
  | localVar (.store kind) => [.store kind]
  | increment => [.increment]
  | branch (.when condition) => [.branch condition]
  | branch .goto => [.goto]
  | tableSwitch => [.tableSwitch]
  | lookupSwitch => [.lookupSwitch]
  | field access => [.field access]
  | invoke invocation => [.invoke invocation]
  | onClass op => [.onClass op]
  | newArray => [.newArray]
  | newMultiArray => [.newMultiArray]
  | localVar .ret | branch .jsr | invokeDynamic => []
  | loadNear | implicitLocal .. | wideBranch _ | wide => []

namespace Form

/-- **Opcodes are moved in ranges.** The byte of an opcode that stands for a form is one that the
ranges give for the form's own opcode. -/
theorem byte_mem_imageBytes {opcode : UInt8} {form : Form} {image : Opcode}
    (h : ofOpcode? opcode = some form) (himage : image ∈ form.images) :
    image.byte ∈ imageBytes opcode := by
  have hbytes : (form.images.all fun image => image.byte ∈ imageBytes opcode) = true :=
    of_all_rows
      (p := fun opcode form => form.images.all fun image => image.byte ∈ imageBytes opcode)
      (by decide +kernel) h
  exact of_decide_eq_true (List.all_eq_true.mp hbytes image himage)

/-- A form whose opcode is defined is the form of that opcode. -/
theorem ofOpcode?_opcode {form form' : Form} (h : ofOpcode? form.opcode = some form') :
    ofOpcode? form.opcode = some form := by
  have hsize : table.toList.length = 202 := by decide +kernel
  have hle : form.row ≤ table.toList.length := List.findIdx_le_length
  have hrow : form.opcode.toNat = form.row := by
    rw [opcode_eq]
    exact UInt8.toNat_ofNat_of_lt' (show form.row < 256 by omega)
  rw [ofOpcode?, hrow, ← Array.getElem?_toList, Option.map_eq_some_iff] at h ⊢
  obtain ⟨entry, hentry, -⟩ := h
  obtain ⟨hlt, rfl⟩ := List.getElem?_eq_some_iff.mp hentry
  have hform := List.findIdx_getElem (p := fun entry : String × Form => entry.2 == form) (w := hlt)
  exact ⟨_, hentry, eq_of_beq hform⟩

end Form

/-! ### Opcodes of canonical operations -/

/-- A local variable in the opcode and a wide distance are other spellings of opcodes that are
defined. -/
theorem kindOf_respelled (opcode : UInt8) :
    (kindOf opcode = some .implicitLocal → kindOf (generalOf opcode) = some .localVar) ∧
    (kindOf opcode = some .wideBranch → kindOf (opcode - 0x21) = some .branch) := by
  have hall : ∀ n < 256,
      (kindOf (.ofNat n) = some .implicitLocal → kindOf (generalOf (.ofNat n)) = some .localVar) ∧
      (kindOf (.ofNat n) = some .wideBranch → kindOf (.ofNat n - 0x21) = some .branch) := by
    decide +kernel
  have hopcode := hall opcode.toNat opcode.toNat_lt
  rwa [UInt8.ofNat_toNat] at hopcode

/-- The opcode of a canonical operation is defined. -/
theorem Completes.exists_kindOf {offset : Nat} {opcode opcode' : UInt8} {kind : OperandKind}
    {t : Bytes} {operands : Operands} (hkind : kindOf opcode = some kind)
    (h : Completes offset opcode kind t opcode' operands) :
    ∃ kind', kindOf opcode' = some kind' := by
  cases h with
  | implicitLocal => exact ⟨_, (kindOf_respelled opcode).1 hkind⟩
  | nearConstant => exact ⟨.constant, by decide⟩
  | wideBranch => exact ⟨_, (kindOf_respelled opcode).2 hkind⟩
  | wideLocal hlocal => exact ⟨_, hlocal⟩
  | wideIncrement hincrement => exact ⟨_, hincrement⟩
  | _ => exact ⟨_, hkind⟩

/-- The form of an operation that stands in code is that of its opcode. -/
theorem ofOpcode?_of_stands {length offset : Nat} {s : Bytes} {op : Op}
    (h : Stands length offset s op.canonical) : Form.ofOpcode? op.opcode = some op.form := by
  obtain ⟨⟨opcode, kind, t, -, hkind, hcompletes⟩, -⟩ := h
  obtain ⟨kind', hkind'⟩ := hcompletes.exists_kindOf hkind
  obtain ⟨form, hform, -⟩ := Form.exists_of_kindOf hkind'
  exact Form.ofOpcode?_opcode hform

end Bytecode

/-! ### Lowering -/

namespace Conversion

open ClassFile (ConstantPool)
open Bytecode (Decoded Form Op IsCode imageBytes)
open Body (Instruction)

/-- What a step returns, when nothing is asked of the steps before its last one. -/
theorem Ends.after {α β : Type} {step : Convert α} {next : α → Convert β} {post : β → Prop}
    (h : ∀ a, Ends (next a) post fun _ => True) : Ends (step >>= next) post fun _ => True := by
  have hstep : Ends step (fun _ => True) fun _ => True := by
    intro work
    cases (runFrom step work).1 <;> trivial
  exact hstep.bind fun a _ => h a

section Operations

variable {context : Context}

theorem ends_lowerLoad (isWide : Bool) (index : UInt16) :
    Ends (lowerLoad context isWide index)
      (fun lowered => lowered.1 ∈ (Op.load isWide index).form.images) fun _ => True := by
  refine Ends.after fun constant => ?_
  split
  case h_1 =>
    split
    · exact Ends.pure (by simp [Op.form, Form.images, pushShort])
    · exact Ends.pure (by simp [Op.form, Form.images])
  case h_2 => exact Ends.pure (by simp [Op.form, Form.images])
  case h_3 =>
    exact Ends.after fun _ => Ends.after fun _ => Ends.pure (by simp [Op.form, Form.images])
  case h_4 | h_5 | h_6 => exact Ends.after fun _ => Ends.pure (by simp [Op.form, Form.images])
  all_goals exact Ends.throw trivial

/-- **Lowering picks an opcode of the operation's form.** -/
theorem ends_lowerOp (offset : Nat) (op : Op) :
    Ends (lowerOp context offset op) (fun lowered => lowered.1 ∈ op.form.images) fun _ => True := by
  cases op with
  | plain | newArray => exact Ends.pure (List.mem_singleton.mpr rfl)
  | pushInt form value =>
    cases form <;> exact Ends.pure (List.mem_singleton.mpr rfl)
  | load isWide index => exact ends_lowerLoad isWide index
  | localVar op slot =>
    cases op with
    | load kind | store kind => exact Ends.after fun _ => Ends.pure (List.mem_singleton.mpr rfl)
    | ret => exact Ends.throw trivial
  | branch jump target =>
    cases jump with
    | when condition => exact Ends.after fun _ => Ends.pure (List.mem_singleton.mpr rfl)
    | goto => exact Ends.after fun _ => Ends.pure (List.mem_singleton.mpr rfl)
    | jsr => exact Ends.throw trivial
  | invokeDynamic => exact Ends.throw trivial
  | increment | tableSwitch | lookupSwitch | onClass | newMultiArray =>
    exact Ends.after fun _ => Ends.pure (List.mem_singleton.mpr rfl)
  | field | invoke =>
    exact Ends.after fun _ => Ends.after fun _ => Ends.pure (List.mem_singleton.mpr rfl)

end Operations

/-- The bytes of the instructions are those that the ranges give for the opcodes of the code. -/
def MovesBytes (code : Bytes) (instructions : List Instruction) : Prop :=
  ∃ segments, IsCode code segments ∧
    List.Forall₂ (fun segment insn => insn.opcode.byte ∈ imageBytes segment.2.1)
      segments instructions

/-- **A lowered body has the bytes that the code's own bytes are moved to**, instruction by
instruction. -/
theorem ends_imageBytes (settings : Settings) (constants : ConstantPool) {code : ClassFile.Code}
    (hlength : code.bytes.length ≤ UInt32.size) :
    Ends (lower settings constants code) (fun body => MovesBytes code.bytes body.instructions)
      fun _ => True := by
  refine Ends.after fun lines => Ends.file (fun _ => trivial) fun decoded hdecoded => ?_
  obtain ⟨segments, hcode⟩ := Bytecode.exists_isCode_of_decode hlength hdecoded
  obtain ⟨-, hops⟩ := Bytecode.canonical_of_decode hlength hdecoded hcode
  -- The table has no row for an int that no opcode pushes, but such an int is not decoded.
  have hspelled : ∀ entry ∈ decoded, Form.ofOpcode? entry.op.opcode = some entry.op.form := by
    intro entry hentry
    have hmem : entry.op.canonical ∈ segments.map Prod.snd := by
      rw [← hops]
      exact List.mem_map_of_mem hentry
    obtain ⟨segment, hsegment, hcanonical⟩ := List.mem_map.mp hmem
    obtain ⟨offset, hstands⟩ := hcode.1.exists_stands hsegment
    rw [hcanonical] at hstands
    exact Bytecode.ofOpcode?_of_stands hstands
  have hbytes : ∀ entry ∈ decoded,
      Ends (lowerDecoded ⟨settings, constants, (decoded.map Decoded.offset).toArray⟩ entry)
        (fun insn => insn.opcode.byte ∈ imageBytes entry.op.opcode) fun _ => True := by
    intro entry hentry
    refine (ends_lowerOp entry.offset entry.op).bind fun lowered himage => Ends.pure ?_
    exact Form.byte_mem_imageBytes (hspelled entry hentry) himage
  refine (Ends.mapM hbytes).bind fun instructions hinstructions => ?_
  refine Ends.after fun handlers => Ends.after fun _ => Ends.pure ⟨segments, hcode, ?_⟩
  have hcanonical : List.Forall₂ (fun (canonical : UInt8 × Bytecode.Operands) insn =>
      insn.opcode.byte ∈ imageBytes canonical.1) (segments.map Prod.snd) instructions := by
    rw [← hops]
    exact List.forall₂_map_left_iff.mpr hinstructions
  exact List.forall₂_map_left_iff.mp hcanonical

end Conversion

end ClassImage
