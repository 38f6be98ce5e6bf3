import Mathlib.Data.List.Nodup
import ClassImage.Image.Record
import ClassImage.Proofs.Layout

/-!
# Encoded code is cut into the records it was made of

`IsInstruction` says which lists of records make one instruction: the record has the format of its
opcode, the short fields are in range, and a switch header counts the parameters that follow it. The
bytes of such a list are read back as that list (`reads_instruction`), so code that is a sequence of
instructions disassembles into exactly these (`disassemble_flatMap`), and collecting the parameters
behind each switch header gives the instructions back (`grouped_ofList`).
-/

namespace ClassImage

/-! ### Every operation is listed -/

theorem ValueKind.mem_all (kind : ValueKind) : kind ∈ all := by cases kind <;> decide

theorem NumberKind.mem_all (kind : NumberKind) : kind ∈ all := by cases kind <;> decide

theorem WordKind.mem_all (kind : WordKind) : kind ∈ all := by cases kind <;> decide

theorem ElementKind.mem_all (kind : ElementKind) : kind ∈ all := by cases kind <;> decide

theorem Arithmetic.mem_all (op : Arithmetic) : op ∈ all := by cases op <;> decide

theorem Bitwise.mem_all (op : Bitwise) : op ∈ all := by cases op <;> decide

theorem Cast.mem_all (conversion : Cast) : conversion ∈ all := by cases conversion <;> decide

theorem Comparison.mem_all (comparison : Comparison) : comparison ∈ all := by
  cases comparison <;> decide

theorem Relation.mem_all (relation : Relation) : relation ∈ all := by cases relation <;> decide

theorem FieldAccess.mem_all (access : FieldAccess) : access ∈ all := by cases access <;> decide

theorem Invocation.mem_all (invocation : Invocation) : invocation ∈ all := by
  cases invocation <;> decide

theorem ClassOperation.mem_all (op : ClassOperation) : op ∈ all := by cases op <;> decide

theorem Plain.mem_all (op : Plain) : op ∈ all := by
  cases op <;> simp [all, ElementKind.mem_all, Arithmetic.mem_all, NumberKind.mem_all,
    Bitwise.mem_all, WordKind.mem_all, Cast.mem_all, Comparison.mem_all, ValueKind.mem_all]

theorem Condition.mem_all (condition : Condition) : condition ∈ all := by
  cases condition <;> simp [all, Relation.mem_all]

namespace Image

namespace Opcode

theorem mem_all (op : Opcode) : op ∈ all := by
  cases op <;> simp [all, Plain.mem_all, ValueKind.mem_all, Condition.mem_all, FieldAccess.mem_all,
    Invocation.mem_all, ClassOperation.mem_all]

/-- No byte stands for two opcodes. -/
theorem nodup_bytes : (all.map fun op => op.byte.toNat).Nodup := by decide +kernel

theorem ofByte?_byte (op : Opcode) : ofByte? op.byte = some op := by
  rw [ofByte?]
  cases hfind : all.find? fun other => other.byte == op.byte with
  | none =>
    have hmiss := List.find?_eq_none.mp hfind op op.mem_all
    exact absurd hmiss (by simp)
  | some other =>
    have hbyte : other.byte = op.byte := by simpa using List.find?_some hfind
    have hmem := List.mem_of_find?_eq_some hfind
    rw [List.inj_on_of_nodup_map nodup_bytes hmem op.mem_all (congrArg UInt8.toNat hbyte)]

end Opcode

/-! ### Short fields -/

namespace Record

theorem shortWord_lt (imm : Int32) (reg : UInt8) : shortWord imm reg < 256 ^ 3 := by
  have h₁ : (imm.toInt % 0x40000).toNat < 0x40000 := by omega
  have h₂ : reg.toNat % 64 < 64 := Nat.mod_lt _ (by decide)
  rw [shortWord]
  omega

/-- A number in the range of the short immediate survives the cut to 18 bits. -/
theorem shortImm_shortWord {imm : Int32} (reg : UInt8) (hmin : shortMin ≤ imm.toInt)
    (hmax : imm.toInt ≤ shortMax) : shortImm (shortWord imm reg) = imm := by
  rw [shortMin] at hmin
  rw [shortMax] at hmax
  have hbits : shortWord imm reg / 64 % 0x40000 = (imm.toInt % 0x40000).toNat := by
    rw [shortWord]
    omega
  have hvalue : (if shortWord imm reg / 64 % 0x40000 < 0x20000
      then ((shortWord imm reg / 64 % 0x40000 : Nat) : Int)
      else (shortWord imm reg / 64 % 0x40000 : Nat) - 0x40000) = imm.toInt := by
    rw [hbits]
    split <;> omega
  rw [shortImm]
  exact (congrArg Int32.ofInt hvalue).trans (Int32.ofInt_toInt imm)

theorem shortReg_shortWord (imm : Int32) {reg : UInt8} (hreg : reg ≤ shortRegMax) :
    shortReg (shortWord imm reg) = reg := by
  have hle : reg.toNat ≤ 63 := UInt8.le_iff_toNat_le.mp hreg
  have hlow : shortWord imm reg % 64 = reg.toNat := by
    rw [shortWord]
    omega
  rw [shortReg, hlow, UInt8.ofNat_toNat]

/-! ### Instructions as records -/

/-- Whether a record is one of the parameters that follow a switch header. -/
def isParameter : Record → Bool
  | values .. | target _ => true
  | _ => false

/-- A record can be a parameter: a jump target where one belongs, and values elsewhere. -/
def FitsParameter : Bool → Record → Prop
  | true, target _ => True
  | false, values .. => True
  | _, _ => False

theorem FitsParameter.isParameter {isTarget : Bool} {record : Record}
    (h : record.FitsParameter isTarget) : record.isParameter = true := by
  cases isTarget <;> cases record <;> first | rfl | exact absurd h id

theorem FitsParameter.length {isTarget : Bool} {record : Record}
    (h : record.FitsParameter isTarget) : record.length = parameterLength := by
  cases isTarget <;> cases record <;> first | rfl | exact absurd h id

theorem length_encode (record : Record) : record.encode.length = record.length := by
  cases record <;> simp [encode, length, Format.length, parameterLength]

theorem length_pos (record : Record) : 0 < record.length := by
  cases record <;> simp [length, Format.length, parameterLength]

end Record

/-- The bytes of records that follow each other. -/
def encodeAll (records : List Record) : Bytes := records.flatMap Record.encode

theorem length_encodeAll (records : List Record) :
    (encodeAll records).length = totalSize Record.length records := by
  induction records with
  | nil => rfl
  | cons record records ih =>
    rw [encodeAll] at ih ⊢
    rw [List.flatMap_cons, List.length_append, ih, Record.length_encode, totalSize_cons]

/-- Records that make one instruction. -/
inductive IsInstruction : List Record → Prop where
  | bare {op : Opcode} (hop : op.format = .bare) : IsInstruction [.bare op]
  | regDisp {op : Opcode} (hop : op.format = .regDisp) (reg : UInt8) (disp : Int16) :
    IsInstruction [.regDisp op reg disp]
  | shortImmReg {op : Opcode} (hop : op.format = .shortImmReg) {imm : Int32} {reg : UInt8}
    (hmin : Record.shortMin ≤ imm.toInt) (hmax : imm.toInt ≤ Record.shortMax)
    (hreg : reg ≤ Record.shortRegMax) : IsInstruction [.shortImmReg op imm reg]
  | two16 {op : Opcode} (hop : op.format = .two16) (hi lo : UInt16) :
    IsInstruction [.two16 op hi lo]
  | switch {op : Opcode} (hop : op.format = .switch) (key : UInt8) {count : UInt16}
    {parameters : List Record} (hcount : count.toNat = parameters.length)
    (hkinds : ∀ (i : Nat) (record : Record), parameters[i]? = some record →
      record.FitsParameter (op.isTargetParameter i)) :
    IsInstruction (.switchHeader op key count :: parameters)

/-- An instruction starts with a record that is no parameter, and only parameters follow. -/
theorem IsInstruction.exists_cons {group : List Record} (h : IsInstruction group) :
    ∃ first parameters, group = first :: parameters ∧ first.isParameter = false ∧
      ∀ record ∈ parameters, record.isParameter = true := by
  cases h with
  | bare | regDisp | shortImmReg | two16 => exact ⟨_, [], rfl, rfl, by simp⟩
  | switch hop key hcount hkinds =>
    refine ⟨_, _, rfl, rfl, fun record hmem => ?_⟩
    obtain ⟨i, hi⟩ := List.mem_iff_getElem?.mp hmem
    exact (hkinds i record hi).isParameter

/-! ### Reading instructions -/

/-- The fault of code that ends inside an instruction. -/
abbrev CodeEnds (fault : DisassemblyFault) : Prop := ∃ offset, fault = .truncated offset

/-- The fault of operands that the input ends in. -/
abbrev OperandsEnd (_ : Ended) : Prop := True

theorem reads_parameter {isTarget : Bool} {record : Record} (h : record.FitsParameter isTarget) :
    Reads OperandsEnd (Record.readParameter isTarget) record.encode record := by
  cases record with
  | values hi lo =>
    obtain rfl : isTarget = false := by cases isTarget <;> first | rfl | exact absurd h id
    have h₁ : Reads OperandsEnd _ _ _ := Reads.word16 trivial .little hi
    have h₂ : Reads OperandsEnd _ _ _ := Reads.word16 trivial .little lo
    exact h₁.bind (h₂.bind_pure (f := Record.values hi))
  | target disp =>
    obtain rfl : isTarget = true := by cases isTarget <;> first | rfl | exact absurd h id
    have h₁ : Reads OperandsEnd _ _ _ := Reads.word32 trivial .little disp.toUInt32
    have h₂ := h₁.bind_pure (f := fun word => Record.target word.toInt32)
    rwa [Int32.toInt32_toUInt32] at h₂
  | _ => cases isTarget <;> exact absurd h id

theorem reads_parameters (op : Opcode) : ∀ (parameters : List Record) (index offset : Nat)
    (done : List Record),
    (∀ (i : Nat) (record : Record), parameters[i]? = some record →
      record.FitsParameter (op.isTargetParameter (index + i))) →
    Reads CodeEnds (readParametersOnto op parameters.length index offset done)
      (encodeAll parameters) (done.reverse ++ parameters) := by
  intro parameters
  induction parameters with
  | nil =>
    intro index offset done _
    rw [List.append_nil]
    exact Reads.pure
  | cons record parameters ih =>
    intro index offset done h
    have hfirst := reads_parameter (h 0 record rfl)
    have hfault : Reads CodeEnds ((Record.readParameter (op.isTargetParameter (index + 0))).mapError
        fun _ => .truncated offset) record.encode record :=
      hfirst.mapError fun _ _ => ⟨offset, rfl⟩
    have hrest := ih (index + 1) (offset + Record.parameterLength) (record :: done) (by
      intro i r hr
      have := h (i + 1) r hr
      rwa [Nat.add_right_comm index 1 i])
    rw [List.reverse_cons, List.append_assoc, List.singleton_append] at hrest
    have hstep : readParametersOnto op (parameters.length + 1) index offset done =
        ((Record.readParameter (op.isTargetParameter index)).mapError fun _ =>
          .truncated offset) >>=
          fun record => readParametersOnto op parameters.length (index + 1)
            (offset + Record.parameterLength) (record :: done) := by
      funext bs
      rw [Reader.bind_apply, readParametersOnto, Reader.mapError]
      rcases Record.readParameter (op.isTargetParameter index) bs with e | ⟨r, rest⟩ <;> rfl
    rw [List.length_cons, hstep]
    exact hfault.bind hrest

theorem reads_operands_regDisp {op : Opcode} (hop : op.format = .regDisp) (reg : UInt8)
    (disp : Int16) :
    Reads OperandsEnd (Record.readOperands op) (reg :: digits 2 disp.toUInt16.toNat)
      (.regDisp op reg disp) := by
  have h₁ : Reads OperandsEnd _ _ _ := Reads.byte trivial reg
  have h₂ : Reads OperandsEnd _ _ _ := Reads.word16 trivial .little disp.toUInt16
  have h₃ := h₂.bind_pure (f := fun word => Record.regDisp op reg word.toInt16)
  rw [Int16.toInt16_toUInt16] at h₃
  rw [Record.readOperands, hop]
  exact h₁.bind h₃

theorem reads_operands_shortImmReg {op : Opcode} (hop : op.format = .shortImmReg) {imm : Int32}
    {reg : UInt8} (hmin : Record.shortMin ≤ imm.toInt) (hmax : imm.toInt ≤ Record.shortMax)
    (hreg : reg ≤ Record.shortRegMax) :
    Reads OperandsEnd (Record.readOperands op) (digits 3 (Record.shortWord imm reg))
      (.shortImmReg op imm reg) := by
  have h₁ : Reads OperandsEnd _ _ _ := Reads.nat trivial .little (Record.shortWord_lt imm reg)
  have h₂ := h₁.bind_pure
    (f := fun word => Record.shortImmReg op (Record.shortImm word) (Record.shortReg word))
  rw [Record.shortImm_shortWord reg hmin hmax, Record.shortReg_shortWord imm hreg] at h₂
  rw [Record.readOperands, hop]
  exact h₂

theorem reads_operands_two16 {op : Opcode} (hop : op.format = .two16) (hi lo : UInt16) :
    Reads OperandsEnd (Record.readOperands op) (digits 2 hi.toNat ++ digits 2 lo.toNat)
      (.two16 op hi lo) := by
  have h₁ : Reads OperandsEnd _ _ _ := Reads.word16 trivial .little hi
  have h₂ : Reads OperandsEnd _ _ _ := Reads.word16 trivial .little lo
  rw [Record.readOperands, hop]
  exact h₁.bind (h₂.bind_pure (f := Record.two16 op hi))

theorem reads_operands_switch {op : Opcode} (hop : op.format = .switch) (key : UInt8)
    (count : UInt16) :
    Reads OperandsEnd (Record.readOperands op) (key :: digits 2 count.toNat)
      (.switchHeader op key count) := by
  have h₁ : Reads OperandsEnd _ _ _ := Reads.byte trivial key
  have h₂ : Reads OperandsEnd _ _ _ := Reads.word16 trivial .little count
  rw [Record.readOperands, hop]
  exact h₁.bind (h₂.bind_pure (f := Record.switchHeader op key))

/-- What is left to read after the first record of an instruction. -/
def readTail (offset : Nat) (op : Opcode) (first : Record) :
    Reader DisassemblyFault (List Record × Nat) :=
  match first with
  | .switchHeader _ _ count => do
    let parameters ← readParametersOnto op count.toNat 0 (offset + first.length) []
    return (first :: parameters, first.length + count.toNat * Record.parameterLength)
  | _ => return ([first], first.length)

/-- An instruction is its opcode, the operands of the first record, and the tail. -/
theorem reads_instruction_of_operands {op : Opcode} {first : Record} {s s' : Bytes}
    {result : List Record × Nat} {offset : Nat}
    (h : Reads OperandsEnd (Record.readOperands op) s first)
    (htail : Reads CodeEnds (readTail offset op first) s' result) :
    Reads CodeEnds (readInstruction offset) (op.byte :: (s ++ s')) result := by
  have hbyte : Reads OperandsEnd _ _ _ := Reads.byte trivial op.byte
  have hopcode : Reads CodeEnds (Reader.byte.mapError fun (_ : Ended) => .truncated offset) _ _ :=
    hbyte.mapError fun _ _ => ⟨offset, rfl⟩
  have hfirst : Reads CodeEnds ((Record.readOperands op).mapError fun _ =>
    .truncated offset) s first :=
    h.mapError fun _ _ => ⟨offset, rfl⟩
  rw [readInstruction]
  refine Reads.bind (s := [op.byte]) hopcode ?_
  simp only [Opcode.ofByte?_byte]
  exact hfirst.bind htail

/-- **The bytes of an instruction are read back as that instruction.** -/
theorem reads_instruction {group : List Record} (h : IsInstruction group) (offset : Nat) :
    Reads CodeEnds (readInstruction offset) (encodeAll group)
      (group, totalSize Record.length group) := by
  cases h with
  | @bare op hop =>
    have hread : Reads OperandsEnd (Record.readOperands op) [] (.bare op) := by
      rw [Record.readOperands, hop]
      exact Reads.pure
    exact reads_instruction_of_operands hread Reads.pure
  | regDisp hop reg disp =>
    exact reads_instruction_of_operands (reads_operands_regDisp hop reg disp) Reads.pure
  | shortImmReg hop hmin hmax hreg =>
    exact reads_instruction_of_operands (reads_operands_shortImmReg hop hmin hmax hreg) Reads.pure
  | two16 hop hi lo =>
    exact reads_instruction_of_operands (reads_operands_two16 hop hi lo) Reads.pure
  | @switch op hop key count parameters hcount hkinds =>
    have hparameters := reads_parameters op parameters 0
      (offset + (Record.switchHeader op key count).length) [] (by simpa using hkinds)
    rw [← hcount] at hparameters
    have htail := hparameters.bind_pure (f := fun parameters =>
      (Record.switchHeader op key count :: parameters,
        (Record.switchHeader op key count).length + count.toNat * Record.parameterLength))
    have hsize : totalSize Record.length parameters = count.toNat * Record.parameterLength := by
      rw [hcount]
      exact totalSize_of_forall fun record hmem => by
        obtain ⟨i, hi⟩ := List.mem_iff_getElem?.mp hmem
        exact (hkinds i record hi).length
    rw [totalSize_cons, hsize]
    exact reads_instruction_of_operands (reads_operands_switch hop key count) htail

/-! ### Disassembling -/

/-- **Code made of instructions is cut into these instructions.** -/
theorem instructions_flatMap {groups : List (List Record)}
    (h : ∀ group ∈ groups, IsInstruction group) :
    instructions (groups.flatMap encodeAll) =
      .ok ((offsetsFrom (totalSize Record.length) 0 groups).zip groups) := by
  have hne : ∀ group ∈ groups, encodeAll group ≠ [] := by
    intro group hmem hnil
    obtain ⟨first, parameters, rfl, -⟩ := (h group hmem).exists_cons
    have hlen := length_encodeAll (first :: parameters)
    have := first.length_pos
    rw [hnil, totalSize_cons, List.length_nil] at hlen
    omega
  have hread : ∀ group ∈ groups, ∀ offset rest, readInstruction offset (encodeAll group ++ rest) =
      .ok ((id group, (encodeAll group).length), rest) := by
    intro group hmem offset rest
    rw [length_encodeAll]
    exact (reads_instruction (h group hmem) offset).whole rest
  rw [instructions, Reader.cut_flatMap hne hread, List.map_id]
  simp only [length_encodeAll]

theorem disassemble_flatMap {groups : List (List Record)}
    (h : ∀ group ∈ groups, IsInstruction group) :
    disassemble (groups.flatMap encodeAll) = .ok (Layout.ofList 0 groups.flatten) := by
  have hgroups : ((offsetsFrom (totalSize Record.length) 0 groups).zip groups).flatMap Prod.snd =
      groups.flatten := by
    rw [List.flatMap_def, List.map_snd_zip (Nat.le_of_eq (length_offsetsFrom ..).symm)]
  rw [disassemble, instructions_flatMap h, ← hgroups]
  rfl

/-- Records with their offsets, taken together from the right: the parameters that still want their
switch header, and the instructions behind them. -/
def groupOnto : List (Nat × Record) → List Record × List (Nat × List Record)
  | [] => ([], [])
  | (offset, record) :: rest =>
    match groupOnto rest with
    | (parameters, groups) =>
      if record.isParameter then (record :: parameters, groups)
      else ([], (offset, record :: parameters) :: groups)

/-- Records with their offsets as instructions: each record that is no parameter, together with the
parameters behind it. -/
def grouped (records : List (Nat × Record)) : List (Nat × List Record) := (groupOnto records).2

theorem groupOnto_parameters {parameters : List Record}
    (h : ∀ record ∈ parameters, record.isParameter = true) (start : Nat)
    (rest : List (Nat × Record)) :
    groupOnto ((offsetsFrom Record.length start parameters).zip parameters ++ rest) =
      (parameters ++ (groupOnto rest).1, (groupOnto rest).2) := by
  induction parameters generalizing start with
  | nil => rfl
  | cons record parameters ih =>
    have hrecord := h record List.mem_cons_self
    rw [offsetsFrom, List.zip_cons_cons, List.cons_append, groupOnto,
      ih fun r hr => h r (List.mem_cons_of_mem record hr)]
    simp [hrecord]

theorem groupOnto_flatten {groups : List (List Record)} (h : ∀ group ∈ groups, IsInstruction group)
    (start : Nat) :
    groupOnto ((offsetsFrom Record.length start groups.flatten).zip groups.flatten) =
      ([], (offsetsFrom (totalSize Record.length) start groups).zip groups) := by
  induction groups generalizing start with
  | nil => rfl
  | cons group groups ih =>
    have hrest := ih (fun g hg => h g (List.mem_cons_of_mem group hg))
      (start + totalSize Record.length group)
    obtain ⟨first, parameters, rfl, hfirst, hparameters⟩ := (h group List.mem_cons_self).exists_cons
    rw [List.flatten_cons, offsetsFrom_append, List.zip_append (by rw [length_offsetsFrom]),
      offsetsFrom, List.zip_cons_cons, List.cons_append, groupOnto,
      groupOnto_parameters hparameters, hrest]
    simp [hfirst, offsetsFrom]

/-- Collecting parameters gives back the instructions that records were listed from. -/
theorem grouped_ofList {groups : List (List Record)} (h : ∀ group ∈ groups, IsInstruction group) :
    grouped (Layout.ofList 0 groups.flatten).toList =
      (offsetsFrom (totalSize Record.length) 0 groups).zip groups := by
  rw [Layout.toList_ofList, grouped]
  exact congrArg Prod.snd (groupOnto_flatten h 0)

end Image

end ClassImage
