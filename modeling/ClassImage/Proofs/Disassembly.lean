import ClassImage.Proofs.Assembly

/-!
# The disassembly of a body

What the code of a body disassembles into is said by the body alone. `Body.offsetAt` is the number
of bytes in front of a position, the sum of the lengths of the instructions there, and
`Body.disassembly` lists the records that should come out, with the offsets at which they should
stand. It is written with numbers that have no bound (`Image.Reading`), so that a displacement that
was cut short or read back with the wrong sign would be seen.

* `Body.assemble_disassembles`: the code of a body disassembles into its `disassembly`.
-/

namespace ClassImage

theorem map_eq_of_forall₂ {α β γ : Type} {f : α → γ} {g : β → γ} {as : List α} {bs : List β}
    (h : List.Forall₂ (fun a b => f a = g b) as bs) : as.map f = bs.map g := by
  induction h with
  | nil => rfl
  | cons hfirst _ ih => rw [List.map_cons, List.map_cons, hfirst, ih]

/-! ### Records without bounds -/

namespace Image

/-- What a record says, with numbers of any size. -/
inductive Reading where
  | bare (opcode : Opcode)
  | regDisp (opcode : Opcode) (reg : Nat) (disp : Int)
  | shortImmReg (opcode : Opcode) (imm : Int) (reg : Nat)
  | two16 (opcode : Opcode) (hi lo : Nat)
  | switchHeader (opcode : Opcode) (key count : Nat)
  | values (hi lo : Nat)
  | target (disp : Int)
deriving DecidableEq, Repr

def Record.reading : Record → Reading
  | bare opcode => .bare opcode
  | regDisp opcode reg disp => .regDisp opcode reg.toNat disp.toInt
  | shortImmReg opcode imm reg => .shortImmReg opcode imm.toInt reg.toNat
  | two16 opcode hi lo => .two16 opcode hi.toNat lo.toNat
  | switchHeader opcode key count => .switchHeader opcode key.toNat count.toNat
  | values hi lo => .values hi.toNat lo.toNat
  | target disp => .target disp.toInt

/-- Nothing is lost in a reading. -/
theorem Record.reading_injective : Function.Injective Record.reading := by
  intro record record' h
  cases record <;> cases record' <;>
    simp_all [reading, UInt8.toNat_inj, UInt16.toNat_inj, Int16.toInt_inj, Int32.toInt_inj]

/-- The parameters of a switch are as long as its header, so the records of an instruction stand at
multiples of this length. -/
theorem IsInstruction.zip_offsetsFrom {group : List Record} (h : IsInstruction group)
    (start : Nat) :
    (offsetsFrom Record.length start group).zip group =
      group.zipIdx.map fun entry => (start + Record.parameterLength * entry.2, entry.1) := by
  cases h with
  | bare | regDisp | shortImmReg | two16 => rfl
  | @switch op hop key count parameters hcount hparameters =>
    refine zip_offsetsFrom_of_forall start fun record hmem => ?_
    rcases List.mem_cons.mp hmem with rfl | hmem
    · rfl
    · obtain ⟨i, hi⟩ := List.mem_iff_getElem?.mp hmem
      exact (hparameters i record hi).length

end Image

namespace Body

open Conversion (Settings)
open Image (Record Reading IsInstruction)

/-- The number of bytes in front of a position. -/
def offsetAt (body : Body) (position : Nat) : Nat :=
  totalSize Instruction.length (body.instructions.take position)

/-- The way in bytes from one position to another, negative if it goes back. -/
def wayTo (body : Body) (position target : Nat) : Int :=
  (body.offsetAt target : Int) - body.offsetAt position

/-- The number that a displacement of the instruction at a position stands for. -/
def Displacement.amount (body : Body) (position : Nat) : Displacement → Int
  | value number => number.toInt
  | branch target => body.wayTo position target

/-- The number of a register in a short field. -/
def Register.shortNumber (reg : Register) : Nat := if reg = stack then 63 else reg.number.toNat

/-- What a parameter of the switch at a position reads as. -/
def Parameter.reading (body : Body) (position : Nat) : Parameter → Reading
  | values hi lo => .values hi.toNat lo.toNat
  | target destination => .target (body.wayTo position destination)

/-- What the records of the instruction at a position read as. -/
def Instruction.readings (body : Body) (position : Nat) (insn : Instruction) : List Reading :=
  match insn.operands with
  | .bare => [.bare insn.opcode]
  | .regDisp reg disp => [.regDisp insn.opcode reg.number.toNat (disp.amount body position)]
  | .shortImmReg imm reg => [.shortImmReg insn.opcode (imm.amount body position) reg.shortNumber]
  | .two16 hi lo => [.two16 insn.opcode hi.toNat lo.toNat]
  | .switch key parameters =>
    .switchHeader insn.opcode key.number.toNat parameters.length :: parameters.map
      (Parameter.reading body position)

/-- What the code of a body should disassemble into: the readings of each instruction from its
offset on, four bytes apart. -/
def disassembly (body : Body) : List (Nat × Reading) :=
  body.instructions.zipIdx.flatMap fun placed =>
    (placed.1.readings body placed.2).zipIdx.map fun entry =>
      (body.offsetAt placed.2 + 4 * entry.2, entry.1)

theorem getElem?_starts {body : Body} {position : Nat} (h : position < body.instructions.length) :
    body.starts[position]? = some (body.offsetAt position) := by
  rw [starts, getElem?_offsetsFrom _ 0 h, Nat.zero_add]
  rfl

/-- An instruction ends where the next one starts. -/
theorem offsetAt_succ {body : Body} {position : Nat} {insn : Instruction}
    (h : body.instructions[position]? = some insn) :
    body.offsetAt (position + 1) = body.offsetAt position + insn.length := by
  rw [offsetAt, offsetAt, List.take_add_one, h, totalSize_append,
    Option.toList_some, totalSize_cons, totalSize_nil, Nat.add_zero]

theorem offsetAt_mono (body : Body) {position later : Nat} (h : position ≤ later) :
    body.offsetAt position ≤ body.offsetAt later := by
  obtain ⟨n, rfl⟩ := Nat.exists_eq_add_of_le h
  rw [offsetAt, offsetAt, List.take_add, totalSize_append]
  exact Nat.le_add_right _ _

/-- Every position up to the end of the body has its offset. -/
theorem offsetOf?_of_le {body : Body} {position : Nat} (h : position ≤ body.instructions.length) :
    offsetOf? body.layout position = some (body.offsetAt position) := by
  rw [offsetOf?_eq]
  by_cases heq : position = body.instructions.length
  · rw [if_pos heq, heq, offsetAt, List.take_length]
    rfl
  · rw [if_neg heq]
    exact getElem?_starts (by omega)

theorem eq_offsetAt {body : Body} {position offset : Nat}
    (h : offsetOf? body.layout position = some offset) :
    offset = body.offsetAt position := by
  have hle : position ≤ body.instructions.length := by
    rw [offsetOf?_eq_append] at h
    have hlt := (List.getElem?_eq_some_iff.mp h).1
    rw [List.length_append, length_starts, List.length_singleton] at hlt
    omega
  rw [offsetOf?_of_le hle] at h
  exact (Option.some.inj h).symm

/-! ### The readings of one instruction -/

section Place

variable {body : Body} {position : Nat}

/-- The place of an instruction of a body. -/
def placeAt (body : Body) (position : Nat) : Place :=
  ⟨body.layout, position, body.offsetAt position⟩

theorem eq_wayTo {target : Nat} {distance : Int}
    (h : (body.placeAt position).distance target = .ok distance) :
    distance = body.wayTo position target := by
  rw [Place.distance] at h
  split at h
  · rename_i offset hoffset
    rw [← Except.ok.inj h, eq_offsetAt hoffset]
    rfl
  · simp at h

theorem eq_amount {disp : Displacement} {amount : Int}
    (h : (body.placeAt position).resolve disp = .ok amount) :
    amount = disp.amount body position := by
  cases disp with
  | value number => exact (Except.ok.inj h).symm
  | branch target => exact eq_wayTo h

theorem toNat_shortField? {reg : Register} {field : UInt8} (h : reg.shortField? = some field) :
    field.toNat = reg.shortNumber := by
  rw [Register.shortField?] at h
  rw [Register.shortNumber]
  split at h
  · rename_i hstack
    rw [if_pos hstack, ← Option.some.inj h]
    rfl
  · rename_i hstack
    rw [if_neg hstack]
    split at h
    · rw [← Option.some.inj h]
    · simp at h

theorem reading_of_makesParameter {isTarget : Bool} {param : Parameter} {record : Record}
    (h : (body.placeAt position).MakesParameter isTarget param record) :
    record.reading = param.reading body position := by
  cases h with
  | values hi lo => rfl
  | target hdistance => rw [Record.reading, eq_wayTo hdistance, Parameter.reading]

/-- The records of an instruction read as they should. -/
theorem readings_of_makes {insn : Instruction} {group : List Record}
    (h : (body.placeAt position).Makes insn group) :
    group.map Record.reading = insn.readings body position := by
  rw [Instruction.readings]
  cases h with
  | bare hop hinsn => rw [hinsn]; rfl
  | regDisp hop hinsn hamount =>
    rw [hinsn, List.map_singleton, Record.reading, eq_amount hamount]
  | shortImmReg hop hinsn hfield hamount =>
    rw [hinsn, List.map_singleton, Record.reading, eq_amount hamount, toNat_shortField? hfield]
  | two16 hop hinsn => rw [hinsn]; rfl
  | @switch hop key parameters hinsn count hcount records hrecords =>
    have hreadings : List.Forall₂ (fun record param =>
        record.reading = Parameter.reading body position (Prod.fst param))
        records parameters.zipIdx :=
      hrecords.flip.imp fun _ _ => reading_of_makesParameter
    have hmap : records.map Record.reading = parameters.map (Parameter.reading body position) := by
      have hfst := congrArg (List.map (Parameter.reading body position))
        (List.zipIdx_map_fst 0 parameters)
      rw [map_eq_of_forall₂ hreadings, ← hfst, List.map_map]
      rfl
    rw [hinsn, List.map_cons, Record.reading, hcount, hmap]

end Place

/-! ### The readings of a body -/

/-- **The emitter and the disassembler agree on every body.** The code is as long as its
instructions, 16-bit offsets reach all of it, and it disassembles into the records that the body
asks for. -/
theorem assemble_disassembles {settings : Settings} {body : Body} {assembly : Assembly}
    (h : body.assemble settings = .ok assembly) :
    assembly.code.length = totalSize Instruction.length body.instructions ∧
      assembly.code.length ≤ 0xFFFF ∧
      ∃ records, Image.disassemble assembly.code = .ok records ∧
        records.toList.map (Prod.map id Record.reading) = body.disassembly := by
  obtain ⟨groups, hgroups⟩ := assemble_ok h
  refine ⟨hgroups.length_code, Nat.le_trans (Nat.le_of_eq hgroups.length_code) hgroups.stop_le,
    Layout.ofList 0 groups.flatten, ?_, ?_⟩
  · rw [hgroups.code_eq]
    exact Image.disassemble_flatMap hgroups.isInstruction
  · have hlist : (Layout.ofList 0 groups.flatten).toList =
        (offsetsFrom Record.length 0 groups.flatten).zip groups.flatten :=
      Layout.toList_ofList 0 groups.flatten
    rw [hlist, zip_offsetsFrom_flatten, hgroups.offsetsFrom_groups, List.map_flatMap, disassembly,
      List.flatMap_def, List.flatMap_def]
    -- The groups and the instructions are compared position by position.
    refine congrArg List.flatten (map_eq_of_forall₂ (forall₂_of_getElem? ?_ ?_))
    · rw [List.length_zip, List.length_zipIdx, length_starts, hgroups.length_groups, Nat.min_self]
    · rintro i ⟨offset, group⟩ ⟨insn, position⟩ hplaced hinsn
      obtain ⟨hstart, hgroup⟩ := List.getElem?_zip_eq_some.mp hplaced
      rw [List.getElem?_zipIdx, Option.map_eq_some_iff] at hinsn
      obtain ⟨insn', hinsn, heq⟩ := hinsn
      obtain ⟨rfl, rfl⟩ := Prod.mk.inj heq
      obtain ⟨offset', group', hstart', hgroup', hmakes⟩ := hgroups.exists_group hinsn
      obtain rfl := Option.some.inj (hstart.symm.trans hstart')
      obtain rfl := Option.some.inj (hgroup.symm.trans hgroup')
      rw [Nat.zero_add]
      obtain rfl :=
        Option.some.inj (hstart.symm.trans (getElem?_starts (List.getElem?_eq_some_iff.mp hinsn).1))
      rw [hmakes.isInstruction.zip_offsetsFrom, ← readings_of_makes hmakes,
        List.zipIdx_map, List.map_map, List.map_map]
      rfl

/-- A branch forward, a jump back and a switch with targets on both sides. -/
def branchSample : Body where
  instructions := [⟨.branch (.zero .eq), 1, .shortImmReg (.branch 3) .stack⟩,
    ⟨.increment, 1, .regDisp ⟨2⟩ (.value (-300))⟩, ⟨.goto, 2, .regDisp .pc (.branch 0)⟩,
    ⟨.lookupSwitch, 2, .switch .stack [.target 4, .values 0 7, .target 1]⟩,
    ⟨.plain .returnVoid, 3, .bare⟩]
  handlers := []
  maxStack := 1
  maxLocals := 3

theorem branchSample_disassembles : ∃ assembly, branchSample.assemble {} = .ok assembly ∧
    assembly.code.length = 29 ∧ ∃ records, Image.disassemble assembly.code = .ok records ∧
      records.toList.map (Prod.map id Record.reading) =
        [(0, .shortImmReg (.branch (.zero .eq)) 12 63), (4, .regDisp .increment 2 (-300)),
          (8, .regDisp .goto 254 (-8)), (12, .switchHeader .lookupSwitch 255 3), (16, .target 16),
          (20, .values 0 7), (24, .target (-8)), (28, .bare (.plain .returnVoid))] := by
  obtain ⟨assembly, hok⟩ : ∃ assembly, branchSample.assemble {} = .ok assembly := ⟨_, rfl⟩
  obtain ⟨hlength, -, records, hrecords, hlist⟩ := assemble_disassembles hok
  exact ⟨assembly, hok, hlength, records, hrecords, hlist⟩

end Body

end ClassImage
