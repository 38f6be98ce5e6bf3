import ClassImage.Conversion.Lowering
import ClassImage.Proofs.Assembly
import ClassImage.Proofs.Body

/-!
# What instructions mean

Both instruction sets are given a meaning in the same terms: the operation, with every operand
looked up until nothing refers to a table or to an encoding any more. Slots, indices and halves of
words are gone, and a jump names the position of an instruction in its sequence.

* `Op.meaning` reads a decoded operation through the constant pool of its class file.
* `Tables.meaning` reads an opcode with its operands through the tables of an image and the names of
  classes; `Image.locate` finds opcode and operands in the records of an instruction.

Reading asks for more than is needed to execute: operands that an opcode has no use for must be
zero. It commutes with renaming the positions that instructions refer to
(`Tables.meaning_mapTargets`).
-/

namespace ClassImage

open ClassFile (ConstantPool MemberRef)

/-- What an instruction does. -/
inductive Meaning where
  | plain (op : Plain)
  | pushInt (value : Int32)
  | pushFloat (bits : UInt32)
  | pushLong (value : Int64)
  | pushDouble (bits : UInt64)
  | pushString (text : String)
  | pushClass (name : String)
  | load (kind : ValueKind) (slot : Nat)
  | store (kind : ValueKind) (slot : Nat)
  | increment (slot : Nat) (amount : Int)
  | goto (target : Nat)
  | branch (condition : Condition) (target : Nat)
  | tableSwitch (low high : Int) (default : Nat) (targets : List Nat)
  | lookupSwitch (default : Nat) (cases : List (Int32 × Nat))
  | field (access : FieldAccess) (member : MemberRef)
  | invoke (invocation : Invocation) (member : MemberRef)
  | onClass (op : ClassOperation) (name : String)
  | newArray (elementType : Nat)
  | newMultiArray (name : String) (dimensions : Nat)
deriving DecidableEq, Repr

/-- The position of the instruction that starts at an offset. -/
def positionIn (starts : List Nat) (offset : Int) : Option Nat :=
  starts.findIdx? fun (start : Nat) => (start : Int) == offset

theorem positionIn_eq_some {starts : List Nat} (hstarts : starts.Pairwise (· < ·)) {i offset : Nat}
    (h : starts[i]? = some offset) : positionIn starts offset = some i := by
  obtain ⟨hi, rfl⟩ := List.getElem?_eq_some_iff.mp h
  refine List.findIdx?_eq_some_iff_getElem.mpr ⟨hi, by simp, fun j hj => ?_⟩
  have hlt := List.pairwise_iff_getElem.mp hstarts j i (Nat.lt_trans hj hi) hi hj
  simp
  omega

theorem mem_of_positionIn_eq_some {starts : List Nat} {offset : Int} {i : Nat}
    (h : positionIn starts offset = some i) : ∃ start ∈ starts, (start : Int) = offset := by
  obtain ⟨hi, hstart, -⟩ := List.findIdx?_eq_some_iff_getElem.mp h
  exact ⟨starts[i], List.getElem_mem hi, by simpa using hstart⟩

/-! ### Decoded operations -/

namespace Bytecode

/-- Pushing a constant. -/
def pushMeaning (constants : ConstantPool) (isWide : Bool) (constant : ClassFile.Constant) :
    Option Meaning :=
  match isWide, constant with
  | false, .integer value => some (.pushInt value)
  | false, .float bits => some (.pushFloat bits)
  | false, .string text => (constants.utf8 text).toOption.map .pushString
  | false, .classRef name => (constants.utf8 name).toOption.map .pushClass
  | true, .long value => some (.pushLong value)
  | true, .double bits => some (.pushDouble bits)
  | _, _ => none

/-- What a decoded operation does, in code whose operations start at `starts`. -/
def Op.meaning (constants : ConstantPool) (starts : List Nat) : Op → Option Meaning
  | .plain op => some (.plain op)
  | .pushInt _ value => some (.pushInt value)
  | .load isWide index => (constants.get index).toOption.bind (pushMeaning constants isWide)
  | .localVar (.load kind) slot => some (.load kind slot.toNat)
  | .localVar (.store kind) slot => some (.store kind slot.toNat)
  | .localVar .ret _ => none
  | .increment slot amount => some (.increment slot.toNat amount.toInt)
  | .branch (.when condition) target => (positionIn starts target).map (.branch condition)
  | .branch .goto target => (positionIn starts target).map .goto
  | .branch .jsr _ => none
  | .tableSwitch default low targets => do
    return .tableSwitch low.toInt (low.toInt + targets.length - 1) (← positionIn starts default)
      (← targets.mapM fun (target : Nat) => positionIn starts target)
  | .lookupSwitch default cases => do
    return .lookupSwitch (← positionIn starts default)
      (← cases.mapM fun (key, target) => do return (key, ← positionIn starts target))
  | .field access index => (constants.fieldRef index).toOption.map (.field access)
  | .invoke call index => (constants.methodRef index).toOption.map (.invoke call.invocation)
  | .invokeDynamic _ => none
  | .onClass op index => (constants.className index).toOption.map (.onClass op)
  | .newArray elementType => some (.newArray elementType.toNat)
  | .newMultiArray index dimensions =>
    (constants.className index).toOption.map (.newMultiArray · dimensions.toNat)

end Bytecode

/-! ### Instructions of an image -/

open Image (Opcode Record)
open Body (Operands Displacement Parameter Register Instruction)

/-- What the numbers of an image refer to: the names of classes, and the three tables of the
image. -/
structure Tables where
  classes : List String
  names : List String
  constants : List Image.Constant
  members : List Image.Member

namespace Tables

/-- The class, name and descriptor of a member. -/
def member? (tables : Tables) (owner member : UInt16) : Option MemberRef := do
  let member ← tables.members[member.toNat]?
  return {
    owner := ← tables.classes[owner.toNat]?
    name := ← tables.names[member.name.toNat]?
    descriptor := ← tables.names[member.descriptor.toNat]? }

/-- Pushing a constant of the image. -/
def constantMeaning (tables : Tables) (opcode : Opcode) (index : UInt16) : Option Meaning :=
  match opcode, tables.constants[index.toNat]? with
  | .pushLong, some (.long value) => some (.pushLong value)
  | .pushDouble, some (.double bits) => some (.pushDouble bits)
  | .pushString, some (.string name) => tables.names[name.toNat]?.map .pushString
  | _, _ => none

/-- The keys and cases of a lookup switch. -/
def lookupCases : List Parameter → Option (List (Int32 × Nat))
  | [] => some []
  | .values hi lo :: .target position :: rest =>
    (lookupCases rest).map (((ofHalves hi lo).toInt32, position) :: ·)
  | _ => none

/-- What a switch does, by its parameters. -/
def switchMeaning : Opcode → List Parameter → Option Meaning
  | .tableSwitch, .values lowHi lowLo :: .values highHi highLo :: .target default :: rest =>
    (rest.mapM Parameter.target?).map <| .tableSwitch (ofHalves lowHi lowLo).toInt32.toInt
      (ofHalves highHi highLo).toInt32.toInt default
  | .lookupSwitch, .target default :: rest => (lookupCases rest).map (.lookupSwitch default)
  | _, _ => none

/-- What an opcode with one register and a displacement does. -/
def regDispMeaning (opcode : Opcode) (reg : Register) (disp : Displacement) : Option Meaning :=
  match opcode, disp with
  | .load kind, .value amount =>
    if reg.number < 254 ∧ amount = 0 then some (.load kind reg.number.toNat) else none
  | .store kind, .value amount =>
    if reg.number < 254 ∧ amount = 0 then some (.store kind reg.number.toNat) else none
  | .increment, .value amount =>
    if reg.number < 254 then some (.increment reg.number.toNat amount.toInt) else none
  | .goto, .branch target => if reg = .pc then some (.goto target) else none
  | _, _ => none

/-- What an opcode with two 16-bit values does. -/
def two16Meaning (tables : Tables) (opcode : Opcode) (hi lo : UInt16) : Option Meaning :=
  match opcode with
  | .pushInt => some (.pushInt (ofHalves hi lo).toInt32)
  | .pushFloat => some (.pushFloat (ofHalves hi lo))
  | .field access => (tables.member? hi lo).map (.field access)
  | .invoke invocation => (tables.member? hi lo).map (.invoke invocation)
  | .newMultiArray => tables.classes[hi.toNat]?.map (.newMultiArray · lo.toNat)
  | .pushLong | .pushDouble
  | .pushString => if lo = 0 then tables.constantMeaning opcode hi else none
  | .pushClass => if lo = 0 then tables.classes[hi.toNat]?.map .pushClass else none
  | .onClass op => if lo = 0 then tables.classes[hi.toNat]?.map (.onClass op) else none
  | .newArray => if lo = 0 then some (.newArray hi.toNat) else none
  | _ => none

/-- **What an instruction does, read through the tables.** -/
def meaning (tables : Tables) (opcode : Opcode) : Operands → Option Meaning
  | .bare =>
    match opcode with
    | .plain op => some (.plain op)
    | _ => none
  | .regDisp reg disp => regDispMeaning opcode reg disp
  | .shortImmReg imm reg =>
    match opcode, imm with
    | .pushShort, .value value => if reg = .stack then some (.pushInt value) else none
    | .branch condition, .branch target => if reg = .stack then some (.branch condition target)
        else none
    | _, _ => none
  | .two16 hi lo => tables.two16Meaning opcode hi lo
  | .switch key parameters => if key = .stack then switchMeaning opcode parameters else none

end Tables

/-! ### Renamed positions -/

/-- Renames the positions that are jumped to. -/
def Meaning.mapTargets (f : Nat → Nat) : Meaning → Meaning
  | goto target => goto (f target)
  | branch condition target => branch condition (f target)
  | tableSwitch low high default targets => tableSwitch low high (f default) (targets.map f)
  | lookupSwitch default cases => lookupSwitch (f default)
      (cases.map fun (key, target) => (key, f target))
  | m => m

namespace Tables

theorem mapM_target?_map (f : Nat → Nat) (parameters : List Parameter) :
    (parameters.map (Parameter.mapTarget f)).mapM Parameter.target? =
      (parameters.mapM Parameter.target?).map (List.map f) := by
  induction parameters with
  | nil => rfl
  | cons param parameters ih =>
    rw [List.map_cons, List.mapM_cons, List.mapM_cons, ih, Parameter.target?_mapTarget]
    cases param.target? <;> cases parameters.mapM Parameter.target? <;> rfl

theorem lookupCases_map (f : Nat → Nat) (parameters : List Parameter) :
    lookupCases (parameters.map (Parameter.mapTarget f)) =
      (lookupCases parameters).map (List.map fun (key, target) => (key, f target)) := by
  fun_induction lookupCases parameters with
  | case1 => rfl
  | case2 hi lo position rest ih =>
    rw [List.map_cons, List.map_cons, Parameter.mapTarget, Parameter.mapTarget, lookupCases, ih]
    cases lookupCases rest <;> rfl
  | case3 parameters hnil hcons =>
    rcases parameters with _ | ⟨_ | _, _ | ⟨_ | _, _⟩⟩
    case nil => exact absurd rfl hnil
    case cons.values.cons.target => exact absurd rfl (hcons _ _ _ _)
    all_goals rfl

theorem switchMeaning_map (f : Nat → Nat) (opcode : Opcode) (parameters : List Parameter) :
    switchMeaning opcode (parameters.map (Parameter.mapTarget f)) =
      (switchMeaning opcode parameters).map (Meaning.mapTargets f) := by
  cases opcode with
  | tableSwitch =>
    rcases parameters with _ | ⟨_ | _, _ | ⟨_ | _, _ | ⟨_ | default, rest⟩⟩⟩
    case cons.values.cons.values.cons.target =>
      simp only [List.map_cons, Parameter.mapTarget, switchMeaning, mapM_target?_map]
      cases rest.mapM Parameter.target? <;> rfl
    all_goals rfl
  | lookupSwitch =>
    rcases parameters with _ | ⟨_ | default, rest⟩
    case cons.target =>
      simp only [List.map_cons, Parameter.mapTarget, switchMeaning, lookupCases_map]
      cases lookupCases rest <;> rfl
    all_goals rfl
  | _ => rfl

theorem regDispMeaning_mapTarget (f : Nat → Nat) (opcode : Opcode) (reg : Register)
    (disp : Displacement) :
    regDispMeaning opcode reg (disp.mapTarget f) =
      (regDispMeaning opcode reg disp).map (Meaning.mapTargets f) := by
  cases disp <;> cases opcode <;> simp only [Displacement.mapTarget, regDispMeaning] <;>
    first | rfl | (split <;> rfl)

theorem two16Meaning_map (f : Nat → Nat) (tables : Tables) (opcode : Opcode) (hi lo : UInt16) :
    (tables.two16Meaning opcode hi lo).map (Meaning.mapTargets f) =
      tables.two16Meaning opcode hi lo := by
  have hconstant : (tables.constantMeaning opcode hi).map (Meaning.mapTargets f) =
      tables.constantMeaning opcode hi := by
    unfold constantMeaning
    split
    case h_3 name _ => cases tables.names[name.toNat]? <;> rfl
    all_goals rfl
  cases opcode with
  | field | invoke =>
    simp only [two16Meaning]
    cases tables.member? hi lo <;> rfl
  | pushLong | pushDouble | pushString =>
    simp only [two16Meaning]
    split
    · exact hconstant
    · rfl
  | newMultiArray =>
    simp only [two16Meaning]
    cases tables.classes[hi.toNat]? <;> rfl
  | pushClass | onClass =>
    simp only [two16Meaning]
    split
    · cases tables.classes[hi.toNat]? <;> rfl
    · rfl
  | newArray =>
    simp only [two16Meaning]
    split <;> rfl
  | _ => rfl

/-- **Renaming positions renames the positions that are jumped to.** -/
theorem meaning_mapTargets (f : Nat → Nat) (tables : Tables) (opcode : Opcode)
    (operands : Operands) :
    tables.meaning opcode (operands.mapTargets f) =
      (tables.meaning opcode operands).map (Meaning.mapTargets f) := by
  cases operands with
  | bare => cases opcode <;> rfl
  | regDisp reg disp => exact regDispMeaning_mapTarget f opcode reg disp
  | shortImmReg imm reg =>
    cases imm <;> cases opcode <;> simp only [Operands.mapTargets,
      Displacement.mapTarget, meaning] <;> first | rfl | (split <;> rfl)
  | two16 hi lo => exact (two16Meaning_map f tables opcode hi lo).symm
  | switch key parameters =>
    simp only [Operands.mapTargets, meaning]
    split
    · exact switchMeaning_map f opcode parameters
    · rfl

end Tables

/-! ### Records of an instruction -/

namespace Image

/-- Whether the displacement of an opcode is the distance to an instruction. -/
def Opcode.jumps : Opcode → Bool
  | goto | branch _ => true
  | _ => false

/-- The register that a short register field names. -/
def shortRegister (field : UInt8) : Register :=
  if field = Record.shortRegMax then .stack else ⟨field⟩

section Locate

variable (starts : List Nat) (offset : Nat)

/-- The displacement of the instruction at an offset; a distance becomes a position. -/
def locateDisplacement (opcode : Opcode) (amount : Int) : Option Displacement :=
  if opcode.jumps then (positionIn starts (offset + amount)).map .branch
  else some (.value (Int32.ofInt amount))

/-- The parameter of the switch at an offset. -/
def locateParameter : Record → Option Parameter
  | .values hi lo => some (.values hi lo)
  | .target disp => (positionIn starts (offset + disp.toInt)).map .target
  | _ => none

/-- Opcode and operands of the instruction at an offset, from its records. -/
def locate : List Record → Option (Opcode × Operands)
  | [.bare opcode] => some (opcode, .bare)
  | [.regDisp opcode reg disp] =>
    (locateDisplacement starts offset opcode disp.toInt).map fun disp =>
      (opcode, .regDisp ⟨reg⟩ disp)
  | [.shortImmReg opcode imm reg] =>
    (locateDisplacement starts offset opcode imm.toInt).map fun imm =>
      (opcode, .shortImmReg imm (shortRegister reg))
  | [.two16 opcode hi lo] => some (opcode, .two16 hi lo)
  | .switchHeader opcode key _ :: parameters =>
    (parameters.mapM (locateParameter starts offset)).map fun parameters =>
      (opcode, .switch ⟨key⟩ parameters)
  | _ => none

end Locate

/-- What the instruction at an offset does, read through the tables. -/
def meaningAt (tables : Tables) (starts : List Nat) (offset : Nat) (group : List Record) :
    Option Meaning :=
  (locate starts offset group).bind fun (opcode, operands) => tables.meaning opcode operands

end Image

/-! ### Laid out instructions keep their operands -/

theorem mapM_eq_some_of_forall₂ {α β : Type} {f : α → Option β} {as : List α} {bs : List β}
    (h : List.Forall₂ (fun a b => f a = some b) as bs) : as.mapM f = some bs := by
  induction h with
  | nil => rfl
  | cons hab _ ih => rw [List.mapM_cons, hab, ih]; rfl

theorem exists_eq_some_of_mapM {α β : Type} {f : α → Option β} {as : List α} {bs : List β}
    (h : as.mapM f = some bs) {a : α} (ha : a ∈ as) : ∃ b, f a = some b := by
  induction as generalizing bs with
  | nil => exact absurd ha List.not_mem_nil
  | cons first as ih =>
    rw [List.mapM_cons] at h
    obtain ⟨b, hb, h⟩ := Option.bind_eq_some_iff.mp h
    obtain ⟨rest, hrest, -⟩ := Option.bind_eq_some_iff.mp h
    rcases List.mem_cons.mp ha with rfl | ha
    · exact ⟨b, hb⟩
    · exact ih hrest ha

namespace Body

open Image (locate locateDisplacement locateParameter)

/-- Whether a displacement refers to an instruction. -/
def Displacement.isBranch : Displacement → Bool
  | value _ => false
  | branch _ => true

/-- Among instructions with a register and a displacement, those refer to another one that jump. -/
theorem isBranch_of_regDispMeaning {opcode : Opcode} {reg : Register} {disp : Displacement}
    {m : Meaning} (h : Tables.regDispMeaning opcode reg disp = some m) :
    disp.isBranch = opcode.jumps := by
  unfold Tables.regDispMeaning at h
  split at h <;> first | rfl | exact absurd h (by simp)

theorem isBranch_of_shortMeaning {tables : Tables} {opcode : Opcode} {reg : Register}
    {imm : Displacement} {m : Meaning} (h : tables.meaning opcode (.shortImmReg imm reg) = some m) :
    imm.isBranch = opcode.jumps := by
  simp only [Tables.meaning] at h
  split at h <;> first | rfl | exact absurd h (by simp)

section Locate

variable {body : Body} {i offset : Nat}

/-- The distance to an instruction leads to its position. -/
theorem positionIn_of_distance {target : Nat} {amount : Int}
    (htarget : target < body.instructions.length)
    (h : Place.distance ⟨body.layout, i, offset⟩ target = .ok amount) :
    positionIn body.starts (offset + amount) = some target := by
  rw [Place.distance] at h
  split at h
  · rename_i start hstart
    obtain rfl := Except.ok.inj h
    have hsame : (offset : Int) + ((start : Int) - offset) = start := by omega
    rw [hsame]
    exact positionIn_eq_some body.pairwise_starts (offsetOf?_of_lt htarget hstart)
  · exact absurd h (by simp)

theorem locateDisplacement_of_resolve {opcode : Opcode} {disp : Displacement} {amount : Int}
    (hbound : ∀ target ∈ disp.targets, target < body.instructions.length)
    (hkind : disp.isBranch = opcode.jumps)
    (h : Place.resolve ⟨body.layout, i, offset⟩ disp = .ok amount) :
    locateDisplacement body.starts offset opcode amount = some disp := by
  cases disp with
  | value number =>
    obtain rfl := Except.ok.inj h
    rw [locateDisplacement, ← hkind, Int32.ofInt_toInt]
    rfl
  | branch target =>
    have hposition := positionIn_of_distance (hbound target (List.mem_singleton.mpr rfl)) h
    rw [locateDisplacement, ← hkind, hposition]
    rfl

theorem shortRegister_of_shortField? {reg : Register} {field : UInt8}
    (h : reg.shortField? = some field) :
    Image.shortRegister field = reg := by
  rw [Register.shortField?] at h
  split at h
  · rename_i hstack
    obtain rfl := Option.some.inj h
    rw [hstack, Image.shortRegister, if_pos rfl]
  · split at h
    · rename_i hlt
      obtain rfl := Option.some.inj h
      rw [Image.shortRegister, if_neg (UInt8.ne_of_lt hlt)]
    · exact absurd h (by simp)

theorem locateParameter_of_makes {isTarget : Bool} {param : Parameter} {record : Record}
    (hbound : ∀ target, param.target? = some target → target < body.instructions.length)
    (h : Place.MakesParameter ⟨body.layout, i, offset⟩ isTarget param record) :
    locateParameter body.starts offset record = some param := by
  cases h with
  | values hi lo => rfl
  | target hdistance =>
    rw [locateParameter, positionIn_of_distance (hbound _ rfl) hdistance]
    rfl

theorem mapM_locateParameter {insn : Instruction} {parameters : List Parameter}
    {records : List Record} (hbound : ∀ target ∈ parameters.filterMap Parameter.target?,
      target < body.instructions.length)
    (h : List.Forall₂ (fun param record => Place.MakesParameter ⟨body.layout, i, offset⟩
      (insn.opcode.isTargetParameter param.2) param.1 record) parameters.zipIdx records) :
    records.mapM (locateParameter body.starts offset) = some parameters := by
  have hparams : ∀ param ∈ parameters.zipIdx, ∀ target, param.1.target? = some target →
      target < body.instructions.length := by
    intro param hmem target htarget
    have hparam : param.1 ∈ parameters :=
      List.mem_of_getElem? (List.mem_zipIdx_iff_getElem?.mp hmem)
    exact hbound target (List.mem_filterMap.mpr ⟨param.1, hparam, htarget⟩)
  have hlocate : List.Forall₂ (fun record param =>
      locateParameter body.starts offset record = some param.1) records parameters.zipIdx :=
    ((List.forall₂_and_left _ _).mpr ⟨hparams, h⟩).flip.imp
      fun _ _ ⟨hbound, hmakes⟩ => locateParameter_of_makes hbound hmakes
  have := mapM_eq_some_of_forall₂ (List.forall₂_map_right_iff.mpr hlocate)
  rwa [List.zipIdx_map_fst] at this

/-- **The records of an instruction that means something give back its opcode and operands.** -/
theorem locate_of_makes {tables : Tables} {insn : Instruction} {group : List Record} {m : Meaning}
    (hbound : ∀ target ∈ insn.targets, target < body.instructions.length)
    (hmeaning : tables.meaning insn.opcode insn.operands = some m)
    (h : Place.Makes ⟨body.layout, i, offset⟩ insn group) :
    locate body.starts offset group = some (insn.opcode, insn.operands) := by
  rw [Instruction.targets] at hbound
  cases h with
  | bare hop hinsn => rw [hinsn, locate]
  | regDisp hop hinsn hamount =>
    rw [hinsn] at hmeaning hbound
    rw [hinsn, locate, locateDisplacement_of_resolve hbound
      (isBranch_of_regDispMeaning hmeaning) hamount]
    rfl
  | shortImmReg hop hinsn hfield hamount =>
    rw [hinsn] at hmeaning hbound
    rw [hinsn, locate, locateDisplacement_of_resolve hbound
      (isBranch_of_shortMeaning hmeaning) hamount, shortRegister_of_shortField? hfield]
    rfl
  | two16 hop hinsn => rw [hinsn, locate]
  | switch hop hinsn hcount hrecords =>
    rw [hinsn] at hbound
    rw [hinsn, locate, mapM_locateParameter hbound hrecords]
    rfl

end Locate

/-- **Laid out instructions mean what they meant.** -/
theorem IsAssembly.meaningAt {settings : Conversion.Settings} {body : Body} {assembly : Assembly}
    {groups : List (List Record)} (h : IsAssembly settings body assembly groups)
    (hvalid : body.validate = .ok ()) {i : Nat} {insn : Instruction} {tables : Tables} {m : Meaning}
    (hinsn : body.instructions[i]? = some insn)
    (hmeaning : tables.meaning insn.opcode insn.operands = some m) :
    ∃ offset group, (body.starts.zip groups)[i]? = some (offset, group) ∧
      Image.meaningAt tables body.starts offset group = some m := by
  obtain ⟨offset, group, hoffset, hgroup, hmakes⟩ := h.exists_group hinsn
  have hbound := ((validate_eq_ok_iff body).mp hvalid).1 insn (List.mem_of_getElem? hinsn)
  refine ⟨offset, group, List.getElem?_zip_eq_some.mpr ⟨hoffset, hgroup⟩, ?_⟩
  rw [Image.meaningAt, locate_of_makes hbound hmeaning hmakes]
  exact hmeaning

end Body

end ClassImage
