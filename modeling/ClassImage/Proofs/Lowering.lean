import ClassImage.Conversion.Lowering
import ClassImage.Proofs.Decoding
import ClassImage.Proofs.Workspace

/-!
# Lowering keeps the meaning of operations

Each kind of operation is followed through `lowerOp`: the instruction it becomes means the same in
the tables at that point and in all that they grow into (`adds_lowerOp`). A lowered body is the sum
of this over its operations, with references that are valid (`adds_lower`). That targets are found
rests on the order of the offsets, so the code must be short enough for them.
-/

namespace ClassImage

/-! ### Operands of lowered operations -/

theorem ofHalves_halves (bits : UInt32) : ofHalves (halves bits).1 (halves bits).2 = bits := by
  have hlt := bits.toNat_lt
  refine UInt32.toNat_inj.mp ?_
  rw [halves, ofHalves, UInt32.toNat_ofNat', UInt16.toNat_ofNat', UInt16.toNat_ofNat']
  omega

namespace Conversion

open ClassFile (ConstantPool)
open Bytecode (Op Decoded Jump LocalOperation)
open Body (Instruction Operands Register Displacement Parameter)
open Image (Opcode)

/-- A target that was resolved is where the operation at the position starts. -/
theorem Context.resolve_ok {context : Context} {offset target position : Nat}
    (h : context.resolve offset target = .ok position) :
    context.starts[position]? = some target := by
  unfold Context.resolve at h
  dsimp only at h
  split at h
  · rename_i hstart
    obtain rfl := Except.ok.inj h
    exact hstart
  · exact absurd h (by simp)

theorem localRegister_ok {slot : UInt16} {reg : Register} (h : localRegister slot = .ok reg) :
    reg.number < 254 ∧ reg.number.toNat = slot.toNat := by
  rw [localRegister, Register.ofSlot?] at h
  split at h
  · rename_i hreg
    obtain rfl := Except.ok.inj h
    split at hreg
    · rename_i hlt
      obtain rfl := Option.some.inj hreg
      have hnat : slot.toNat < 254 := UInt16.lt_iff_toNat_lt.mp hlt
      have hsame : slot.toUInt8.toNat = slot.toNat := by
        rw [UInt16.toNat_toUInt8]
        omega
      refine ⟨UInt8.lt_iff_toNat_lt.mpr ?_, hsame⟩
      rw [hsame]
      exact hnat
    · exact absurd hreg (by simp)
  · exact absurd h (by simp)

/-- The instruction means in some tables what the operation means in the class file. -/
def Keeps (constants : ConstantPool) (starts : List Nat) (op : Op) (lowered : Opcode × Operands)
    (T : Tables) : Prop :=
  ∃ m, op.meaning constants starts = some m ∧ T.meaning lowered.1 lowered.2 = some m

section Operations

variable {context : Context} {starts : List Nat} {pre : Tables → Prop}

theorem positionIn_of_resolve (hstarts : context.starts = starts.toArray)
    (hpairwise : starts.Pairwise (· < ·)) {offset target position : Nat}
    (h : context.resolve offset target = .ok position) :
    positionIn starts target = some position := by
  have hat := Context.resolve_ok h
  rw [hstarts, List.getElem?_toArray] at hat
  exact positionIn_eq_some hpairwise hat

theorem adds_classAt (index : UInt16) : Adds pre (context.classAt index) (fun id T =>
    ∃ name, context.constants.className index = .ok name ∧ T.classes[id.toNat]? = some name ∧
      id ≠ Image.absent) := by
  refine Adds.file fun name hname => (Adds.internClass name).mono (fun _ h => h) ?_
  rintro id T - ⟨hclass, hne⟩
  exact ⟨name, hname, hclass, hne⟩

/-- The meaning of pushing a constant, once it was found. -/
theorem meaning_load {isWide : Bool} {index : UInt16} {constant : ClassFile.Constant}
    (hget : context.constants.get index = .ok constant) :
    (Op.load isWide index).meaning context.constants starts =
      Bytecode.pushMeaning context.constants isWide constant := by
  rw [Op.meaning, hget]
  rfl

theorem adds_lowerLoad (isWide : Bool) (index : UInt16) : Adds pre (lowerLoad context isWide index)
    (Keeps context.constants starts (.load isWide index)) := by
  refine Adds.file fun constant hget => ?_
  split
  case h_1 value =>
    split
    · exact Adds.pure fun T _ => ⟨.pushInt value, meaning_load hget, rfl⟩
    · refine Adds.pure fun T _ => ⟨.pushInt value, meaning_load hget, ?_⟩
      show some (Meaning.pushInt (ofHalves (halves _).1 (halves _).2).toInt32) = _
      rw [ofHalves_halves, Int32.toInt32_toUInt32]
  case h_2 bits =>
    refine Adds.pure fun T _ => ⟨.pushFloat bits, meaning_load hget, ?_⟩
    show some (Meaning.pushFloat (ofHalves (halves _).1 (halves _).2)) = _
    rw [ofHalves_halves]
  case h_3 slot =>
    refine Adds.file fun text htext => (Adds.internString text).bind fun i => Adds.pure ?_
    rintro T ⟨-, name, hconstant, hname⟩
    refine ⟨.pushString text, ?_, ?_⟩
    · rw [meaning_load hget, Bytecode.pushMeaning, htext]
      rfl
    · simp only [Tables.meaning, Tables.two16Meaning, Tables.constantMeaning, hconstant, hname]
      rfl
  case h_4 slot =>
    refine (adds_classAt index).bind fun id => Adds.pure ?_
    rintro T ⟨-, name, hname, hclass, -⟩
    rw [ConstantPool.className, hget] at hname
    have htext : context.constants.utf8 slot = .ok name := hname
    refine ⟨.pushClass name, ?_, ?_⟩
    · rw [meaning_load hget, Bytecode.pushMeaning, htext]
      rfl
    · simp only [Tables.meaning, Tables.two16Meaning, hclass]
      rfl
  case h_5 value =>
    refine (Adds.internConstant fun _ _ _ h => absurd h (by simp)).bind fun i => Adds.pure ?_
    rintro T ⟨-, hconstant, -⟩
    refine ⟨.pushLong value, meaning_load hget, ?_⟩
    simp only [Tables.meaning, Tables.two16Meaning, Tables.constantMeaning, hconstant]
    rfl
  case h_6 bits =>
    refine (Adds.internConstant fun _ _ _ h => absurd h (by simp)).bind fun i => Adds.pure ?_
    rintro T ⟨-, hconstant, -⟩
    refine ⟨.pushDouble bits, meaning_load hget, ?_⟩
    simp only [Tables.meaning, Tables.two16Meaning, Tables.constantMeaning, hconstant]
    rfl
  all_goals exact Adds.throw _

theorem adds_lowerMember (ref : ClassFile.MemberRef) : Adds pre (lowerMember ref) (fun operands T =>
    ∃ owner member, operands = .two16 owner member ∧ T.member? owner member = some ref) := by
  refine (Adds.internClass ref.owner).bind fun owner =>
    (Adds.internMember ref.name ref.descriptor).bind fun index => Adds.pure ?_
  rintro T ⟨⟨-, howner, -⟩, member, hmember, hname, hdescriptor⟩
  refine ⟨owner, index, rfl, ?_⟩
  rw [Tables.member?, hmember]
  simp only [bind, Option.bind, howner, hname, hdescriptor]
  rfl

/-! ### Switches -/

theorem halves_ofInt (number : Int32) : ∃ hi lo, Parameter.ofInt number = .values hi lo ∧
    (ofHalves hi lo).toInt32 = number :=
  ⟨(halves number.toUInt32).1, (halves number.toUInt32).2, rfl, by
    rw [ofHalves_halves, Int32.toInt32_toUInt32]⟩

theorem mapM_target? (positions : List Nat) :
    (positions.map Parameter.target).mapM Parameter.target? = some positions := by
  refine mapM_eq_some_of_forall₂ (List.forall₂_map_left_iff.mpr ?_)
  exact List.forall₂_same.mpr fun _ _ => rfl

theorem meaning_tableSwitch (hstarts : context.starts = starts.toArray)
    (hpairwise : starts.Pairwise (· < ·)) {offset default : Nat} {low : Int32} {targets : List Nat}
    {parameters : List Parameter} (hbounded : (Op.tableSwitch default low targets).Bounded)
    (h : tableParameters context offset default low targets = .ok parameters) :
    ∃ m, (Op.tableSwitch default low targets).meaning context.constants starts = some m ∧
      Tables.switchMeaning .tableSwitch parameters = some m := by
  obtain ⟨high, hhigh⟩ := hbounded
  obtain ⟨first, hfirst, h⟩ := bind_eq_ok_iff.mp h
  obtain ⟨rest, hrest, h⟩ := bind_eq_ok_iff.mp h
  obtain rfl := Except.ok.inj h
  have hdefault := positionIn_of_resolve hstarts hpairwise hfirst
  have htargets : targets.mapM (fun (target : Nat) => positionIn starts target) = some rest :=
    mapM_eq_some_of_forall₂ ((forall₂_of_mapM_eq_ok hrest).imp fun _ _ hp =>
      positionIn_of_resolve hstarts hpairwise hp)
  refine ⟨.tableSwitch low.toInt high.toInt first rest, ?_, ?_⟩
  · rw [Op.meaning, hdefault, htargets, hhigh]
    rfl
  · obtain ⟨lowHi, lowLo, hlow, hlowValue⟩ := halves_ofInt low
    obtain ⟨highHi, highLo, hhighEq, hhighValue⟩ := halves_ofInt high
    rw [← hhigh, Int32.ofInt_toInt, hlow, hhighEq, Tables.switchMeaning, mapM_target?,
      hlowValue, hhighValue]
    rfl

/-- Keys and cases of a lookup switch are found again in its parameters. -/
theorem exists_lookupCases (hstarts : context.starts = starts.toArray)
    (hpairwise : starts.Pairwise (· < ·)) {offset : Nat} {cases : List (Int32 × Nat)}
    {groups : List (List Parameter)} (h : List.Forall₂ (fun (keyed : Int32 × Nat) group =>
      (do
        let position ← context.resolve offset keyed.2
        return [.ofInt keyed.1, .target position]) = Except.ok group) cases groups) :
    ∃ positions, (cases.mapM fun (keyed : Int32 × Nat) => do
        return (keyed.1, ← positionIn starts keyed.2)) = some positions ∧
      Tables.lookupCases groups.flatten = some positions := by
  induction h with
  | nil => exact ⟨[], rfl, rfl⟩
  | @cons keyed group cases groups hgroup _ ih =>
    obtain ⟨positions, hcases, hlookup⟩ := ih
    obtain ⟨position, hposition, hgroup⟩ := bind_eq_ok_iff.mp hgroup
    obtain rfl := Except.ok.inj hgroup
    obtain ⟨hi, lo, hkey, hvalue⟩ := halves_ofInt keyed.1
    refine ⟨(keyed.1, position) :: positions, ?_, ?_⟩
    · rw [List.mapM_cons, hcases, positionIn_of_resolve hstarts hpairwise hposition]
      rfl
    · rw [hkey, List.flatten_cons, List.cons_append, List.cons_append, List.nil_append,
        Tables.lookupCases, hlookup, hvalue]
      rfl

theorem meaning_lookupSwitch (hstarts : context.starts = starts.toArray)
    (hpairwise : starts.Pairwise (· < ·)) {offset default : Nat} {cases : List (Int32 × Nat)}
    {parameters : List Parameter}
    (h : lookupParameters context offset default cases = .ok parameters) :
    ∃ m, (Op.lookupSwitch default cases).meaning context.constants starts = some m ∧
      Tables.switchMeaning .lookupSwitch parameters = some m := by
  obtain ⟨first, hfirst, h⟩ := bind_eq_ok_iff.mp h
  obtain ⟨groups, hgroups, h⟩ := bind_eq_ok_iff.mp h
  obtain rfl := Except.ok.inj h
  have hdefault := positionIn_of_resolve hstarts hpairwise hfirst
  obtain ⟨positions, hcases, hlookup⟩ :=
    exists_lookupCases hstarts hpairwise (forall₂_of_mapM_eq_ok hgroups)
  refine ⟨.lookupSwitch first positions, ?_, ?_⟩
  · rw [Op.meaning, hdefault, hcases]
    rfl
  · rw [Tables.switchMeaning, hlookup]
    rfl

/-! ### Operations -/

/-- **The instruction that an operation becomes means the same**, in the tables at that point and in
all that they grow into. -/
theorem adds_lowerOp (hstarts : context.starts = starts.toArray)
    (hpairwise : starts.Pairwise (· < ·)) (offset : Nat) {op : Op} (hbounded : op.Bounded) :
    Adds pre (lowerOp context offset op) (Keeps context.constants starts op) := by
  cases op with
  | plain op => exact Adds.pure fun T _ => ⟨.plain op, rfl, rfl⟩
  | pushInt form value => exact Adds.pure fun T _ => ⟨.pushInt value, rfl, rfl⟩
  | load isWide index => exact adds_lowerLoad isWide index
  | localVar op slot =>
    cases op with
    | load kind =>
      refine Adds.except fun reg hreg => Adds.pure fun T _ => ⟨.load kind slot.toNat, rfl, ?_⟩
      obtain ⟨hlt, hslot⟩ := localRegister_ok hreg
      show (if reg.number < 254 ∧ (0 : Int32) = 0 then some (Meaning.load kind reg.number.toNat)
        else none) = _
      rw [if_pos ⟨hlt, rfl⟩, hslot]
    | store kind =>
      refine Adds.except fun reg hreg => Adds.pure fun T _ => ⟨.store kind slot.toNat, rfl, ?_⟩
      obtain ⟨hlt, hslot⟩ := localRegister_ok hreg
      show (if reg.number < 254 ∧ (0 : Int32) = 0 then some (Meaning.store kind reg.number.toNat)
        else none) = _
      rw [if_pos ⟨hlt, rfl⟩, hslot]
    | ret => exact Adds.throw _
  | increment slot amount =>
    refine Adds.except fun reg hreg => Adds.pure fun T _ =>
      ⟨.increment slot.toNat amount.toInt, rfl, ?_⟩
    obtain ⟨hlt, hslot⟩ := localRegister_ok hreg
    simp only [Tables.meaning, Tables.regDispMeaning, if_pos hlt, hslot, Int16.toInt_toInt32]
  | branch jump target =>
    cases jump with
    | when condition =>
      refine Adds.except fun position hposition => Adds.pure fun T _ =>
        ⟨.branch condition position, ?_, rfl⟩
      rw [Op.meaning, positionIn_of_resolve hstarts hpairwise hposition]
      rfl
    | goto =>
      refine Adds.except fun position hposition => Adds.pure fun T _ => ⟨.goto position, ?_, rfl⟩
      rw [Op.meaning, positionIn_of_resolve hstarts hpairwise hposition]
      rfl
    | jsr => exact Adds.throw _
  | tableSwitch default low targets =>
    exact Adds.except fun parameters hparameters => Adds.pure fun T _ =>
      meaning_tableSwitch hstarts hpairwise hbounded hparameters
  | lookupSwitch default cases =>
    exact Adds.except fun parameters hparameters => Adds.pure fun T _ =>
      meaning_lookupSwitch hstarts hpairwise hparameters
  | field access index =>
    refine Adds.file fun ref href => (adds_lowerMember ref).bind fun operands => Adds.pure ?_
    rintro T ⟨-, owner, member, rfl, hmember⟩
    refine ⟨.field access ref, ?_, ?_⟩
    · rw [Op.meaning, href]
      rfl
    · simp only [Tables.meaning, Tables.two16Meaning, hmember]
      rfl
  | invoke call index =>
    refine Adds.file fun ref href => (adds_lowerMember ref).bind fun operands => Adds.pure ?_
    rintro T ⟨-, owner, member, rfl, hmember⟩
    refine ⟨.invoke call.invocation ref, ?_, ?_⟩
    · rw [Op.meaning, href]
      rfl
    · simp only [Tables.meaning, Tables.two16Meaning, hmember]
      rfl
  | invokeDynamic index => exact Adds.throw _
  | onClass op index =>
    refine (adds_classAt index).bind fun id => Adds.pure ?_
    rintro T ⟨-, name, hname, hclass, -⟩
    refine ⟨.onClass op name, ?_, ?_⟩
    · rw [Op.meaning, hname]
      rfl
    · simp only [Tables.meaning, Tables.two16Meaning, hclass]
      rfl
  | newArray elementType =>
    refine Adds.pure fun T _ => ⟨.newArray elementType.toNat, rfl, ?_⟩
    simp only [Tables.meaning, Tables.two16Meaning, UInt8.toNat_toUInt16]
    rfl
  | newMultiArray index dimensions =>
    refine (adds_classAt index).bind fun id => Adds.pure ?_
    rintro T ⟨-, name, hname, hclass, -⟩
    refine ⟨.newMultiArray name dimensions.toNat, ?_, ?_⟩
    · rw [Op.meaning, hname]
      rfl
    · simp only [Tables.meaning, Tables.two16Meaning, hclass, UInt8.toNat_toUInt16]
      rfl

end Operations

/-! ### Bodies -/

/-- A position at which the range of an exception table entry ends, in code of so many bytes. -/
def StopsAt (starts : List Nat) (length : Nat) (stop : UInt16) (position : Nat) : Prop :=
  (stop.toNat = length ∧ position = starts.length) ∨ starts[position]? = some stop.toNat

/-- The class of exceptions that an exception table entry names, as a number. -/
def Catches (constants : ConstantPool) (index : UInt16) (T : Tables) : Option ClassId → Prop
  | none => index = 0
  | some id => id ≠ Image.absent ∧
    ∃ name, constants.className index = .ok name ∧ T.classes[id.toNat]? = some name

/-- A handler stands for an entry of the exception table: its positions are those of the operations
at the entry's offsets, and it catches the same class. -/
structure KeepsHandler (constants : ConstantPool) (starts : List Nat) (length : Nat)
    (source : ClassFile.ExceptionEntry) (handler : Body.Handler) (T : Tables) : Prop where
  start : starts[handler.start]? = some source.start.toNat
  stop : StopsAt starts length source.stop handler.stop
  entry : starts[handler.entry]? = some source.entry.toNat
  catchType : Catches constants source.catchType T handler.catchType

section Handlers

variable {context : Context} {starts : List Nat} {pre : Tables → Prop}

theorem getElem?_of_resolve (hstarts : context.starts = starts.toArray)
    {offset target position : Nat} (h : context.resolve offset target = .ok position) :
    starts[position]? = some target := by
  have hat := Context.resolve_ok h
  rwa [hstarts, List.getElem?_toArray] at hat

/-- What is left of a handler once the end of its range and its class are known. -/
theorem adds_lowerHandler_rest (hstarts : context.starts = starts.toArray) (length : Nat)
    (source : ClassFile.ExceptionEntry) (stop : Nat) (catchType : Option ClassId) :
    Adds (fun T => StopsAt starts length source.stop stop ∧
        Catches context.constants source.catchType T catchType)
      (do
        let start ← liftM (context.resolve source.entry.toNat source.start.toNat)
        let handler ← liftM (context.resolve source.entry.toNat source.entry.toNat)
        return { start, stop, entry := handler, catchType })
      (KeepsHandler context.constants starts length source) := by
  refine Adds.except fun start hstart => Adds.except fun handler hhandler => Adds.pure ?_
  rintro T ⟨hstop, hcatch⟩
  exact ⟨getElem?_of_resolve hstarts hstart, hstop, getElem?_of_resolve hstarts hhandler, hcatch⟩

theorem adds_lowerHandler (hstarts : context.starts = starts.toArray) (length : Nat)
    (source : ClassFile.ExceptionEntry) : Adds pre (lowerHandler context length source)
      (KeepsHandler context.constants starts length source) := by
  -- The class is looked up after the end of the range, which may be the end of the code.
  have hcatch : ∀ stop, Adds (fun _ => StopsAt starts length source.stop stop)
      (if source.catchType = 0 then do
        let catchType ← pure none
        let start ← liftM (context.resolve source.entry.toNat source.start.toNat)
        let handler ← liftM (context.resolve source.entry.toNat source.entry.toNat)
        return { start, stop, entry := handler, catchType }
      else do
        let catchType ← some <$> context.classAt source.catchType
        let start ← liftM (context.resolve source.entry.toNat source.start.toNat)
        let handler ← liftM (context.resolve source.entry.toNat source.entry.toNat)
        return { start, stop, entry := handler, catchType })
      (KeepsHandler context.constants starts length source) := by
    intro stop
    split
    · rename_i hzero
      exact (Adds.pure fun _ _ => hzero).bind fun catchType =>
        adds_lowerHandler_rest hstarts length source stop catchType
    · refine (Adds.map ((adds_classAt source.catchType).mono (fun _ h => h) ?_)).bind
        fun catchType =>
        adds_lowerHandler_rest hstarts length source stop catchType
      rintro id T - ⟨name, hname, hclass, hne⟩
      exact ⟨hne, name, hname, hclass⟩
  unfold lowerHandler
  dsimp only
  split
  · rename_i hlength
    refine (Adds.pure fun _ _ => Or.inl ⟨hlength, ?_⟩).bind fun stop =>
      (hcatch stop).mono (fun _ hT => hT.2) fun _ _ _ h => h
    rw [hstarts, List.size_toArray]
  · exact Adds.except fun stop hstop =>
      (hcatch stop).mono (fun _ _ => Or.inr (getElem?_of_resolve hstarts hstop)) fun _ _ _ h => h

end Handlers

/-- The operations that the code of a method decodes into, with the lines of the method. -/
def Decodes (constants : ConstantPool) (code : ClassFile.Code) (decoded : List Decoded) : Prop :=
  ∃ lines, code.lineNumbers constants = .ok lines ∧ Bytecode.decode code.bytes lines = .ok decoded

/-- What a body and the code it was lowered from have in common: one instruction for each decoded
operation, with its line and its meaning, and one handler for each entry of the exception table. The
operations start at increasing offsets. -/
structure Lowered (constants : ConstantPool) (code : ClassFile.Code) (decoded : List Decoded)
    (body : Body) (T : Tables) : Prop where
  decodes : Decodes constants code decoded
  offsets : (decoded.map Decoded.offset ++ [code.bytes.length]).Pairwise (· < ·)
  instructions : List.Forall₂ (fun (entry : Decoded) (insn : Instruction) =>
    insn.line = entry.line ∧
    Keeps constants (decoded.map Decoded.offset) entry.op (insn.opcode, insn.operands) T)
    decoded body.instructions
  handlers : List.Forall₂ (fun source handler =>
    KeepsHandler constants (decoded.map Decoded.offset) code.bytes.length source handler T)
    code.exceptions body.handlers
  valid : body.validate = .ok ()
  maxStack : body.maxStack = code.maxStack
  maxLocals : body.maxLocals = code.maxLocals

theorem adds_lowerDecoded {context : Context} {starts : List Nat} {pre : Tables → Prop}
    (hstarts : context.starts = starts.toArray) (hpairwise : starts.Pairwise (· < ·))
    {entry : Decoded} (hbounded : entry.op.Bounded) :
    Adds pre (lowerDecoded context entry) (fun insn T =>
      insn.line = entry.line ∧ Keeps context.constants starts entry.op
        (insn.opcode, insn.operands) T) :=
  (adds_lowerOp hstarts hpairwise entry.offset hbounded).bind fun _ =>
    Adds.pure fun _ hT => ⟨rfl, hT.2⟩

/-- **Lowering keeps the operations and handlers of a method.** -/
theorem adds_lower {pre : Tables → Prop} (settings : Settings) (constants : ConstantPool)
    {code : ClassFile.Code} (hlength : code.bytes.length ≤ UInt32.size) :
    Adds pre (lower settings constants code)
      (fun body T => ∃ decoded, Lowered constants code decoded body T) := by
  refine Adds.file fun lines hlines => Adds.file fun decoded hdecoded => ?_
  have hoffsets := Bytecode.pairwise_offsets hlength hdecoded
  have hpairwise := (List.pairwise_append.mp hoffsets).1
  have hbounded := Bytecode.bounded_of_decode hdecoded
  refine (Adds.mapM fun entry hentry => adds_lowerDecoded rfl hpairwise
    (hbounded entry hentry)).bind fun instructions =>
      (Adds.mapM fun source _ => adds_lowerHandler rfl _ source).bind
    fun handlers => Adds.except fun _ hvalid => Adds.pure ?_
  rintro T ⟨⟨-, hinstructions⟩, hhandlers⟩
  exact ⟨decoded, ⟨lines, hlines, hdecoded⟩, hoffsets, hinstructions, hhandlers, hvalid, rfl, rfl⟩

end Conversion

end ClassImage
