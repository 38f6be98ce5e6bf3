import ClassImage.Proofs.Translation

/-!
# A converted class refers only to what is there

Numbers in an image refer to its tables, to the symbol table and to places in its code. `WellFormed`
says that whatever they refer to exists. For instructions this follows from their meaning: what
could be looked up is there (`refers_of_meaningAt`), and every instruction that is laid out means
something, with or without those that do nothing (`KeepsCode.exists_meaning`). The rest was known
when the image was completed.
-/

namespace ClassImage

namespace Image

open Conversion (Within tablesOf)

/-! ### References that exist -/

/-- A distance leads to the start of an instruction. -/
def Lands (starts : List Nat) (offset : Nat) (distance : Int) : Prop :=
  ∃ start ∈ starts, (start : Int) = offset + distance

/-- What a record of the instruction at `offset` refers to exists, and constants are of the right
kind. -/
def Record.Refers (T : Tables) (starts : List Nat) (offset : Nat) : Record → Prop
  | .two16 .pushLong hi _ => ∃ value, T.constants[hi.toNat]? = some (.long value)
  | .two16 .pushDouble hi _ => ∃ bits, T.constants[hi.toNat]? = some (.double bits)
  | .two16 .pushString hi _ => ∃ name, T.constants[hi.toNat]? = some (.string name)
  | .two16 .pushClass hi _ | .two16 (.onClass _) hi _ | .two16 .newMultiArray hi _ =>
    hi.toNat < T.classes.length
  | .two16 (.field _) hi lo | .two16 (.invoke _) hi lo =>
    hi.toNat < T.classes.length ∧ lo.toNat < T.members.length
  | .regDisp .goto _ disp => Lands starts offset disp.toInt
  | .shortImmReg (.branch _) imm _ => Lands starts offset imm.toInt
  | .target disp => Lands starts offset disp.toInt
  | _ => True

/-- A handler protects whole instructions and starts at one. -/
structure Handler.Refers (T : Tables) (starts : List Nat) (length : Nat) (handler : Handler) :
    Prop where
  start : handler.start.toNat ∈ starts
  stop : handler.stop.toNat ∈ starts ∨ handler.stop.toNat = length
  start_le_stop : handler.start ≤ handler.stop
  entry : handler.entry.toNat ∈ starts
  catchType : Within T.classes handler.catchType

/-- The code of a method consists of instructions that refer to what exists, and so do the tables
that go with it. Instructions are given as their offsets with their records. -/
structure Method.CodeRefers (T : Tables) (method : Method)
    (instructions : List (Nat × List Record)) :
    Prop where
  disassembles : ∃ records, disassemble method.code = .ok records ∧
    grouped records.toList = instructions ∧ instructions.flatMap Prod.snd =
      records.toList.map Prod.snd
  increasing : (instructions.map Prod.fst).Pairwise (· < ·)
  records : ∀ insn ∈ instructions, ∀ record ∈ insn.2,
    record.Refers T (instructions.map Prod.fst) insn.1
  handlers : ∀ handler ∈ method.handlers,
    handler.Refers T (instructions.map Prod.fst) method.code.length
  lines : (method.lines.map fun entry => entry.offset.toNat).Sublist (instructions.map Prod.fst)

/-- All that an image refers to exists, with classes numbered by a symbol table. -/
structure WellFormed (image : Image) (symbols : SymbolTable) : Prop where
  nodup : image.names.Nodup
  closed : (tablesOf image symbols).Closed
  thisClass : image.thisClass.toNat < symbols.size
  superClass : Within symbols.toList image.superClass
  interfaces : ∀ id ∈ image.interfaces, id.toNat < symbols.size
  sourceFile : Within image.names image.sourceFile
  fields : ∀ field ∈ image.fields, field.name.toNat < image.names.length ∧
    field.descriptor.toNat < image.names.length ∧ Within image.constants field.constantValue
  methods : ∀ method ∈ image.methods, method.name.toNat < image.names.length ∧
    method.descriptor.toNat < image.names.length ∧
    ∃ instructions, method.CodeRefers (tablesOf image symbols) instructions

/-! ### Instructions that mean something -/

section Meaning

variable {T : Tables} {starts : List Nat} {offset : Nat}

theorem lands_of_positionIn {distance : Int} {i : Nat}
    (h : positionIn starts (offset + distance) = some i) : Lands starts offset distance :=
  mem_of_positionIn_eq_some h

theorem member?_bounds {owner member : UInt16} {ref : ClassFile.MemberRef}
    (h : T.member? owner member = some ref) :
    owner.toNat < T.classes.length ∧ member.toNat < T.members.length := by
  obtain ⟨entry, hentry, h⟩ := Option.bind_eq_some_iff.mp h
  obtain ⟨name, hname, -⟩ := Option.bind_eq_some_iff.mp h
  exact ⟨(List.getElem?_eq_some_iff.mp hname).1, (List.getElem?_eq_some_iff.mp hentry).1⟩

theorem class_lt_of_map {α : Type} {f : String → α} {a : α} {id : UInt16}
    (h : T.classes[id.toNat]?.map f = some a) : id.toNat < T.classes.length := by
  obtain ⟨name, hname, -⟩ := Option.map_eq_some_iff.mp h
  exact (List.getElem?_eq_some_iff.mp hname).1

theorem refers_of_two16Meaning {opcode : Opcode} {hi lo : UInt16} {m : Meaning}
    (h : T.two16Meaning opcode hi lo = some m) :
    (Record.two16 opcode hi lo).Refers T starts offset := by
  cases opcode with
  | field | invoke =>
    obtain ⟨ref, href, -⟩ := Option.map_eq_some_iff.mp h
    exact member?_bounds href
  | newMultiArray => exact class_lt_of_map h
  | pushClass | onClass =>
    simp only [Tables.two16Meaning] at h
    split at h
    · exact class_lt_of_map h
    · exact absurd h (by simp)
  | pushLong | pushDouble | pushString =>
    simp only [Tables.two16Meaning] at h
    split at h
    · unfold Tables.constantMeaning at h
      rcases hconstant : T.constants[hi.toNat]? with _ | constant <;> simp only [hconstant] at h
      · exact absurd h (by simp)
      · cases constant <;> first | exact ⟨_, hconstant⟩ | exact absurd h (by simp)
    · exact absurd h (by simp)
  | _ => trivial

/-- Jumps with a displacement lead to instructions. -/
theorem lands_of_locateDisplacement {opcode : Opcode} {amount : Int} {disp : Body.Displacement}
    (h : locateDisplacement starts offset opcode amount = some disp)
    (hjumps : opcode.jumps = true) :
    Lands starts offset amount := by
  rw [locateDisplacement, if_pos hjumps] at h
  obtain ⟨i, hi, -⟩ := Option.map_eq_some_iff.mp h
  exact lands_of_positionIn hi

theorem refers_of_locateParameter {record : Record} {param : Body.Parameter}
    (h : locateParameter starts offset record = some param) : record.Refers T starts offset := by
  cases record with
  | target disp =>
    obtain ⟨i, hi, -⟩ := Option.map_eq_some_iff.mp h
    exact lands_of_positionIn hi
  | values => trivial
  | _ => exact absurd h (by simp [locateParameter])

/-- **An instruction that means something refers to what exists.** -/
theorem refers_of_meaningAt {group : List Record} {m : Meaning}
    (h : meaningAt T starts offset group = some m) :
    ∀ record ∈ group, record.Refers T starts offset := by
  obtain ⟨⟨opcode, operands⟩, hlocate, hmeaning⟩ := Option.bind_eq_some_iff.mp h
  unfold locate at hlocate
  split at hlocate
  case h_1 =>
    intro record hmem
    obtain rfl := List.mem_singleton.mp hmem
    trivial
  case h_2 op reg disp =>
    obtain ⟨located, hlocated, -⟩ := Option.map_eq_some_iff.mp hlocate
    intro record hmem
    obtain rfl := List.mem_singleton.mp hmem
    cases op with
    | goto => exact lands_of_locateDisplacement hlocated rfl
    | _ => trivial
  case h_3 op imm reg =>
    obtain ⟨located, hlocated, -⟩ := Option.map_eq_some_iff.mp hlocate
    intro record hmem
    obtain rfl := List.mem_singleton.mp hmem
    cases op with
    | branch condition => exact lands_of_locateDisplacement hlocated rfl
    | _ => trivial
  case h_4 op hi lo =>
    obtain ⟨rfl, rfl⟩ := Prod.mk.inj (Option.some.inj hlocate)
    intro record hmem
    obtain rfl := List.mem_singleton.mp hmem
    exact refers_of_two16Meaning hmeaning
  case h_5 op key count parameters =>
    obtain ⟨located, hlocated, -⟩ := Option.map_eq_some_iff.mp hlocate
    intro record hmem
    rcases List.mem_cons.mp hmem with rfl | hmem
    · trivial
    · obtain ⟨param, hparam⟩ := exists_eq_some_of_mapM hlocated hmem
      exact refers_of_locateParameter hparam
  case h_6 => exact absurd hlocate (by simp)

end Meaning

end Image

namespace Conversion

open ClassFile (ConstantPool)
open Bytecode (Decoded)
open Image (Record)
open Body (Instruction)

section Code

variable {settings : Settings} {constants : ConstantPool} {code : ClassFile.Code}
  {decoded : List Decoded} {lowered : Body} {groups : List (List Record)} {assembly : Body.Assembly}
  {T : Tables}

/-- Instructions that are laid out mean something: those that stay are renamed. -/
theorem KeepsCode.exists_meaning
    (h : KeepsCode settings constants code decoded lowered groups assembly T) {insn : Instruction}
    (hinsn : insn ∈ (finished settings lowered).instructions) :
    ∃ m, T.meaning insn.opcode insn.operands = some m := by
  have hlowered : ∀ source ∈ lowered.instructions, ∃ m,
      T.meaning source.opcode source.operands = some m := by
    intro source hsource
    obtain ⟨entry, -, -, m, -, hm⟩ := exists_mem_of_forall₂ h.lowers.instructions hsource
    exact ⟨m, hm⟩
  rw [finished] at hinsn
  split at hinsn
  · obtain ⟨source, hsource, rfl⟩ := Body.exists_of_mem_withoutNops hinsn
    obtain ⟨m, hm⟩ := hlowered source hsource
    refine ⟨m.mapTargets lowered.survivorsBefore, ?_⟩
    rw [Body.Instruction.opcode_mapTargets, Instruction.mapTargets, T.meaning_mapTargets, hm]
    rfl
  · exact hlowered insn hinsn

/-- The records of code refer to what exists. -/
theorem KeepsCode.records_refer
    (h : KeepsCode settings constants code decoded lowered groups assembly T) :
    ∀ insn ∈ (finished settings lowered).starts.zip groups, ∀ record ∈ insn.2,
      record.Refers T (finished settings lowered).starts insn.1 := by
  intro placed hplaced
  obtain ⟨i, hi⟩ := List.mem_iff_getElem?.mp hplaced
  have hlt : i < (finished settings lowered).instructions.length := by
    rw [← Body.length_starts]
    exact (List.getElem?_eq_some_iff.mp (List.getElem?_zip_eq_some.mp hi).1).1
  have hinsn := List.getElem?_eq_getElem hlt
  obtain ⟨m, hm⟩ := h.exists_meaning (List.getElem_mem hlt)
  obtain ⟨offset, group, hgroup, hat⟩ :=
    h.assembles.meaningAt (validate_finished h.lowers.valid) hinsn hm
  obtain rfl : (offset, group) = placed := Option.some.inj (hgroup.symm.trans hi)
  exact Image.refers_of_meaningAt hat

/-- The handlers of code protect whole instructions. -/
theorem KeepsCode.handlers_refer
    (h : KeepsCode settings constants code decoded lowered groups assembly T) :
    ∀ handler ∈ assembly.handlers,
      handler.Refers T (finished settings lowered).starts assembly.code.length := by
  intro handler hhandler
  have hcatch := h.within_catchType handler hhandler
  obtain ⟨source, hsource, hplace⟩ := exists_mem_of_forall₂ h.assembles.handlers hhandler
  obtain ⟨hstart, hstop, hentry, -⟩ := Body.Handler.place_ok h.assembles.stop_le hplace
  have hwithin :=
    ((Body.validate_eq_ok_iff _).mp (validate_finished h.lowers.valid)).2 source hsource
  refine ⟨?_, ?_, ?_, ?_, hcatch⟩
  · exact List.mem_of_getElem? (Body.offsetOf?_of_lt hwithin.start_lt hstart)
  · rw [Body.offsetOf?_eq_append] at hstop
    rw [h.assembles.length_code]
    simpa using List.mem_of_getElem? hstop
  · exact UInt16.le_iff_toNat_le.mpr (Body.offsetOf?_mono hwithin.start_le_stop hstart hstop)
  · exact List.mem_of_getElem? (Body.offsetOf?_of_lt hwithin.entry_lt hentry)

/-- **The code of a method refers to what exists**, whether it has any or not. -/
theorem KeepsBody.exists_codeRefers {method : Image.Method} {source : Option ClassFile.Code}
    (h : KeepsBody settings constants method T source) :
    ∃ instructions, method.CodeRefers T instructions := by
  cases h with
  | bodiless hcode hlines hhandlers =>
    refine ⟨[], ⟨_, by rw [hcode]; rfl, rfl, rfl⟩, List.Pairwise.nil, ?_, ?_, ?_⟩
    · exact fun _ h => absurd h List.not_mem_nil
    · rw [hhandlers]
      exact fun _ h => absurd h List.not_mem_nil
    · rw [hlines]
      exact List.nil_sublist _
  | @code code decoded lowered groups assembly hkeeps hcode hlines hhandlers =>
    obtain ⟨records, hrecords, hsnd, hgrouped⟩ := hkeeps.assembles.disassemble
    have hfst := hkeeps.assembles.map_fst_zip
    refine ⟨(finished settings lowered).starts.zip groups,
      ⟨records, ?_, hgrouped, ?_⟩, ?_, ?_, ?_, ?_⟩
    · rw [hcode, hrecords]
    · rw [hsnd, List.flatMap_def, hkeeps.assembles.map_snd_zip]
    · rw [hfst]
      exact Body.pairwise_starts _
    · rw [hfst]
      exact hkeeps.records_refer
    · rw [hfst, hhandlers, hcode]
      exact hkeeps.handlers_refer
    · rw [hfst, hlines]
      exact hkeeps.assembles.line_offsets_sublist

end Code

/-! ### Images that are well formed -/

theorem KeepsText.lt {constants : ConstantPool} {slot : UInt16} {index : NameIndex} {T : Tables}
    (h : KeepsText constants slot index T) : index.toNat < T.names.length := by
  obtain ⟨text, -, hname⟩ := h
  exact (List.getElem?_eq_some_iff.mp hname).1

/-- **A completed image is well formed** for any symbol table that has the classes it was completed
with. -/
theorem Completed.wellFormed {settings : Settings} {classFile : ClassFile} {image : Image}
    {work : Workspace} {symbols : SymbolTable} (h : Completed settings classFile image work)
    (hle : work.tables ≤ tablesOf image symbols) : image.WellFormed symbols := by
  obtain ⟨outcomes, hkeeps⟩ := h.keeps
  have hclass := hkeeps _ hle
  have hclosed := h.sound.closed
  have hnodup := h.sound.names.nodup
  refine ⟨?_, ?_, ?_, hclass.superClass, ?_, hclass.sourceFile, ?_, ?_⟩
  · rw [h.names]
    exact hnodup
  · rw [tablesOf, h.names, h.constants, h.members]
    exact ⟨hclosed.strings, hclosed.members⟩
  · exact hclass.thisClass
  · exact hclass.interfaces
  · intro field hfield
    obtain ⟨source, -, hkeep⟩ := exists_mem_of_forall₂ hclass.fields hfield
    exact ⟨hkeep.name.lt, hkeep.descriptor.lt, hkeep.constantValue⟩
  · intro method hmethod
    obtain ⟨source, -, hkeep⟩ := hclass.exists_source hmethod
    obtain ⟨code, -, hbody⟩ := hkeep.body
    exact ⟨hkeep.name.lt, hkeep.descriptor.lt, hbody.exists_codeRefers⟩

/-- **Every produced image is well formed.** The bytes of a converted class are read back, all of
them, as the image that was built, and all that this image refers to exists. -/
theorem convertClass_wellFormed {settings : Settings} {symbols : SymbolTable}
    (hsymbols : Reachable symbols) {bytes written : Bytes} {diagnostics : List Diagnostic}
    (h : (convertClass settings symbols bytes).result = .ok (written, diagnostics)) :
    ∃ className image, (toImage settings symbols bytes).result =
      .ok (className, image, diagnostics) ∧
      Image.read written = .ok (image, []) ∧
      image.WellFormed (convertClass settings symbols bytes).symbols := by
  obtain ⟨className, image, classFile, work, himage, hread, -, hcompleted, hle⟩ :=
    exists_completed hsymbols h
  exact ⟨className, image, himage, hread, hcompleted.wellFormed hle⟩

theorem sampleClass_wellFormed : ∃ written diagnostics className image,
    (convertClass { dropNops := true } sampleSymbols sampleClass).result =
      .ok (written, diagnostics) ∧
    diagnostics.length = 1 ∧
    (toImage { dropNops := true } sampleSymbols sampleClass).result =
      .ok (className, image, diagnostics) ∧
    Image.read written = .ok (image, []) ∧
    image.WellFormed (convertClass { dropNops := true } sampleSymbols sampleClass).symbols := by
  obtain ⟨written, diagnostics, h, hlength⟩ := sampleClass_converts true
  obtain ⟨className, image, himage, hread, hwell⟩ :=
    convertClass_wellFormed reachable_sampleSymbols h
  exact ⟨written, diagnostics, className, image, h, hlength, himage, hread, hwell⟩

end Conversion

end ClassImage
