import Mathlib.Data.List.ReduceOption
import ClassImage.Proofs.Codec
import ClassImage.Proofs.Conversion

/-!
# A converted class means what its class file means

The bytes of a converted class are read back as the image that was built, since nothing in it is the
number that stands for none and its code is short (`Completed.encodable`). All of its tables are
then at hand, and the instructions of a method are looked up in them one by one: with every
instruction kept, the code of the image says at each position what the code of the class file says
there (`KeepsCode.sameCode`), and its handlers cover the same instructions
(`KeepsCode.sameHandlers`).
-/

namespace ClassImage.Conversion

open ClassFile (ConstantPool)
open Bytecode (Decoded)
open Image (Record absent)
open Body (IsAssembly Instruction)

/-! ### Bodies that are laid out -/

section Finished

variable {settings : Settings} {lowered : Body}

theorem validate_finished (h : lowered.validate = .ok ()) :
    (finished settings lowered).validate = .ok () := by
  rw [finished]
  split
  · exact Body.validate_withoutNops h
  · exact h

/-- A handler that is laid out catches what it caught before. -/
theorem exists_catchType_of_finished {handler : Body.Handler}
    (h : handler ∈ (finished settings lowered).handlers) :
    ∃ source ∈ lowered.handlers, handler.catchType = source.catchType := by
  rw [finished] at h
  split at h
  · rw [Body.withoutNops_handlers] at h
    obtain ⟨source, hsource, rfl⟩ := List.mem_map.mp (List.mem_filter.mp h).1
    exact ⟨source, hsource, rfl⟩
  · exact ⟨handler, h, rfl⟩

end Finished

/-! ### Images that are read back -/

theorem Within.ne_absent {α : Type} {table : List α} {index : Option UInt16}
    (h : Within table index) :
    index ≠ some absent :=
  fun heq => (h absent heq).2 rfl

section Encodable

variable {settings : Settings} {constants : ConstantPool} {method : Image.Method} {T : Tables}

theorem Catches.within {index : UInt16} {catchType : Option ClassId}
    (h : Catches constants index T catchType) : Within T.classes catchType := by
  rintro id rfl
  obtain ⟨hne, name, -, hclass⟩ := h
  exact ⟨(List.getElem?_eq_some_iff.mp hclass).1, hne⟩

theorem KeepsCode.within_catchType {code : ClassFile.Code} {decoded : List Decoded} {lowered : Body}
    {groups : List (List Record)} {assembly : Body.Assembly}
    (h : KeepsCode settings constants code decoded lowered groups assembly T) :
    ∀ handler ∈ assembly.handlers, Within T.classes handler.catchType := by
  intro handler hmem
  obtain ⟨placed, hplaced, hplace⟩ := exists_mem_of_forall₂ h.assembles.handlers hmem
  obtain ⟨-, -, -, hcatch⟩ := Body.Handler.place_ok h.assembles.stop_le hplace
  obtain ⟨source, hsource, hsame⟩ := exists_catchType_of_finished hplaced
  obtain ⟨entry, -, hkeeps⟩ := exists_mem_of_forall₂ h.lowers.handlers hsource
  rw [hcatch, hsame]
  exact hkeeps.catchType.within

theorem KeepsBody.length_code {code : Option ClassFile.Code}
    (h : KeepsBody settings constants method T code) : method.code.length ≤ 0xFFFF := by
  cases h with
  | bodiless hcode => rw [hcode]; exact Nat.zero_le _
  | code hkeeps hcode =>
    rw [hcode, hkeeps.assembles.length_code]
    exact hkeeps.assembles.stop_le

theorem KeepsBody.within_catchType {code : Option ClassFile.Code}
    (h : KeepsBody settings constants method T code) :
    ∀ handler ∈ method.handlers, Within T.classes handler.catchType := by
  cases h with
  | bodiless _ _ hhandlers => rw [hhandlers]; exact fun _ h => absurd h List.not_mem_nil
  | code hkeeps _ _ hhandlers => rw [hhandlers]; exact hkeeps.within_catchType

/-- Every method of an image stands for one of the class file. -/
theorem KeepsClass.exists_source {classFile : ClassFile} {image : Image}
    {outcomes : List (Option Image.Method)} (h : KeepsClass settings classFile image outcomes T)
    (hmem : method ∈ image.methods) :
    ∃ source ∈ classFile.methods, KeepsMethod settings classFile.constants source method T := by
  rw [h.methods, List.reduceOption_mem_iff] at hmem
  obtain ⟨source, hsource, hkeeps⟩ := exists_mem_of_forall₂ h.outcomes hmem
  exact ⟨source, hsource, hkeeps method rfl⟩

/-- **A completed image is determined by its bytes**, if its counts fit. -/
theorem Completed.encodable {classFile : ClassFile} {image : Image} {work : Workspace}
    (h : Completed settings classFile image work) (hfit : image.CountsFit) : image.Encodable := by
  obtain ⟨outcomes, hkeeps⟩ := h.keeps
  have hclass := hkeeps work.tables (Tables.le_refl _)
  refine ⟨hfit, ?_, hclass.superClass.ne_absent, hclass.sourceFile.ne_absent, ?_, ?_⟩
  · intro method hmem
    obtain ⟨source, -, hmethod⟩ := hclass.exists_source hmem
    obtain ⟨code, -, hbody⟩ := hmethod.body
    exact Nat.lt_of_le_of_lt hbody.length_code (by decide)
  · intro field hmem
    obtain ⟨source, -, hfield⟩ := exists_mem_of_forall₂ hclass.fields hmem
    exact hfield.constantValue.ne_absent
  · intro method hmem handler hhandler
    obtain ⟨source, -, hmethod⟩ := hclass.exists_source hmem
    obtain ⟨code, -, hbody⟩ := hmethod.body
    exact (hbody.within_catchType handler hhandler).ne_absent

end Encodable

/-- What the numbers of an image refer to, with classes numbered by a symbol table. -/
def tablesOf (image : Image) (symbols : SymbolTable) : Tables :=
  ⟨symbols.toList, image.names, image.constants, image.members⟩

/-- **The bytes of a converted class are those of an image that was completed**, and the tables at
its completion are part of what is there in the end. -/
theorem exists_completed {settings : Settings} {symbols : SymbolTable} {bytes written : Bytes}
    {diagnostics : List Diagnostic} (hsymbols : Reachable symbols)
    (h : (convertClass settings symbols bytes).result = .ok (written, diagnostics)) :
    ∃ className image classFile work,
      (toImage settings symbols bytes).result = .ok (className, image, diagnostics) ∧
      Image.read written = .ok (image, []) ∧ ClassFile.ofBytes bytes = .ok classFile ∧
      Completed settings classFile image work ∧
      work.tables ≤ tablesOf image (convertClass settings symbols bytes).symbols := by
  obtain ⟨className, image, himage, hwritten⟩ := convertClass_ok h
  obtain ⟨classFile, work, hfile, hcompleted, hclasses⟩ := toImage_ok hsymbols.wellFormed himage
  have hencodable := hcompleted.encodable (Image.countsFit_of_toBytes hwritten)
  refine ⟨className, image, classFile, work, himage,
    Image.read_of_toBytes hencodable hwritten, hfile, hcompleted, ?_⟩
  rw [convertClass_symbols, tablesOf, hcompleted.names, hcompleted.constants, hcompleted.members]
  exact ⟨hclasses, List.prefix_rfl, List.prefix_rfl, List.prefix_rfl⟩

/-! ### Methods that mean the same -/

/-- Encoded code does at each position what the code of a method does there: it disassembles into
one instruction for each decoded operation, and the two have one meaning. -/
def SameCode (constants : ConstantPool) (decoded : List Decoded) (encoded : Bytes)
    (starts : List Nat) (T : Tables) : Prop :=
  ∃ records, Image.disassemble encoded = .ok records ∧
    (Image.grouped records.toList).map Prod.fst = starts ∧
    List.Forall₂ (fun (entry : Decoded) (placed : Nat × List Record) => ∃ m,
      entry.op.meaning constants (decoded.map Decoded.offset) = some m ∧
      Image.meaningAt T starts placed.1 placed.2 = some m) decoded (Image.grouped records.toList)

/-- Two offsets, in two codes whose instructions start at these offsets, are those of one
position. -/
def SamePosition (starts starts' : List Nat) (offset offset' : UInt16) : Prop :=
  ∃ position : Nat, starts[position]? = some offset.toNat ∧ starts'[position]? = some offset'.toNat

/-- A handler covers the same instructions as an entry of an exception table, for the same
exceptions. -/
structure SameHandler (constants : ConstantPool) (starts starts' : List Nat) (length length' : Nat)
    (source : ClassFile.ExceptionEntry) (handler : Image.Handler) (T : Tables) : Prop where
  start : SamePosition starts starts' source.start handler.start
  stop : SamePosition (starts ++ [length]) (starts' ++ [length']) source.stop handler.stop
  entry : SamePosition starts starts' source.entry handler.entry
  catchType : Catches constants source.catchType T handler.catchType

/-- A method of the image and a method of the class file have the same name and do the same. -/
structure SameMethod (constants : ConstantPool) (source : ClassFile.Method) (method : Image.Method)
    (T : Tables) : Prop where
  accessFlags : method.accessFlags = source.accessFlags
  name : KeepsText constants source.name method.name T
  descriptor : KeepsText constants source.descriptor method.descriptor T
  bodiless : source.code constants = .ok none → method.code = [] ∧ method.handlers = []
  code : ∀ code, source.code constants = .ok (some code) → method.maxStack = code.maxStack ∧
    method.maxLocals = code.maxLocals ∧ ∃ decoded starts, Decodes constants code decoded ∧
    SameCode constants decoded method.code starts T ∧
    List.Forall₂ (fun entry handler => SameHandler constants (decoded.map Decoded.offset) starts
      code.bytes.length method.code.length entry handler T) code.exceptions method.handlers

section Keeping

variable {settings : Settings} {constants : ConstantPool} {code : ClassFile.Code}
  {decoded : List Decoded} {lowered : Body} {groups : List (List Record)} {assembly : Body.Assembly}
  {T : Tables}

theorem KeepsCode.isAssembly_lowered
    (h : KeepsCode settings constants code decoded lowered groups assembly T)
    (hnops : settings.dropNops = false) : IsAssembly settings lowered assembly groups := by
  have hassembles := h.assembles
  rwa [finished, hnops, if_neg Bool.false_ne_true] at hassembles

theorem KeepsCode.sameCode (h : KeepsCode settings constants code decoded lowered groups assembly T)
    (hnops : settings.dropNops = false) :
    SameCode constants decoded assembly.code lowered.starts T := by
  have hassembles := h.isAssembly_lowered hnops
  obtain ⟨records, hrecords, -, hgrouped⟩ := hassembles.disassemble
  refine ⟨records, hrecords, ?_, ?_⟩ <;> rw [hgrouped]
  · exact hassembles.map_fst_zip
  · refine forall₂_of_getElem? ?_ fun i entry placed hentry hplaced => ?_
    · rw [← List.length_map Prod.snd, hassembles.map_snd_zip, hassembles.length_groups]
      exact h.lowers.instructions.length_eq
    · -- The operation became an instruction of its meaning, and that one was laid out.
      obtain ⟨insn, hinsn, -, m, hop, hmeaning⟩ :=
        exists_getElem?_of_forall₂ h.lowers.instructions hentry
      obtain ⟨offset, group, hgroup, hat⟩ := hassembles.meaningAt h.lowers.valid hinsn hmeaning
      obtain rfl : (offset, group) = placed := Option.some.inj (hgroup.symm.trans hplaced)
      exact ⟨m, hop, hat⟩

/-- The end of a range, as one of the offsets of positions. -/
theorem StopsAt.getElem? {starts : List Nat} {length : Nat} {stop : UInt16} {position : Nat}
    (h : StopsAt starts length stop position) :
    (starts ++ [length])[position]? = some stop.toNat := by
  rcases h with ⟨hstop, rfl⟩ | h
  · rw [List.getElem?_append_right (Nat.le_refl _), Nat.sub_self, hstop]
    rfl
  · rw [List.getElem?_append_left (List.getElem?_eq_some_iff.mp h).1, h]

theorem KeepsCode.sameHandlers
    (h : KeepsCode settings constants code decoded lowered groups assembly T)
    (hnops : settings.dropNops = false) :
    List.Forall₂ (fun entry handler => SameHandler constants
      (decoded.map Decoded.offset) lowered.starts code.bytes.length assembly.code.length entry
        handler T) code.exceptions assembly.handlers := by
  have hassembles := h.isAssembly_lowered hnops
  have hlen : (decoded.map Decoded.offset).length = lowered.instructions.length := by
    rw [List.length_map]
    exact h.lowers.instructions.length_eq
  -- A position of an operation is one of an instruction, and so has its offset.
  have hposition : ∀ {position : Nat} {offset offset' : UInt16},
      (decoded.map Decoded.offset)[position]? = some offset.toNat →
      Body.offsetOf? lowered.layout position = some offset'.toNat →
      SamePosition (decoded.map Decoded.offset) lowered.starts offset offset' := by
    intro position offset offset' hsource hplaced
    have hlt := (List.getElem?_eq_some_iff.mp hsource).1
    exact ⟨position, hsource, Body.offsetOf?_of_lt (hlen ▸ hlt) hplaced⟩
  refine forall₂_of_getElem? ?_ fun i entry handler hentry hhandler => ?_
  · rw [h.lowers.handlers.length_eq, hassembles.handlers.length_eq]
  · obtain ⟨middle, hmiddle, hkeeps⟩ := exists_getElem?_of_forall₂ h.lowers.handlers hentry
    obtain ⟨handler', hhandler', hplace⟩ := exists_getElem?_of_forall₂ hassembles.handlers hmiddle
    obtain rfl : handler' = handler := Option.some.inj (hhandler'.symm.trans hhandler)
    obtain ⟨hstart, hstop, hentry, hcatch⟩ := Body.Handler.place_ok hassembles.stop_le hplace
    rw [Body.offsetOf?_eq_append] at hstop
    refine ⟨hposition hkeeps.start hstart, ⟨_, hkeeps.stop.getElem?, ?_⟩,
      hposition hkeeps.entry hentry, ?_⟩
    · rw [hassembles.length_code]
      exact hstop
    · rw [hcatch]
      exact hkeeps.catchType

theorem KeepsMethod.sameMethod {source : ClassFile.Method} {method : Image.Method}
    (h : KeepsMethod settings constants source method T) (hnops : settings.dropNops = false) :
    SameMethod constants source method T := by
  obtain ⟨code, hcode, hbody⟩ := h.body
  refine ⟨h.accessFlags, h.name, h.descriptor, fun hnone => ?_, fun code' hsome => ?_⟩
  · rw [hcode] at hnone
    obtain rfl := Except.ok.inj hnone
    obtain ⟨hcode, -, hhandlers⟩ := hbody
    exact ⟨hcode, hhandlers⟩
  · rw [hcode] at hsome
    obtain rfl := Except.ok.inj hsome
    obtain _ | ⟨hkeeps, hcode, -, hhandlers, hstack, hlocals⟩ := hbody
    rw [hcode, hhandlers]
    exact ⟨hstack, hlocals, _, _, hkeeps.lowers.decodes, hkeeps.sameCode hnops,
      hkeeps.sameHandlers hnops⟩

end Keeping

/-- The methods of an image stand for those of a class file of which some are left out, in order,
and do the same. -/
structure SameClass (classFile : ClassFile) (image : Image) (outcomes : List (Option Image.Method))
    (T : Tables) : Prop where
  methods : image.methods = outcomes.reduceOption
  outcomes : List.Forall₂ (fun source outcome => ∀ method, outcome = some method →
    SameMethod classFile.constants source method T) classFile.methods outcomes

/-- **Conversion preserves meaning.** If nothing is dropped from bodies, the image that the bytes of
a converted class are read as does what the class file does, looked up in the tables of the image
and the symbol table as they are in the end. -/
theorem convertClass_preserves_meaning {settings : Settings} (hnops : settings.dropNops = false)
    {symbols : SymbolTable} (hsymbols : Reachable symbols) {bytes written : Bytes}
    {diagnostics : List Diagnostic}
    (h : (convertClass settings symbols bytes).result = .ok (written, diagnostics)) :
    ∃ classFile image outcomes, ClassFile.ofBytes bytes = .ok classFile ∧
      Image.ofBytes written = .ok image ∧
      SameClass classFile image outcomes
        (tablesOf image (convertClass settings symbols bytes).symbols) := by
  obtain ⟨-, image, classFile, work, -, hread, hfile, hcompleted, hle⟩ :=
    exists_completed hsymbols h
  obtain ⟨outcomes, hkeeps⟩ := hcompleted.keeps
  have hclass := hkeeps _ hle
  refine ⟨classFile, image, outcomes, hfile, Image.ofBytes_of_read hread, hclass.methods, ?_⟩
  exact hclass.outcomes.imp fun source outcome hmethod method hmem =>
    (hmethod method hmem).sameMethod hnops

/-- A class `A` below `B` with two methods. The first one pushes a string and calls a subroutine, so
it is left out; the second one pushes the string, does nothing, drops it and starts over, with a
handler for `B`. -/
def sampleClass : Bytes := [
  0xCA, 0xFE, 0xBA, 0xBE, 0x00, 0x00, 0x00, 0x34,
  -- The constants `A`, class `A`, `B`, class `B`, `m`, `()V`, `Code` and string `A`.
  0x00, 0x09, 0x01, 0x00, 0x01, 0x41, 0x07, 0x00, 0x01, 0x01, 0x00, 0x01, 0x42, 0x07, 0x00, 0x03,
  0x01, 0x00, 0x01, 0x6D, 0x01, 0x00, 0x03, 0x28, 0x29, 0x56, 0x01, 0x00, 0x04,
  0x43, 0x6F, 0x64, 0x65, 0x08, 0x00, 0x01,
  0x00, 0x21, 0x00, 0x02, 0x00, 0x04, 0x00, 0x00, 0x00, 0x00, 0x00, 0x02,
  0x00, 0x01, 0x00, 0x05, 0x00, 0x06, 0x00, 0x01, 0x00, 0x07, 0x00, 0x00, 0x00, 0x11, 0x00, 0x01,
  0x00, 0x01, 0x00, 0x00, 0x00, 0x05, 0x12, 0x08, 0xA8, 0x00, 0x00, 0x00, 0x00, 0x00, 0x00,
  0x00, 0x01, 0x00, 0x05, 0x00, 0x06, 0x00, 0x01, 0x00, 0x07, 0x00, 0x00, 0x00, 0x1B, 0x00, 0x01,
  0x00, 0x01, 0x00, 0x00, 0x00, 0x07, 0x12, 0x08, 0x00, 0x57, 0xA7, 0xFF, 0xFC,
  0x00, 0x01, 0x00, 0x00, 0x00, 0x04, 0x00, 0x02, 0x00, 0x04, 0x00, 0x00,
  0x00, 0x00]

/-- The symbol table of a session that has seen the class `C`. -/
def sampleSymbols : SymbolTable := (SymbolTable.empty.intern "C").2

theorem reachable_sampleSymbols : Reachable sampleSymbols := Reachable.intern .empty "C"

/-- The class is converted with one method left out, whether instructions are dropped or not. -/
theorem sampleClass_converts (dropNops : Bool) : ∃ written diagnostics,
    (convertClass { dropNops } sampleSymbols sampleClass).result = .ok (written, diagnostics) ∧
      diagnostics.length = 1 := by
  have hlength : (convertClass { dropNops } sampleSymbols sampleClass).result.toOption.map
      (fun result => result.2.length) = some 1 := by
    cases dropNops <;> decide +kernel
  rcases h : (convertClass { dropNops } sampleSymbols sampleClass).result with
    _ | ⟨written, diagnostics⟩ <;> rw [h] at hlength
  · exact absurd hlength (by simp [Except.toOption])
  · exact ⟨written, diagnostics, rfl, Option.some.inj hlength⟩

theorem sampleClass_preserves_meaning : ∃ written diagnostics classFile image outcomes,
    (convertClass { dropNops := false } sampleSymbols sampleClass).result =
      .ok (written, diagnostics) ∧
    diagnostics.length = 1 ∧ ClassFile.ofBytes sampleClass = .ok classFile ∧
    Image.ofBytes written = .ok image ∧
    SameClass classFile image outcomes
      (tablesOf image (convertClass { dropNops := false } sampleSymbols sampleClass).symbols) := by
  obtain ⟨written, diagnostics, h, hlength⟩ := sampleClass_converts false
  obtain ⟨classFile, image, outcomes, hfile, hread, hsame⟩ :=
    convertClass_preserves_meaning rfl reachable_sampleSymbols h
  exact ⟨written, diagnostics, classFile, image, outcomes, h, hlength, hfile, hread, hsame⟩

end ClassImage.Conversion
