import ClassImage.Proofs.LeftOut
import ClassImage.Proofs.Numbering
import ClassImage.Proofs.ModifiedUtf8

/-!
# Nothing that is converted is refused by the writer

The counts of a class file have 16 bits, and so do the lengths of its texts, which decoding does not
make longer (`ClassFile.Bounded`). The lists of an image are no longer than those they come from,
line tables are no longer than the code, and the tables of a class stop growing in time. So every
count of an image fits (`countsFit_of_toImage`), writing it into memory never fails, and no
diagnostic says that it did. The same holds of the symbol table as long as its names come from class
files (`Collected.exists_toBytes`).
-/

namespace ClassImage

/-! ### What the counts of a class file bound -/

namespace ClassFile

/-- A constant whose text, if it is one, has a length of 16 bits. -/
def Constant.Short (constant : Constant) : Prop :=
  ∀ text, constant = .utf8 text → text.utf8ByteSize ≤ 0xFFFF

theorem yields_readUtf8 : Yields readUtf8 fun text => text.utf8ByteSize ≤ 0xFFFF := by
  intro bs text rest h
  obtain ⟨length, middle, -, h⟩ := Reader.exists_of_bind_eq_ok h
  obtain ⟨bytes, last, htake, h⟩ := Reader.exists_of_bind_eq_ok h
  obtain ⟨-, -, -, hlength⟩ := Returns.take length.toNat middle bytes last htake
  have hlt := length.toNat_lt
  cases hdecoded : Text.ModifiedUtf8.decode? bytes with
  | none =>
    rw [hdecoded] at h
    exact absurd h (by simp [Reader.throw_apply])
  | some decoded =>
    rw [hdecoded] at h
    obtain ⟨rfl, -⟩ := Prod.mk.inj (Except.ok.inj h)
    have hle := Text.ModifiedUtf8.utf8ByteSize_le_of_decode? hdecoded
    omega

theorem yields_constant (slot : Nat) : Yields (Constant.read slot) Constant.Short := by
  refine Yields.after fun tag => ?_
  unfold Constant.readBody
  split
  · refine yields_readUtf8.bind fun text htext => Yields.pure ?_
    rintro text' heq
    obtain rfl := Constant.utf8.inj heq
    exact htext
  all_goals first
    | exact Yields.throw _
    | exact Yields.after fun _ => Yields.pure fun _ heq => absurd heq (by simp)
    | exact Yields.after fun _ => Yields.after fun _ => Yields.pure fun _ heq =>
        absurd heq (by simp)

theorem yields_readSlots (count bound : Nat) {slots : Layout Constant}
    (h : ∀ constant ∈ slots.entries, constant.Short) :
    Yields (ConstantPool.readSlots count bound slots) fun slots =>
      ∀ constant ∈ slots.entries, constant.Short := by
  induction bound generalizing slots with
  | zero => exact Yields.pure h
  | succ bound ih =>
    rw [readSlots_succ]
    split
    · refine (yields_constant _).bind fun constant hconstant => ih fun other hother => ?_
      rcases Array.mem_push.mp hother with hold | rfl
      · exact h other hold
      · exact hconstant
    · exact Yields.pure h

theorem yields_constantPool : Yields ConstantPool.read fun pool =>
    ∀ constant ∈ pool.slots.entries, constant.Short := by
  refine Yields.after fun count => ?_
  have hnone : ∀ constant ∈ (Layout.startingAt 1 : Layout Constant).entries, constant.Short :=
    fun _ hmem => absurd hmem (Array.not_mem_empty _)
  refine (yields_readSlots _ _ hnone).bind fun slots hslots => ?_
  dsimp only
  split
  · exact (Yields.throw (P := fun _ => False) _).bind fun _ h => h.elim
  · exact Yields.pure hslots

/-- What the counts of a class file say about it. -/
structure Bounded (classFile : ClassFile) : Prop where
  constants : ∀ constant ∈ classFile.constants.slots.entries, constant.Short
  interfaces : classFile.interfaces.length ≤ 0xFFFF
  fields : classFile.fields.length ≤ 0xFFFF
  methods : classFile.methods.length ≤ 0xFFFF

theorem yields_read : Yields ClassFile.read Bounded := by
  refine Yields.after fun opening => ?_
  split
  · refine Yields.after fun version => yields_constantPool.bind fun constants hconstants =>
      Yields.after fun accessFlags => Yields.after fun thisClass => Yields.after fun superClass =>
      (Yields.length_counted .big).bind fun interfaces hinterfaces =>
      (Yields.length_counted .big).bind fun fields hfields =>
      (Yields.length_counted .big).bind fun methods hmethods => Yields.after fun attributes => ?_
    exact Yields.pure ⟨hconstants, hinterfaces, hfields, hmethods⟩
  · exact (Yields.throw (P := fun _ => False) _).bind fun _ h => h.elim

theorem bounded_of_ofBytes {bytes : Bytes} {classFile : ClassFile}
    (h : ofBytes bytes = .ok classFile) :
    classFile.Bounded := by
  obtain ⟨⟨classFile', rest⟩, hread, h⟩ := bind_eq_ok_iff.mp h
  obtain rfl : classFile' = classFile := Except.ok.inj h
  exact yields_read bytes classFile' rest hread

theorem yields_code : Yields Code.read fun code => code.exceptions.length ≤ 0xFFFF := by
  refine Yields.after fun maxStack => Yields.after fun maxLocals => Yields.after fun length =>
    Yields.after fun bytes => (Yields.length_counted .big).bind fun exceptions hexceptions =>
    Yields.after fun attributes => ?_
  exact Yields.pure hexceptions

end ClassFile

namespace Conversion

open ClassFile (ConstantPool)
open Body (IsAssembly)

/-! ### Texts -/

section Texts

variable {classFile : ClassFile} {text : String}

theorem HasText.short (h : HasText classFile.constants text) (hbounded : classFile.Bounded) :
    text.utf8ByteSize ≤ 0xFFFF := by
  obtain ⟨index, h⟩ := h
  obtain ⟨constant, hget, h⟩ := bind_eq_ok_iff.mp h
  obtain ⟨slot, hmem⟩ := exists_mem_of_get hget
  split at h
  · rename_i text'
    obtain rfl : text' = text := Except.ok.inj h
    exact hbounded.constants _ (Array.mem_toList_iff.mp (List.of_mem_zip hmem).2) text' rfl
  · exact absurd h (by simp [throw, throwThe, MonadExceptOf.throw])

theorem NamesClass.hasText {constants : ConstantPool} {name : String}
    (h : NamesClass constants name) :
    HasText constants name := by
  obtain ⟨index, h⟩ := h
  obtain ⟨constant, -, h⟩ := bind_eq_ok_iff.mp h
  split at h
  · exact ⟨_, h⟩
  · exact absurd h (by simp [throw, throwThe, MonadExceptOf.throw])

end Texts

/-! ### Lines and handlers -/

section Bodies

variable {settings : Settings} {constants : ConstantPool} {method : Image.Method} {T : Tables}

theorem length_instructions_le_stop (body : Body) : body.instructions.length ≤ body.stop := by
  have hall : ∀ insns : List Body.Instruction, insns.length ≤
      totalSize Body.Instruction.length insns := by
    intro insns
    induction insns with
    | nil => exact Nat.le_refl 0
    | cons insn insns ih =>
      have hpos := insn.length_pos
      rw [List.length_cons, totalSize_cons]
      omega
  exact hall body.instructions

/-- There are no more lines than bytes of code. -/
theorem length_lines_le {body : Body} {assembly : Body.Assembly} {groups : List (List Image.Record)}
    (h : IsAssembly settings body assembly groups) : assembly.lines.length ≤ 0xFFFF := by
  have hlines := h.line_offsets_sublist.length_le
  have hbody := length_instructions_le_stop body
  have hstop := h.stop_le
  rw [List.length_map, Body.length_starts] at hlines
  omega

theorem length_handlers_finished_le (settings : Settings) (body : Body) :
    (finished settings body).handlers.length ≤ body.handlers.length := by
  rw [finished]
  split
  · rw [Body.withoutNops_handlers]
    exact Nat.le_trans (List.length_filter_le _ _) (Nat.le_of_eq (List.length_map _))
  · exact Nat.le_refl _

theorem KeepsBody.counts_fit {code : Option ClassFile.Code}
    (h : KeepsBody settings constants method T code)
    (hcode : ∀ code', code = some code' → code'.exceptions.length ≤ 0xFFFF) :
    method.lines.length ≤ 0xFFFF ∧ method.handlers.length ≤ 0xFFFF := by
  cases h with
  | bodiless _ hlines hhandlers =>
    rw [hlines, hhandlers]
    exact ⟨Nat.zero_le _, Nat.zero_le _⟩
  | @code code decoded lowered groups assembly hkeeps _ hlines hhandlers =>
    have hsource := hcode code rfl
    have hlowered := hkeeps.lowers.handlers.length_eq
    have hfinished := length_handlers_finished_le settings lowered
    have hplaced := hkeeps.assembles.handlers.length_eq
    rw [hlines, hhandlers]
    exact ⟨length_lines_le hkeeps.assembles, by omega⟩

theorem KeepsMethod.counts_fit {source : ClassFile.Method}
    (h : KeepsMethod settings constants source method T) :
    method.lines.length ≤ 0xFFFF ∧ method.handlers.length ≤ 0xFFFF := by
  obtain ⟨code, hcode, hbody⟩ := h.body
  refine hbody.counts_fit ?_
  rintro code' rfl
  exact ClassFile.Attribute.find_ok ClassFile.yields_code hcode

end Bodies

/-! ### Images -/

section Images

variable {settings : Settings} {symbols : SymbolTable} {bytes : Bytes} {classFile : ClassFile}

theorem length_of_runFrom_mapM {α β : Type} {f : α → Convert β} {as : List α} {results : List β}
    {work after : Workspace} (h : runFrom (as.mapM f) work = (.ok results, after)) :
    results.length = as.length := by
  induction as generalizing work results with
  | nil =>
    obtain rfl : [] = results := Except.ok.inj (congrArg Prod.fst h)
    rfl
  | cons a as ih =>
    obtain ⟨b, bs, middle, -, hrest, rfl⟩ := exists_of_runFrom_mapM_cons h
    rw [List.length_cons, List.length_cons, ih hrest]

/-- The head of an image has as many interfaces and fields as that of the class file. -/
theorem lengths_of_convertHead {className : String} {work after : Workspace} {head : Head}
    (h : runFrom (convertHead className classFile) work = (.ok head, after)) :
    head.interfaces.length = classFile.interfaces.length ∧ head.fields.length =
      classFile.fields.length := by
  obtain ⟨⟨thisClass, superClass, interfaces⟩, middle, hnames, h⟩ := exists_of_runFrom_bind h
  obtain ⟨sourceName, middle₁, -, h⟩ := exists_of_runFrom_bind h
  obtain ⟨sourceFile, middle₂, -, h⟩ := exists_of_runFrom_bind h
  obtain ⟨fields, middle₃, hfields, h⟩ := exists_of_runFrom_bind h
  obtain rfl := Except.ok.inj (congrArg Prod.fst h)
  obtain ⟨this, names₁, -, hnames⟩ := exists_of_runFrom_bind hnames
  obtain ⟨superName, names₂, -, hnames⟩ := exists_of_runFrom_bind hnames
  obtain ⟨super, names₃, -, hnames⟩ := exists_of_runFrom_bind hnames
  obtain ⟨numbers, names₄, hinterfaces, hnames⟩ := exists_of_runFrom_bind hnames
  obtain ⟨-, hpair⟩ := Prod.mk.inj (Except.ok.inj (congrArg Prod.fst hnames))
  obtain ⟨-, rfl⟩ := Prod.mk.inj hpair
  exact ⟨length_of_runFrom_mapM hinterfaces, length_of_runFrom_mapM hfields⟩

/-- **Every count of an image fits.** -/
theorem countsFit_of_toImage (hsymbols : symbols.names.WellFormed) {className : String}
    {image : Image} {diagnostics : List Diagnostic}
    (h : (toImage settings symbols bytes).result = .ok (className, image, diagnostics)) :
    image.CountsFit := by
  obtain ⟨classFile, work, hfile, hcompleted, -⟩ := toImage_ok hsymbols h
  obtain ⟨hname, after, hrun, -⟩ := exists_run_of_toImage_ok hfile h
  obtain ⟨head, middle, outcomes, hhead, hmethods, rfl⟩ := exists_parts_of_convertFile hrun
  obtain ⟨kept, hkeeps⟩ := hcompleted.keeps
  have hclass := hkeeps work.tables (Tables.le_refl _)
  have hbounded := ClassFile.bounded_of_ofBytes hfile
  obtain ⟨hinterfaces, hfields⟩ := lengths_of_convertHead hhead
  have hstart := Workspace.indexed_announced hsymbols className classFile.version
  have heffect := (forgiving_convertFile settings hname).effect hstart
  rw [hrun] at heffect
  have htable {α : Type} [Ord α] {table : Interned α} (h : table.WellFormed) :
      table.toList.length ≤ 0xFFFF := by
    rw [Interned.length_toList]
    exact h.size_le
  refine ⟨?_, htable heffect.indexed.names, ?_, htable heffect.indexed.constants,
    htable heffect.indexed.members, ?_, ?_, ?_, ?_⟩
  · exact hinterfaces.symm ▸ hbounded.interfaces
  · intro name hmem
    rcases heffect.names name hmem with hold | htext
    · exact absurd hold List.not_mem_nil
    · exact htext.short hbounded
  · exact hfields.symm ▸ hbounded.fields
  · have hlength := length_of_runFrom_mapM hmethods
    exact Nat.le_trans (List.reduceOption_length_le outcomes) (hlength.symm ▸ hbounded.methods)
  · intro method hmem
    obtain ⟨source, -, hmethod⟩ := hclass.exists_source hmem
    exact hmethod.counts_fit.1
  · intro method hmem
    obtain ⟨source, -, hmethod⟩ := hclass.exists_source hmem
    exact hmethod.counts_fit.2

end Images

/-! ### Diagnostics -/

theorem kind_ne_writeFailure {e : Error} (h : e.isClassFatal = false) : e.kind ≠ .writeFailure := by
  cases e with
  | writeFailure => exact absurd h (by simp [Error.isClassFatal])
  | _ => exact fun hkind => absurd hkind (by simp [Error.kind])

section Diagnostics

variable {settings : Settings} {symbols : SymbolTable} {bytes : Bytes}

/-- The diagnostics of an outcome, which stand in the result or take its place. -/
def Outcome.diagnostics {α : Type} (inResult : α → List Diagnostic) (outcome : Outcome α) :
    List Diagnostic :=
  match outcome.result with
  | .ok a => inResult a
  | .error diagnostics => diagnostics

theorem diagnostics_outcomeOf (className : String) (run : Except Error Image × Workspace) :
    (outcomeOf className run).diagnostics (fun result => result.2.2) =
      run.2.diagnostics.toList := by
  rcases run with ⟨e | image, work⟩ <;> rfl

theorem harmless_unreadable {α : Type} (inResult : α → List Diagnostic) (description : String)
    (fault : ClassFile.Fault) :
    ∀ diagnostic ∈ (Outcome.unreadable symbols description fault).diagnostics inResult,
      diagnostic.error.isClassFatal = false := by
  intro diagnostic hmem
  obtain rfl := List.mem_singleton.mp hmem
  exact isClassFatal_of_isOwn (isOwn_ofFault fault)

/-- No step of a conversion says that writing failed. -/
theorem harmless_toImage :
    ∀ diagnostic ∈ (toImage settings symbols bytes).diagnostics fun result => result.2.2,
      diagnostic.error.isClassFatal = false := by
  cases hfile : ClassFile.ofBytes bytes with
  | error fault =>
    rw [toImage, hfile]
    exact harmless_unreadable _ _ fault
  | ok classFile =>
    cases hname : classFile.name with
    | error fault =>
      simp only [toImage, hfile, hname]
      exact harmless_unreadable _ _ fault
    | ok className =>
      have hsteps := forgiving_classSteps settings hname
      have hnone : ∀ diagnostic ∈ (Workspace.start symbols).diagnostics,
          diagnostic.error.isClassFatal = false :=
        fun _ hmem => absurd hmem (Array.not_mem_empty _)
      intro diagnostic hmem
      rw [toImage_eq_outcomeOf hfile hname, diagnostics_outcomeOf] at hmem
      exact (hsteps.harmless hnone).2 diagnostic (Array.mem_toList_iff.mp hmem)

theorem exists_written (hsymbols : symbols.names.WellFormed) {className : String} {image : Image}
    {diagnostics : List Diagnostic}
    (h : (toImage settings symbols bytes).result = .ok (className, image, diagnostics)) :
    ∃ written, (convertClass settings symbols bytes).result = .ok (written, diagnostics) :=
  ⟨_, convertClass_result_of_toImage h
    ((Image.emits_image image).toBytes (countsFit_of_toImage hsymbols h))⟩

theorem convertClass_result_of_error {diagnostics : List Diagnostic}
    (h : (toImage settings symbols bytes).result = .error diagnostics) :
    (convertClass settings symbols bytes).result = .error diagnostics := by
  rw [convertClass, convertInto]
  rcases htoImage : toImage settings symbols bytes with ⟨result, symbols', events⟩
  rw [htoImage] at h
  obtain rfl : result = .error diagnostics := h
  rfl

/-- A conversion to memory has the diagnostics of its steps and no others. -/
theorem diagnostics_convertClass (hsymbols : symbols.names.WellFormed) :
    (convertClass settings symbols bytes).diagnostics (fun result => result.2) =
      (toImage settings symbols bytes).diagnostics fun result => result.2.2 := by
  unfold Outcome.diagnostics
  rcases h : (toImage settings symbols bytes).result with
    diagnostics | ⟨className, image, diagnostics⟩
  · rw [convertClass_result_of_error h]
  · obtain ⟨written, hwritten⟩ := exists_written hsymbols h
    rw [hwritten]

end Diagnostics

/-! ### Symbol tables -/

/-- A symbol table with names from class files only: it was made by looking into class files and
converting them, and by entering names that it had already. -/
inductive Collected : SymbolTable → Prop where
  | empty : Collected .empty
  | known {symbols : SymbolTable} (h : Collected symbols) {name : String}
    (hname : name ∈ symbols.toList) :
    Collected (symbols.intern name).2
  | prepopulate {symbols : SymbolTable} (h : Collected symbols) {bytes : Bytes}
    {classFile : ClassFile} (hfile : ClassFile.ofBytes bytes = .ok classFile) :
    Collected (symbols.prepopulate classFile).2
  | convert {symbols : SymbolTable} (h : Collected symbols) (settings : Settings) (bytes : Bytes)
    (sink : Sink) : Collected (convertInto settings symbols bytes sink).1.symbols

section Symbols

variable {symbols : SymbolTable} {classFile : ClassFile}

theorem Collected.reachable (h : Collected symbols) : Reachable symbols := by
  induction h with
  | empty => exact .empty
  | known _ _ ih => exact ih.intern _
  | prepopulate _ _ ih => exact ih.prepopulate _
  | convert _ settings bytes sink ih => exact ih.convert settings bytes sink

theorem mem_intern (h : symbols.names.WellFormed) {name other : String}
    (hmem : other ∈ (symbols.intern name).2.toList) : other ∈ symbols.toList ∨ other = name := by
  have hspec := Interned.intern_spec h name
  rw [SymbolTable.intern] at hmem
  rcases hrun : symbols.names.intern name with ⟨_ | i, names⟩ <;> rw [hrun] at hspec hmem <;>
    exact hspec.mem hmem

theorem mem_internAll (h : symbols.names.WellFormed) {names : List (Except ClassFile.Fault String)}
    {other : String} (hmem : other ∈ (symbols.internAll names).2.toList) :
    other ∈ symbols.toList ∨ .ok other ∈ names := by
  induction names generalizing symbols with
  | nil => exact Or.inl hmem
  | cons name rest ih =>
    cases name with
    | error fault => exact Or.inl hmem
    | ok name =>
      have hwell := wellFormed_intern h name
      have hnew : other ∈ (symbols.intern name).2.toList →
          other ∈ symbols.toList ∨ .ok other ∈ Except.ok name :: rest := by
        intro hfound
        rcases mem_intern h hfound with hold | rfl
        · exact Or.inl hold
        · exact Or.inr List.mem_cons_self
      rw [SymbolTable.internAll] at hmem
      rcases hrun : symbols.intern name with ⟨e | id, symbols'⟩ <;> rw [hrun] at hmem hwell hnew
      · exact hnew hmem
      · rcases ih hwell hmem with hfound | hlater
        · exact hnew hfound
        · exact Or.inr (List.mem_cons_of_mem _ hlater)

/-- The names that a class file refers to are texts of its constants. -/
theorem hasText_of_mem_classNames {name : String}
    (h : .ok name ∈ SymbolTable.classNames classFile) :
    HasText classFile.constants name := by
  rcases List.mem_append.mp h with h | hpool
  · rcases List.mem_append.mp h with h | hinterface
    · rcases List.mem_cons.mp h with hname | habove
      · exact NamesClass.hasText ⟨_, hname.symm⟩
      · cases hsuper : classFile.superName with
        | error fault =>
          rw [hsuper] at habove
          exact absurd (List.mem_singleton.mp habove) (by simp)
        | ok superName =>
          rw [hsuper] at habove
          cases superName with
          | none => exact absurd habove List.not_mem_nil
          | some above =>
            obtain rfl := Except.ok.inj (List.mem_singleton.mp habove)
            exact (namesClass_superName hsuper).hasText
    · obtain ⟨index, -, hname⟩ := List.mem_map.mp hinterface
      exact NamesClass.hasText ⟨index, hname⟩
  · obtain ⟨⟨slot, constant⟩, -, hname⟩ := List.mem_filterMap.mp hpool
    cases constant with
    | classRef text => exact ⟨text, Option.some.inj hname⟩
    | _ => exact absurd hname (by simp)

/-- Converting a class adds names of its own constants only. -/
theorem mem_toImage_symbols {settings : Settings} {bytes : Bytes} (h : symbols.names.WellFormed)
    {name : String} (hmem : name ∈ (toImage settings symbols bytes).symbols.toList) :
    name ∈ symbols.toList ∨
      ∃ classFile, ClassFile.ofBytes bytes = .ok classFile ∧
        NamesClass classFile.constants name := by
  cases hfile : ClassFile.ofBytes bytes with
  | error fault =>
    simp only [toImage, hfile, Outcome.unreadable] at hmem
    exact Or.inl hmem
  | ok classFile =>
    cases hname : classFile.name with
    | error fault =>
      simp only [toImage, hfile, hname, Outcome.unreadable] at hmem
      exact Or.inl hmem
    | ok className =>
      have hsteps := forgiving_classSteps settings hname
      rw [toImage_eq_outcomeOf hfile hname, symbols_outcomeOf] at hmem
      rcases (hsteps.effect (Workspace.indexed_start h)).classes name hmem with hold | hnew
      · exact Or.inl hold
      · exact Or.inr ⟨classFile, rfl, hnew⟩

theorem Collected.short (h : Collected symbols) : symbols.Short := by
  induction h with
  | empty => exact fun _ hmem => absurd hmem List.not_mem_nil
  | known h hname ih =>
    intro other hmem
    rcases mem_intern h.reachable.wellFormed hmem with hold | rfl
    · exact ih other hold
    · exact ih other hname
  | prepopulate h hfile ih =>
    intro other hmem
    rcases mem_internAll h.reachable.wellFormed hmem with hold | hnew
    · exact ih other hold
    · exact (hasText_of_mem_classNames hnew).short (ClassFile.bounded_of_ofBytes hfile)
  | @convert symbols h settings bytes sink ih =>
    intro other hmem
    rw [convertInto_symbols] at hmem
    rcases mem_toImage_symbols h.reachable.wellFormed hmem with hold | ⟨classFile, hfile, hnew⟩
    · exact ih other hold
    · exact hnew.hasText.short (ClassFile.bounded_of_ofBytes hfile)

/-- **A symbol table with names from class files is written.** -/
theorem Collected.exists_toBytes (h : Collected symbols) :
    ∃ written, symbols.toBytes = .ok written :=
  (SymbolTable.exists_toBytes_iff h.reachable.wellFormed).mpr h.short

end Symbols

/-- **Conversions to memory never fail to write.** No diagnostic says so, whether there is an image
or not, because every count of an image fits; and a symbol table with names from class files is
always written. -/
theorem convertClass_never_refused :
    (∀ (settings : Settings) (symbols : SymbolTable) (bytes : Bytes), Reachable symbols →
      (∀ diagnostics, (convertClass settings symbols bytes).result = .error diagnostics →
        ∀ diagnostic ∈ diagnostics, diagnostic.error.kind ≠ .writeFailure) ∧
      (∀ written diagnostics, (convertClass settings symbols bytes).result =
        .ok (written, diagnostics) →
        ∀ diagnostic ∈ diagnostics, diagnostic.error.kind ≠ .writeFailure) ∧
      ∀ className image diagnostics,
        (toImage settings symbols bytes).result = .ok (className, image, diagnostics) →
          image.CountsFit ∧ ∃ written, (convertClass settings symbols bytes).result =
            .ok (written, diagnostics)) ∧
    ∀ symbols, Collected symbols → ∃ written, symbols.toBytes = .ok written := by
  refine ⟨fun settings symbols bytes hreachable => ?_, fun symbols h => h.exists_toBytes⟩
  have hwell := hreachable.wellFormed
  have hnone :
      ∀ diagnostic ∈ (convertClass settings symbols bytes).diagnostics fun result => result.2,
        diagnostic.error.kind ≠ .writeFailure := by
    intro diagnostic hmem
    rw [diagnostics_convertClass hwell] at hmem
    exact kind_ne_writeFailure (harmless_toImage diagnostic hmem)
  refine ⟨?_, ?_, ?_⟩
  · intro diagnostics h
    simp only [Outcome.diagnostics, h] at hnone
    exact hnone
  · intro written diagnostics h
    simp only [Outcome.diagnostics, h] at hnone
    exact hnone
  · intro className image diagnostics h
    exact ⟨countsFit_of_toImage hwell h, exists_written hwell h⟩

/-- The class `A` is written with one method left out, and then the symbol table is written. -/
theorem sampleClass_never_refused : Reachable sampleSymbols ∧
    (∃ written diagnostics, (convertClass { dropNops := true } sampleSymbols sampleClass).result =
        .ok (written, diagnostics) ∧ diagnostics.length = 1 ∧
      ∀ diagnostic ∈ diagnostics, diagnostic.error.kind ≠ .writeFailure) ∧
    ∃ written, (convertInto {} .empty sampleClass .unlimited).1.symbols.toBytes = .ok written := by
  obtain ⟨written, diagnostics, hresult, hlength⟩ := sampleClass_converts true
  obtain ⟨-, hnone, -⟩ :=
    convertClass_never_refused.1 { dropNops := true } sampleSymbols sampleClass
      reachable_sampleSymbols
  exact ⟨reachable_sampleSymbols, ⟨written, diagnostics, hresult, hlength,
    hnone written diagnostics hresult⟩, convertClass_never_refused.2 _
      (.convert .empty {} sampleClass .unlimited)⟩

end Conversion

end ClassImage
