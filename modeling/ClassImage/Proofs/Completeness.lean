import ClassImage.Proofs.Writing

/-!
# Looking into a class file prepares for its conversion

A conversion asks the symbol table for classes in many places: the class itself, the class above,
the interfaces, instructions, loaded constants, owners of members, and catch types. All of them are
class constants of the class file, and looking into it enters every one of those
(`knowsAll_prepopulate`). A table that knows them all is only asked for what it has. So no step of
the conversion changes it, and none fails for want of a number, not even in a method that fails for
another reason (`Straight.of_knowsAll`).
-/

namespace ClassImage.Conversion

open ClassFile (ConstantPool)

/-! ### Tables that know all classes of a constant pool -/

/-- A symbol table that has every class which the constants name. -/
def KnowsAll (symbols : SymbolTable) (constants : ConstantPool) : Prop :=
  ∀ name, NamesClass constants name → name ∈ symbols.toList

theorem KnowsAll.extends {symbols later : SymbolTable} {constants : ConstantPool}
    (h : KnowsAll symbols constants) (hlater : Extends symbols later) : KnowsAll later constants :=
  fun name hname => hlater.grows.subset (h name hname)

section Enter

variable {symbols : SymbolTable}

/-- Names that were entered without an error are all there. -/
theorem mem_of_internAll_ok (h : symbols.names.WellFormed)
    {names : List (Except ClassFile.Fault String)} (hok : (symbols.internAll names).1 = .ok ())
    {name : String} (hname : .ok name ∈ names) :
    name ∈ (symbols.internAll names).2.toList := by
  induction names generalizing symbols with
  | nil => exact absurd hname List.not_mem_nil
  | cons first rest ih =>
    cases first with
    | error fault => exact absurd hok (by simp [SymbolTable.internAll])
    | ok first =>
      have hwell := wellFormed_intern h first
      rw [SymbolTable.internAll] at hok ⊢
      rcases hrun : symbols.intern first with ⟨e | id, symbols'⟩ <;> rw [hrun] at hok hwell
      · exact absurd hok (by simp)
      · rcases List.mem_cons.mp hname with heq | hmem
        · obtain rfl := Except.ok.inj heq
          have hmem := SymbolTable.mem_of_lookup hwell (SymbolTable.lookup_of_intern h hrun)
          exact (Extends.internAll hwell rest).grows.subset hmem
        · exact ih hwell hok hmem

/-- **A table that a class file was looked into with knows all its classes.** -/
theorem knowsAll_prepopulate (h : symbols.names.WellFormed) {classFile : ClassFile}
    (hok : (symbols.prepopulate classFile).1 = .ok ()) :
    KnowsAll (symbols.prepopulate classFile).2 classFile.constants :=
  fun _ hname => mem_of_internAll_ok h hok (mem_classNames hname)

end Enter

/-! ### Conversions that ask only for what is known -/

section Knowing

variable {symbols : SymbolTable} {constants : ConstantPool}

/-- A class that the table has is found, and the table stays as it is. -/
theorem runFrom_internClass_of_mem (h : symbols.names.WellFormed) {name : String}
    (hname : name ∈ symbols.toList) {work : Workspace} (hwork : work.symbols = symbols) :
    ∃ id, runFrom (internClass name) work = (.ok id, work) := by
  obtain ⟨i, hi⟩ := List.mem_iff_getElem?.mp hname
  have hfind : work.symbols.names.index[name]? = some (UInt16.ofNat i) := by
    rw [hwork]
    exact h.indexOf?_eq hi
  refine ⟨UInt16.ofNat i, ?_⟩
  rw [runFrom_internClass, Interned.intern_of_known hfind]
  rfl

/-- **A step on known classes leaves the symbol table alone and fails only with errors of the
class.** -/
theorem Straight.of_knowsAll (h : symbols.names.WellFormed) (hknows : KnowsAll symbols constants)
    {α : Type} {step : Convert α} (hstep : Straight constants step) (work : Workspace)
    (hwork : work.symbols = symbols) :
    (runFrom step work).2.symbols = symbols ∧
      ∀ e, (runFrom step work).1 = .error e → e.isOwn = true := by
  induction hstep generalizing work with
  | pure | report => exact ⟨hwork, fun _ he => nomatch he⟩
  | throw hown =>
    refine ⟨hwork, fun e he => ?_⟩
    obtain rfl := Except.error.inj he
    exact hown
  | internClass hname =>
    obtain ⟨id, hrun⟩ := runFrom_internClass_of_mem h (hknows _ hname) hwork
    rw [hrun]
    exact ⟨hwork, fun _ he => nomatch he⟩
  | internName | internConstant | addMember =>
    -- These use the tables of the class, and a full one of them is the fault of the class.
    simp only [runFrom_internName, runFrom_internConstant, runFrom_addMember]
    refine ⟨hwork, fun e he => ?_⟩
    obtain ⟨-, rfl⟩ := eq_of_found_eq_error he
    rfl
  | @bind _ _ step next _ _ ih ih' =>
    obtain ⟨hsymbols, herrors⟩ := ih work hwork
    rw [runFrom_bind]
    rcases hrun : runFrom step work with ⟨e | a, middle⟩ <;> rw [hrun] at hsymbols herrors
    · refine ⟨hsymbols, fun e' he => ?_⟩
      obtain rfl := Except.error.inj he
      exact herrors e rfl
    · exact ih' a middle hsymbols

variable {bytes : Bytes} {classFile : ClassFile}

theorem isOwn_unreadable {α : Type} (inResult : α → List Diagnostic) (description : String)
    (fault : ClassFile.Fault) :
    ∀ diagnostic ∈ (Outcome.unreadable symbols description fault).diagnostics inResult,
      diagnostic.error.isOwn = true := by
  intro diagnostic hmem
  obtain rfl := List.mem_singleton.mp hmem
  exact isOwn_ofFault fault

/-- A class whose classes are known is converted without entering one and without missing one. -/
theorem toImage_of_knowsAll (settings : Settings) (h : symbols.names.WellFormed)
    (hfile : ClassFile.ofBytes bytes = .ok classFile)
    (hknows : KnowsAll symbols classFile.constants) :
    (toImage settings symbols bytes).symbols = symbols ∧
      ∀ diagnostic ∈ (toImage settings symbols bytes).diagnostics fun result => result.2.2,
        diagnostic.error.isOwn = true := by
  cases hname : classFile.name with
  | error fault =>
    simp only [toImage, hfile, hname]
    exact ⟨rfl, isOwn_unreadable _ _ fault⟩
  | ok className =>
    have hnone : ∀ diagnostic ∈ (Workspace.start symbols).diagnostics,
        diagnostic.error.isOwn = true :=
      fun _ hmem => absurd hmem (Array.not_mem_empty _)
    obtain ⟨hsymbols, -, hdiagnostics⟩ := (forgiving_classSteps settings hname).carries
      (fun table => table = symbols) (fun hstep => hstep.of_knowsAll h hknows) rfl hnone
    rw [toImage_eq_outcomeOf hfile hname, symbols_outcomeOf, diagnostics_outcomeOf]
    exact ⟨hsymbols, fun diagnostic hmem => hdiagnostics diagnostic (Array.mem_toList_iff.mp hmem)⟩

end Knowing

theorem ne_classLimit_of_isOwn {e : Error} (h : e.isOwn = true) : e ≠ .unsupported .classLimit := by
  rintro rfl
  exact absurd h (by simp [Error.isOwn])

/-- **Looking into a class file prepares for its conversion.** Once the class file was looked into
without an error, converting it at any later time enters no class, whatever becomes of its methods,
and no diagnostic says that there are too many classes. -/
theorem convertClass_after_prepopulate {start : SymbolTable} (hstart : Reachable start)
    {bytes : Bytes} {classFile : ClassFile} (hfile : ClassFile.ofBytes bytes = .ok classFile)
    (hentered : (start.prepopulate classFile).1 = .ok ()) {symbols : SymbolTable}
    (hlater : Leads (start.prepopulate classFile).2 symbols) (settings : Settings) :
    (convertClass settings symbols bytes).symbols = symbols ∧
      ∀ diagnostic ∈ (convertClass settings symbols bytes).diagnostics fun result => result.2,
        diagnostic.error ≠ .unsupported .classLimit := by
  have hextends := hlater.extends (wellFormed_internAll hstart.wellFormed _)
  have hknows : KnowsAll symbols classFile.constants :=
    (knowsAll_prepopulate hstart.wellFormed hentered).extends hextends
  obtain ⟨hsymbols, hdiagnostics⟩ := toImage_of_knowsAll settings hextends.wellFormed hfile hknows
  rw [convertClass_symbols, diagnostics_convertClass hextends.wellFormed]
  exact ⟨hsymbols, fun diagnostic hmem => ne_classLimit_of_isOwn (hdiagnostics diagnostic hmem)⟩

/-- The class `A` is looked into before `D` is met, and then converted with one method left out. -/
theorem sampleClass_after_prepopulate : ∃ classFile, ClassFile.ofBytes sampleClass = .ok classFile ∧
    (sampleSymbols.prepopulate classFile).1 = .ok () ∧ (sampleEntered classFile).toList =
      ["C", "A", "B", "D"] ∧
    ((convertClass {} (sampleEntered classFile) sampleClass).diagnostics fun result =>
      result.2).length = 1 ∧
    (convertClass {} (sampleEntered classFile) sampleClass).symbols = sampleEntered classFile ∧
    ∀ diagnostic ∈ (convertClass {} (sampleEntered classFile) sampleClass).diagnostics fun result =>
      result.2, diagnostic.error ≠ .unsupported .classLimit := by
  have hcheck : (ClassFile.ofBytes sampleClass).toOption.any (fun classFile =>
      (sampleSymbols.prepopulate classFile).1 = .ok () ∧ (sampleEntered classFile).toList =
        ["C", "A", "B", "D"] ∧
        ((convertClass {} (sampleEntered classFile) sampleClass).diagnostics fun result =>
          result.2).length = 1) =
      true := by
    decide +kernel
  cases hfile : ClassFile.ofBytes sampleClass with
  | error fault =>
    rw [hfile] at hcheck
    exact absurd hcheck (by simp [Except.toOption])
  | ok classFile =>
    rw [hfile] at hcheck
    obtain ⟨hentered, hlist, hlength⟩ := of_decide_eq_true hcheck
    exact ⟨classFile, rfl, hentered, hlist, hlength,
      convertClass_after_prepopulate reachable_sampleSymbols hfile hentered (.intern .refl "D") {}⟩

end ClassImage.Conversion
