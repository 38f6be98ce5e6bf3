import ClassImage.Proofs.Replay
import ClassImage.Proofs.Translation

/-!
# Sessions

A session enters names, looks into class files and converts them, all with one symbol table.
Whatever is done, the table only grows (`Leads.extends`), so a class that is converted again finds
every class where it was the first time. The second conversion therefore has the same result, and it
leaves the table as it is (`convertClass_again`).
-/

namespace ClassImage.Conversion

/-! ### Symbol tables that grow -/

/-- A symbol table that has all the classes of another one, under the same numbers. -/
structure Extends (symbols later : SymbolTable) : Prop where
  wellFormed : later.names.WellFormed
  grows : symbols.toList <+: later.toList

namespace Extends

variable {symbols later last : SymbolTable}

theorem refl (h : symbols.names.WellFormed) : Extends symbols symbols := ⟨h, List.prefix_rfl⟩

theorem trans (h : Extends symbols later) (h' : Extends later last) : Extends symbols last :=
  ⟨h'.wellFormed, h.grows.trans h'.grows⟩

theorem intern (h : symbols.names.WellFormed) (name : String) :
    Extends symbols (symbols.intern name).2 := by
  refine ⟨wellFormed_intern h name, ?_⟩
  have hspec := Interned.intern_spec h name
  rw [SymbolTable.intern]
  rcases hrun : symbols.names.intern name with ⟨_ | i, names⟩ <;> rw [hrun] at hspec <;>
    exact hspec.prefix_toList

theorem internAll (h : symbols.names.WellFormed) (names : List (Except ClassFile.Fault String)) :
    Extends symbols (symbols.internAll names).2 := by
  induction names generalizing symbols with
  | nil => exact refl h
  | cons name rest ih =>
    cases name with
    | error fault => exact refl h
    | ok name =>
      have hintern := intern h name
      rw [SymbolTable.internAll]
      rcases hrun : symbols.intern name with ⟨e | id, symbols'⟩ <;> rw [hrun] at hintern
      · exact hintern
      · exact hintern.trans (ih hintern.wellFormed)

theorem toImage (h : symbols.names.WellFormed) (settings : Settings) (bytes : Bytes) :
    Extends symbols (toImage settings symbols bytes).symbols :=
  ⟨(toImage_symbols h).1, (toImage_symbols h).2⟩

end Extends

/-- What a session makes of a symbol table, whether its steps succeed or fail. -/
inductive Leads (start : SymbolTable) : SymbolTable → Prop where
  | refl : Leads start start
  | intern {symbols : SymbolTable} (h : Leads start symbols) (name : String) :
    Leads start (symbols.intern name).2
  | prepopulate {symbols : SymbolTable} (h : Leads start symbols) (classFile : ClassFile) :
    Leads start (symbols.prepopulate classFile).2
  | convert {symbols : SymbolTable} (h : Leads start symbols) (settings : Settings) (bytes : Bytes)
    (sink : Sink) : Leads start (convertInto settings symbols bytes sink).1.symbols

/-- **Sessions forget no class.** -/
theorem Leads.extends {start symbols : SymbolTable} (h : Leads start symbols)
    (hstart : start.names.WellFormed) : Extends start symbols := by
  induction h with
  | refl => exact .refl hstart
  | intern _ name ih => exact ih.trans (.intern ih.wellFormed name)
  | prepopulate _ classFile ih => exact ih.trans (.internAll ih.wellFormed _)
  | convert _ settings bytes sink ih =>
    rw [convertInto_symbols]
    exact ih.trans (.toImage ih.wellFormed settings bytes)

/-! ### Converting again -/

section Again

variable {settings : Settings} {symbols later : SymbolTable} {bytes : Bytes}

/-- The outcome of a class by what its steps came to. -/
def outcomeOf (className : String) : Except Error Image × Workspace →
    Outcome (String × Image × List Diagnostic)
  | (.ok image, work) =>
    ⟨.ok (className, image, work.diagnostics.toList), work.symbols, work.events.toList⟩
  | (.error _, work) => ⟨.error work.diagnostics.toList, work.symbols, work.events.toList⟩

theorem toImage_eq_outcomeOf {classFile : ClassFile} {className : String}
    (hfile : ClassFile.ofBytes bytes = .ok classFile) (hname : classFile.name = .ok className) :
    toImage settings symbols bytes =
      outcomeOf className (runFrom (classSteps settings className classFile) (.start symbols)) :=
  toImage_eq hfile hname

theorem symbols_outcomeOf (className : String) (run : Except Error Image × Workspace) :
    (outcomeOf className run).symbols = run.2.symbols := by
  rcases run with ⟨e | image, work⟩ <;> rfl

/-- The state in which a class is announced and nothing of it is converted yet. -/
def Workspace.announced (symbols : SymbolTable) (className : String) (version : ClassFile.Version) :
    Workspace :=
  ⟨symbols, .empty, #[.convertingClass className version], #[]⟩

theorem Workspace.indexed_announced (h : symbols.names.WellFormed) (className : String)
    (version : ClassFile.Version) : (Workspace.announced symbols className version).Indexed := by
  have hstart := Workspace.indexed_start h
  exact ⟨hstart.classes, hstart.names, hstart.constants, hstart.members⟩

/-- A class is announced and converted, and its failure is reported. -/
theorem runFrom_classSteps (settings : Settings) (className : String) (classFile : ClassFile)
    (symbols : SymbolTable) : runFrom (classSteps settings className classFile) (.start symbols) =
      match runFrom (convertFile settings className classFile)
          (.announced symbols className classFile.version) with
      | (.ok image, after) => (.ok image, after)
      | (.error e, after) => (.error e, { after with
          events := after.events.push (.failed { className, method := none, error := e })
          diagnostics := after.diagnostics.push { className, method := none, error := e } }) := by
  have hannounced : runFrom (classSteps settings className classFile) (.start symbols) =
      runFrom (tryCatch (convertFile settings className classFile) fun e =>
        leaveOut { className, method := none, error := e } >>= fun _ => throw e)
        (.announced symbols className classFile.version) := rfl
  rw [hannounced, runFrom_reported]
  rcases runFrom (convertFile settings className classFile)
    (.announced symbols className classFile.version) with
    ⟨e | image, after⟩ <;> rfl

/-- Runs from the start that do the same have the same outcome, apart from the symbol table. -/
theorem Replayed.outcomeOf_eq {run run' : Except Error Image × Workspace}
    (h : Replayed (.start symbols) (.start later) run run') (className : String) :
    outcomeOf className run' = { outcomeOf className run with symbols := later } := by
  obtain ⟨hresult, hsymbols, -, events, diagnostics, hlog, hlog'⟩ := h
  -- Nothing is reported before the start, so both runs report the same in all.
  have hevents := hlog'.events.trans hlog.events.symm
  have hdiagnostics := hlog'.diagnostics.trans hlog.diagnostics.symm
  obtain ⟨result, work⟩ := run
  obtain ⟨result', symbols', pool', events', diagnostics'⟩ := run'
  obtain rfl : result' = result := hresult
  obtain rfl : symbols' = later := hsymbols
  obtain rfl : events' = work.events := hevents
  obtain rfl : diagnostics' = work.diagnostics := hdiagnostics
  cases result' <;> rfl

/-- A class is converted to the same image again. -/
theorem toImage_again (h : symbols.names.WellFormed)
    (hlater : Extends (toImage settings symbols bytes).symbols later) :
    toImage settings later bytes = { toImage settings symbols bytes with symbols := later } := by
  cases hfile : ClassFile.ofBytes bytes with
  | error fault => simp only [toImage, hfile, Outcome.unreadable]
  | ok classFile =>
    cases hname : classFile.name with
    | error fault => simp only [toImage, hfile, hname, Outcome.unreadable]
    | ok className =>
      have hsteps := forgiving_classSteps settings hname
      rw [toImage_eq_outcomeOf hfile hname, symbols_outcomeOf] at hlater
      rw [toImage_eq_outcomeOf hfile hname, toImage_eq_outcomeOf hfile hname]
      exact (hsteps.replays _ _ (Workspace.indexed_start h)
        (Workspace.indexed_start hlater.wellFormed) ⟨rfl, rfl, rfl⟩
        hlater.grows).outcomeOf_eq className

theorem convertInto_again (h : symbols.names.WellFormed)
    (hlater : Extends (toImage settings symbols bytes).symbols later) (sink : Sink) :
    convertInto settings later bytes sink =
      ({ (convertInto settings symbols bytes sink).1 with symbols := later },
        (convertInto settings symbols bytes sink).2) := by
  rw [convertInto, convertInto, toImage_again h hlater]
  rcases toImage settings symbols bytes with
    ⟨diagnostics | ⟨className, image, diagnostics⟩, symbols', events⟩
  · rfl
  · dsimp only
    rcases image.write.run.run sink with ⟨fault | _, sink'⟩ <;> rfl

theorem convertClass_again (h : symbols.names.WellFormed)
    (hlater : Extends (toImage settings symbols bytes).symbols later) :
    convertClass settings later bytes = { convertClass settings symbols bytes with
      symbols := later } := by
  simp only [convertClass, convertInto_again h hlater]

end Again

/-- **Results do not change while the session goes on.** However the symbol table grows after a
class was converted, converting the class again has the same result and leaves the table as it
is. -/
theorem convertClass_stable {symbols : SymbolTable} (h : Reachable symbols) (settings : Settings)
    (bytes : Bytes) {later : SymbolTable}
    (hlater : Leads (convertClass settings symbols bytes).symbols later) :
    convertClass settings later bytes = { convertClass settings symbols bytes with
      symbols := later } := by
  have hwell := h.wellFormed
  rw [convertClass_symbols] at hlater
  exact convertClass_again hwell (hlater.extends (toImage_symbols hwell).1)

/-- A session that converted the class `A` and then met `D`. -/
def sampleLater : SymbolTable := ((convertClass {} sampleSymbols sampleClass).symbols.intern "D").2

theorem sampleClass_stable :
    sampleSymbols.toList = ["C"] ∧ sampleLater.toList = ["C", "A", "B", "D"] ∧
    convertClass {} sampleLater sampleClass =
      { convertClass {} sampleSymbols sampleClass with symbols := sampleLater } :=
  ⟨by decide +kernel, by decide +kernel,
    convertClass_stable reachable_sampleSymbols {} sampleClass (.intern .refl "D")⟩

end ClassImage.Conversion
