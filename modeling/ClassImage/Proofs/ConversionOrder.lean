import ClassImage.CommandLine.Run
import ClassImage.Proofs.Prepopulation

/-!
# The order of conversions

A run of the command line looks into all its inputs before it converts the first one. Converting a
class first enters the names at its head, just as looking into it does (`enters_enterNames`), so a
class with a head that cannot be read stops at the same name both times. A class with a head that
can be read is prepared for if all its class constants can be read as well (`Collectable`). If this
holds of all inputs but one, they may be converted in any order (`convertAll_of_length_le_one`). A
class constant that cannot be read keeps the names behind it from being entered, and if that happens
to two inputs, these names are numbered in the order of conversions.
-/

namespace ClassImage

namespace SymbolTable

/-- The names at the head of a class file: its own, the class above and the interfaces. -/
def headNames (classFile : ClassFile) : List (Except ClassFile.Fault String) :=
  let above := match classFile.superName with
    | .ok none => []
    | .ok (some name) => [.ok name]
    | .error fault => [.error fault]
  classFile.name :: above ++ classFile.interfaces.map classFile.constants.className

theorem headNames_prefix_classNames (classFile : ClassFile) : ∃ rest,
    classNames classFile = headNames classFile ++ rest := ⟨_, rfl⟩

theorem internAll_append (symbols : SymbolTable)
    (names rest : List (Except ClassFile.Fault String)) :
    symbols.internAll (names ++ rest) =
      match symbols.internAll names with
      | (.error e, symbols') => (.error e, symbols')
      | (.ok _, symbols') => symbols'.internAll rest := by
  induction names generalizing symbols with
  | nil => rfl
  | cons name names ih =>
    cases name with
    | error fault => rfl
    | ok name =>
      rw [List.cons_append, internAll, internAll]
      rcases symbols.intern name with ⟨e | id, symbols'⟩
      · rfl
      · exact ih symbols'

end SymbolTable

namespace Conversion

open SymbolTable (headNames classNames)

section InternAll

variable {symbols later : SymbolTable}

theorem Extends.internAll_append (h : symbols.names.WellFormed)
    (names rest : List (Except ClassFile.Fault String)) :
    Extends (symbols.internAll names).2 (symbols.internAll (names ++ rest)).2 := by
  have hwell := wellFormed_internAll h names
  rw [SymbolTable.internAll_append]
  rcases hrun : symbols.internAll names with ⟨e | _, symbols'⟩ <;> rw [hrun] at hwell
  · exact .refl hwell
  · exact .internAll hwell rest

/-- A name is found again in every table that grew from the one it was entered into. -/
theorem intern_again (h : symbols.names.WellFormed) {name : String}
    (hlater : Extends (symbols.intern name).2 later) :
    later.intern name = ((symbols.intern name).1, later) := by
  have hgrows : (symbols.names.intern name).2.toList <+: later.names.toList := by
    have hgrows := hlater.grows
    rw [SymbolTable.intern] at hgrows
    rcases hrun : symbols.names.intern name with ⟨_ | i, names⟩ <;>
      rw [hrun] at hgrows <;> exact hgrows
  rw [SymbolTable.intern, SymbolTable.intern, Interned.intern_of_prefix h hlater.wellFormed hgrows]
  rcases symbols.names.intern name with ⟨_ | i, names⟩ <;> rfl

/-- So are many names, up to the same one that cannot be entered. -/
theorem internAll_again (h : symbols.names.WellFormed)
    {names : List (Except ClassFile.Fault String)}
    (hlater : Extends (symbols.internAll names).2 later) :
    later.internAll names = ((symbols.internAll names).1, later) := by
  induction names generalizing symbols with
  | nil => rfl
  | cons name rest ih =>
    cases name with
    | error fault => rfl
    | ok name =>
      have hextends := Extends.intern h name
      rw [SymbolTable.internAll] at hlater ⊢
      rcases hrun : symbols.intern name with ⟨e | id, symbols'⟩ <;> rw [hrun] at hlater hextends
      · have hagain := intern_again h (by rw [hrun]; exact hlater)
        rw [hrun] at hagain
        simp only [SymbolTable.internAll, hagain, hrun]
      · have hagain := intern_again h
          (by rw [hrun]; exact (Extends.internAll hextends.wellFormed rest).trans hlater)
        rw [hrun] at hagain
        simp only [SymbolTable.internAll, hagain, hrun]
        exact ih hextends.wellFormed hlater

end InternAll

/-! ### The head of a class -/

/-- A step that does to the symbol table what entering these names does, and fails as that fails. -/
def Enters {α : Type} (names : List (Except ClassFile.Fault String)) (step : Convert α) : Prop :=
  ∀ work, (runFrom step work).1.map (fun _ => ()) = (work.symbols.internAll names).1 ∧
    (runFrom step work).2.symbols = (work.symbols.internAll names).2

namespace Enters

variable {α β : Type} {names rest : List (Except ClassFile.Fault String)}

theorem pure (a : α) : Enters [] (pure a : Convert α) := fun _ => ⟨rfl, rfl⟩

theorem throw (fault : ClassFile.Fault) :
    Enters [.error fault] (throw (.ofFault fault) : Convert α) :=
  fun _ => ⟨rfl, rfl⟩

theorem internClass (name : String) : Enters [.ok name] (internClass name) := by
  intro work
  rw [runFrom_internClass]
  simp only [SymbolTable.internAll, SymbolTable.intern, found]
  rcases work.symbols.names.intern name with ⟨_ | id, names⟩ <;> exact ⟨rfl, rfl⟩

theorem bind {step : Convert α} {next : α → Convert β} (h : Enters names step)
    (h' : ∀ a, Enters rest (next a)) : Enters (names ++ rest) (step >>= next) := by
  intro work
  obtain ⟨hresult, hsymbols⟩ := h work
  rw [runFrom_bind, SymbolTable.internAll_append]
  rcases hrun : runFrom step work with ⟨e | a, after⟩ <;> rw [hrun] at hresult hsymbols <;>
    rcases hall : work.symbols.internAll names with ⟨e' | _, symbols'⟩ <;>
      rw [hall] at hresult hsymbols
  · exact ⟨hresult, hsymbols⟩
  · exact absurd hresult (by simp [Except.map])
  · exact absurd hresult (by simp [Except.map])
  · obtain rfl : after.symbols = symbols' := hsymbols
    exact h' a after

theorem map {step : Convert α} (h : Enters names step) (f : α → β) : Enters names (f <$> step) := by
  have h' := h.bind fun a => pure (f a)
  rwa [List.append_nil, ← map_eq_pure_bind] at h'

theorem named {name : Except ClassFile.Fault String} :
    Enters [name] (ofFile name >>= fun name => Conversion.internClass name) := by
  cases name with
  | error fault => exact throw fault
  | ok name => exact internClass name

theorem mapM {f : α → Except ClassFile.Fault String} {as : List α} :
    Enters (as.map f) (as.mapM fun a => ofFile (f a) >>= fun name =>
      Conversion.internClass name) := by
  induction as with
  | nil => exact pure []
  | cons a as ih =>
    rw [List.mapM_cons]
    show Enters ([f a] ++ as.map f) _
    refine named.bind fun id => ?_
    have hrest := ih.map (id :: ·)
    rwa [map_eq_pure_bind] at hrest

end Enters

section Head

variable {className : String} {classFile : ClassFile}

/-- **Converting a class starts with the names that looking into it starts with.** -/
theorem enters_enterNames (hname : classFile.name = .ok className) :
    Enters (headNames classFile) (enterNames className classFile) := by
  have hinterfaces (thisClass : ClassId) (superClass : Option ClassId) :
      Enters (classFile.interfaces.map classFile.constants.className) (do
        let interfaces ← classFile.interfaces.mapM fun index => do
          internClass (← ofFile (classFile.constants.className index))
        return (thisClass, superClass, interfaces)) := by
    rw [← map_eq_pure_bind]
    exact Enters.mapM.map _
  rw [headNames, hname, enterNames, List.cons_append]
  show Enters ([.ok className] ++ _) _
  refine (Enters.internClass className).bind fun thisClass => ?_
  cases classFile.superName with
  | error fault =>
    intro work
    exact ⟨rfl, rfl⟩
  | ok superName =>
    cases superName with
    | none => exact hinterfaces thisClass none
    | some name => exact ((Enters.internClass name).map some).bind (hinterfaces thisClass)

/-- A class with a head that cannot be entered ends there. -/
theorem runFrom_convertFile_of_head (settings : Settings) (hname : classFile.name = .ok className)
    {work : Workspace} {e : Error} {symbols : SymbolTable}
    (h : work.symbols.internAll (headNames classFile) = (.error e, symbols)) : ∃ after,
      runFrom (convertFile settings className classFile) work = (.error e, after) ∧
        after.symbols = symbols := by
  obtain ⟨hresult, hsymbols⟩ := enters_enterNames hname work
  rw [h] at hresult hsymbols
  rw [convertFile_eq, convertHead, bind_assoc, runFrom_bind]
  rcases hrun : runFrom (enterNames className classFile) work with ⟨e' | a, after⟩ <;>
    rw [hrun] at hresult hsymbols
  · obtain rfl : e' = e := Except.error.inj hresult
    exact ⟨after, rfl, hsymbols⟩
  · exact absurd hresult (by simp [Except.map])

theorem toImage_symbols_of_head {settings : Settings} {symbols : SymbolTable} {bytes : Bytes}
    {e : Error} (hfile : ClassFile.ofBytes bytes = .ok classFile)
    (h : symbols.internAll (headNames classFile) = (.error e, symbols)) :
    (toImage settings symbols bytes).symbols = symbols := by
  cases hname : classFile.name with
  | error fault => simp only [toImage, hfile, hname, Outcome.unreadable]
  | ok className =>
    obtain ⟨after, hrun, hsymbols⟩ : ∃ after, runFrom (convertFile settings className classFile)
        (.announced symbols className classFile.version) = (.error e, after) ∧
          after.symbols = symbols :=
      runFrom_convertFile_of_head settings hname h
    rw [toImage_eq hfile hname, runFrom_classSteps, hrun]
    exact hsymbols

end Head

/-! ### Inputs in any order -/

/-- If the head of a class file can be read, then so can every class that it refers to. -/
def Collectable (classFile : ClassFile) : Prop :=
  Readable (headNames classFile) → Readable (classNames classFile)

instance (classFile : ClassFile) : Decidable (Collectable classFile) :=
  inferInstanceAs (Decidable (Readable (headNames classFile) → Readable (classNames classFile)))

/-- A class file that was looked into leaves nothing to be entered by its conversion. -/
theorem toImage_symbols_of_collectable {settings : Settings} {symbols later : SymbolTable}
    {bytes : Bytes} {classFile : ClassFile} (h : symbols.names.WellFormed)
    (hfile : ClassFile.ofBytes bytes = .ok classFile) (hcollectable : Collectable classFile)
    (hlater : Extends (symbols.prepopulate classFile).2 later) :
    (toImage settings later bytes).symbols = later := by
  by_cases hhead : Readable (headNames classFile)
  · exact toImage_symbols_eq hlater.wellFormed hfile
      ((settlesAll_prepopulate h (hcollectable hhead)).extends hlater)
  · -- The head stops where it stopped when the class was looked into.
    obtain ⟨rest, hrest⟩ := SymbolTable.headNames_prefix_classNames classFile
    rw [SymbolTable.prepopulate, hrest] at hlater
    have hagain := internAll_again h ((Extends.internAll_append h _ rest).trans hlater)
    rcases hrun : symbols.internAll (headNames classFile) with ⟨e | _, symbols'⟩ <;>
      rw [hrun] at hagain
    · exact toImage_symbols_of_head hfile hagain
    · exact absurd (readable_of_internAll_ok (by rw [hrun])) hhead

end Conversion

namespace CommandLine

open Conversion (Diagnostic Settings Extends Collectable convertClass)

/-- The symbol table after looking into one input. -/
def entered (symbols : SymbolTable) (bytes : Bytes) : SymbolTable :=
  match ClassFile.ofBytes bytes with
  | .error _ => symbols
  | .ok classFile => (symbols.prepopulate classFile).2

theorem enterClasses_symbols (symbols : SymbolTable) (inputs : List (String × Bytes)) :
    (enterClasses symbols inputs).2 =
      inputs.foldl (fun table input => entered table input.2) symbols := by
  unfold enterClasses
  refine (List.foldl_hom Prod.snd ?_).symm
  rintro ⟨names, table⟩ ⟨path, bytes⟩
  cases hfile : ClassFile.ofBytes bytes with
  | error fault => simp only [entered, hfile]
  | ok classFile => simp only [entered, hfile]

theorem extends_entered {symbols : SymbolTable} (h : symbols.names.WellFormed) (bytes : Bytes) :
    Extends symbols (entered symbols bytes) := by
  unfold entered
  split
  · exact .refl h
  · exact .internAll h _

theorem extends_foldl_entered {symbols : SymbolTable} (h : symbols.names.WellFormed)
    (inputs : List (String × Bytes)) :
    Extends symbols (inputs.foldl (fun table input => entered table input.2) symbols) := by
  induction inputs generalizing symbols with
  | nil => exact .refl h
  | cons input inputs ih =>
    have hfirst := extends_entered h input.2
    exact hfirst.trans (ih hfirst.wellFormed)

/-- Every input was looked into at some time, and nothing was forgotten since. -/
theorem exists_prepopulate_of_mem {symbols : SymbolTable} (h : symbols.names.WellFormed)
    {inputs : List (String × Bytes)} {input : String × Bytes} (hinput : input ∈ inputs)
    {classFile : ClassFile} (hfile : ClassFile.ofBytes input.2 = .ok classFile) :
    ∃ table : SymbolTable, table.names.WellFormed ∧
      Extends (table.prepopulate classFile).2
        (inputs.foldl (fun table input => entered table input.2) symbols) := by
  induction inputs generalizing symbols with
  | nil => exact absurd hinput List.not_mem_nil
  | cons first inputs ih =>
    have hfirst := extends_entered h first.2
    rcases List.mem_cons.mp hinput with rfl | hmem
    · refine ⟨symbols, h, ?_⟩
      have hentered : entered symbols input.2 = (symbols.prepopulate classFile).2 := by
        rw [entered, hfile]
      rw [List.foldl_cons, hentered]
      rw [hentered] at hfirst
      exact extends_foldl_entered hfirst.wellFormed inputs
    · exact ih hfirst.wellFormed hmem

section Converting

variable {settings : Settings} {symbols later : SymbolTable} {inputs : List (String × Bytes)}

/-- What converting one more input adds to the results so far. -/
def convertNext (settings : Settings)
    (done : List (Except (List Diagnostic) (Bytes × List Diagnostic)) × SymbolTable)
    (input : String × Bytes) :
    List (Except (List Diagnostic) (Bytes × List Diagnostic)) × SymbolTable :=
  ((convertClass settings done.2 input.2).result :: done.1,
    (convertClass settings done.2 input.2).symbols)

theorem convertAll_eq (settings : Settings) (symbols : SymbolTable)
    (inputs : List (String × Bytes)) :
    convertAll settings symbols inputs =
      ((inputs.foldl (convertNext settings) ([], symbols)).1.reverse,
        (inputs.foldl (convertNext settings) ([], symbols)).2) := rfl

/-- Results that are there already stay where they are. -/
theorem foldl_convertNext (inputs : List (String × Bytes))
    (done : List (Except (List Diagnostic) (Bytes × List Diagnostic))) (symbols : SymbolTable) :
    inputs.foldl (convertNext settings) (done, symbols) =
      ((inputs.foldl (convertNext settings) ([], symbols)).1 ++ done,
        (inputs.foldl (convertNext settings) ([], symbols)).2) := by
  induction inputs generalizing done symbols with
  | nil => rfl
  | cons input inputs ih =>
    rw [List.foldl_cons, List.foldl_cons, convertNext, convertNext, ih, ih [_]]
    simp only [List.append_assoc, List.cons_append, List.nil_append]

/-- The first input is converted, and then the others with the table that it leaves. -/
theorem convertAll_cons (settings : Settings) (symbols : SymbolTable) (input : String × Bytes)
    (inputs : List (String × Bytes)) : convertAll settings symbols (input :: inputs) =
      ((convertClass settings symbols input.2).result ::
        (convertAll settings (convertClass settings symbols input.2).symbols inputs).1,
        (convertAll settings (convertClass settings symbols input.2).symbols inputs).2) := by
  rw [convertAll_eq, convertAll_eq, List.foldl_cons, convertNext, foldl_convertNext]
  simp only [List.reverse_append, List.reverse_cons, List.reverse_nil,
    List.nil_append, List.cons_append]

/-- Conversions that enter nothing have the same results in every table that grew since. -/
theorem convertAll_of_unchanged (h : symbols.names.WellFormed) (hlater : Extends symbols later)
    (hinputs : ∀ input ∈ inputs, (convertClass settings symbols input.2).symbols = symbols) :
    convertAll settings later inputs =
      (inputs.map fun input => (convertClass settings symbols input.2).result, later) := by
  induction inputs with
  | nil => rfl
  | cons input inputs ih =>
    have hsame := hinputs input List.mem_cons_self
    rw [Conversion.convertClass_symbols] at hsame
    have hagain : convertClass settings later input.2 =
        { convertClass settings symbols input.2 with symbols := later } :=
      Conversion.convertClass_again h (by rw [hsame]; exact hlater)
    have hrest := ih fun other hother => hinputs other (List.mem_cons_of_mem _ hother)
    rw [convertAll_cons, hagain]
    simp only [hrest, List.map_cons]

/-- If at most one of the inputs enters something, the others do not see it. -/
theorem convertAll_of_length_le_one (h : symbols.names.WellFormed) (changes : String × Bytes → Bool)
    (hchanges : ∀ input ∈ inputs, changes input = false →
      (convertClass settings symbols input.2).symbols = symbols)
    (hone : (inputs.filter changes).length ≤ 1) :
    convertAll settings symbols inputs =
      (inputs.map fun input => (convertClass settings symbols input.2).result,
        (convertAll settings symbols (inputs.filter changes)).2) := by
  induction inputs with
  | nil => rfl
  | cons input inputs ih =>
    have hothers : ∀ other ∈ inputs, changes other = false →
        (convertClass settings symbols other.2).symbols = symbols :=
      fun other hother => hchanges other (List.mem_cons_of_mem _ hother)
    cases hinput : changes input with
    | false =>
      have hsame := hchanges input List.mem_cons_self hinput
      rw [List.filter_cons_of_neg (by rw [hinput]; decide)] at hone ⊢
      rw [convertAll_cons, hsame, ih hothers hone]
      rfl
    | true =>
      rw [List.filter_cons_of_pos hinput] at hone ⊢
      rw [List.length_cons] at hone
      have hnone : inputs.filter changes = [] := List.length_eq_zero_iff.mp (by omega)
      have hrest : ∀ other ∈ inputs, (convertClass settings symbols other.2).symbols = symbols := by
        intro other hother
        refine hothers other hother ?_
        simpa using List.filter_eq_nil_iff.mp hnone other hother
      have hlater : Extends symbols (convertClass settings symbols input.2).symbols := by
        rw [Conversion.convertClass_symbols]
        exact .toImage h settings input.2
      rw [hnone, convertAll_cons, convertAll_cons, convertAll_of_unchanged h hlater hrest]
      rfl

end Converting

/-- Whether an input is collectable, if it is a class file. -/
def collectable (bytes : Bytes) : Bool :=
  match ClassFile.ofBytes bytes with
  | .error _ => true
  | .ok classFile => Collectable classFile

/-- A collectable input that was looked into is converted without entering anything. -/
theorem convertClass_symbols_of_collectable {settings : Settings} {symbols : SymbolTable}
    (h : symbols.names.WellFormed) {inputs : List (String × Bytes)} {input : String × Bytes}
    (hinput : input ∈ inputs) (hcollectable : collectable input.2 = true) :
    (convertClass settings (enterClasses symbols inputs).2 input.2).symbols =
      (enterClasses symbols inputs).2 := by
  rw [Conversion.convertClass_symbols, enterClasses_symbols]
  cases hfile : ClassFile.ofBytes input.2 with
  | error fault => simp only [Conversion.toImage, hfile, Conversion.Outcome.unreadable]
  | ok classFile =>
    rw [collectable, hfile] at hcollectable
    obtain ⟨table, htable, hlater⟩ := exists_prepopulate_of_mem h hinput hfile
    exact Conversion.toImage_symbols_of_collectable htable hfile
      (of_decide_eq_true hcollectable) hlater

/-- **Inputs may be converted in any order**, if all of them but one are collectable. Each input
then has the same result wherever it comes, and the symbol table is in the end what the one input
that is not collectable makes of it. -/
theorem convertAll_of_perm (settings : Settings) {inputs order : List (String × Bytes)}
    (hinputs : (inputs.filter fun input => !collectable input.2).length ≤ 1)
    (horder : order.Perm inputs) :
    convertAll settings (enterClasses .empty inputs).2 order =
      (order.map fun input => (convertClass settings (enterClasses .empty inputs).2 input.2).result,
        (convertAll settings (enterClasses .empty inputs).2
          (inputs.filter fun input => !collectable input.2)).2) := by
  have hempty : SymbolTable.empty.names.WellFormed := Interned.wellFormed_empty
  have hwell : (enterClasses .empty inputs).2.names.WellFormed := by
    rw [enterClasses_symbols]
    exact (extends_foldl_entered hempty inputs).wellFormed
  -- Lists of at most one element that are the same up to order are the same.
  have hfilter : order.filter (fun input => !collectable input.2) =
      inputs.filter fun input => !collectable input.2 := by
    have hperm := horder.filter fun input => !collectable input.2
    rcases hlist : inputs.filter fun input => !collectable input.2 with _ | ⟨first, rest⟩ <;>
      rw [hlist] at hperm hinputs
    · exact hlist ▸ hperm.eq_nil
    · rw [List.length_cons] at hinputs
      obtain rfl : rest = [] := List.length_eq_zero_iff.mp (by omega)
      exact hlist ▸ hperm.eq_singleton
  rw [convertAll_of_length_le_one hwell (fun input => !collectable input.2) ?_ (hfilter ▸ hinputs),
    hfilter]
  intro input hinput hnot
  exact convertClass_symbols_of_collectable hempty (horder.subset hinput) (by simpa using hnot)

/-- A class whose only method makes an object of another class. Its constants are its name, the
class itself, a class that takes its name from a slot, the name of the other class, that class, and
the texts of the method. -/
def makerClass (name slot other : UInt8) : Bytes := [
  0xCA, 0xFE, 0xBA, 0xBE, 0x00, 0x00, 0x00, 0x34,
  0x00, 0x09, 0x01, 0x00, 0x01, name, 0x07, 0x00, 0x01, 0x07, 0x00, slot, 0x01, 0x00, 0x01, other,
  0x07, 0x00, 0x04, 0x01, 0x00, 0x01, 0x6D, 0x01, 0x00, 0x03, 0x28, 0x29, 0x56,
  0x01, 0x00, 0x04, 0x43, 0x6F, 0x64, 0x65,
  0x00, 0x21, 0x00, 0x02, 0x00, 0x00, 0x00, 0x00, 0x00, 0x00, 0x00, 0x01,
  0x00, 0x01, 0x00, 0x06, 0x00, 0x07, 0x00, 0x01, 0x00, 0x08, 0x00, 0x00, 0x00, 0x11, 0x00, 0x01,
  0x00, 0x01, 0x00, 0x00, 0x00, 0x05, 0xBB, 0x00, 0x05, 0x57, 0xB1, 0x00, 0x00, 0x00, 0x00,
  0x00, 0x00]

/-- The class `X` makes a `P`, and the class `Y` makes a `Q`. -/
def makers (slotX slotY : UInt8) : List (String × Bytes) :=
  [("X.class", makerClass 0x58 slotX 0x50), ("Y.class", makerClass 0x59 slotY 0x51)]

/-- Slot 0 names nothing, so `P` is entered only when `X` is converted. -/
theorem convertAll_makers : ((makers 0 1).filter fun input => !collectable input.2).length = 1 ∧
    (enterClasses .empty (makers 0 1)).2.toList = ["X", "Y", "Q"] ∧
    convertAll {} (enterClasses .empty (makers 0 1)).2 (makers 0 1).reverse =
      ((makers 0 1).reverse.map fun input =>
          (convertClass {} (enterClasses .empty (makers 0 1)).2 input.2).result,
        (convertAll {} (enterClasses .empty (makers 0 1)).2
          ((makers 0 1).filter fun input => !collectable input.2)).2) :=
  ⟨by decide +kernel, by decide +kernel, convertAll_of_perm {} (by decide +kernel)
    (List.reverse_perm _)⟩

/-- **Two inputs that are not collectable make the order matter.** Neither `P` nor `Q` is entered
before the conversions, which then number them in their own order. -/
theorem convertAll_order_matters :
    (convertAll {} (enterClasses .empty (makers 0 0)).2 (makers 0 0)).2.toList =
      ["X", "Y", "P", "Q"] ∧
    (convertAll {} (enterClasses .empty (makers 0 0)).2 (makers 0 0).reverse).2.toList =
      ["X", "Y", "Q", "P"] ∧
    (convertAll {} (enterClasses .empty (makers 0 0)).2 (makers 0 0)).1 ≠
      (convertAll {} (enterClasses .empty (makers 0 0)).2 (makers 0 0).reverse).1.reverse := by
  refine ⟨?_, ?_, ?_⟩ <;> decide +kernel

end CommandLine

end ClassImage
