import ClassImage.Proofs.FormatExact
import ClassImage.Proofs.Writing

/-!
# Every method is accounted for

The methods of a class file are dealt out to two lists (`Splits`): those that the image has, and
those that a diagnostic tells of, both in the order of the class file. A class as a whole fails
before its first method, or at a method that has no signature; then the methods before that one are
accounted for as if they were all that the class has (`FailsAfter`).
-/

namespace ClassImage

/-- A list is dealt out to two lists, both of which keep its order. -/
inductive Splits {α : Type} : List α → List α → List α → Prop where
  | nil : Splits [] [] []
  | left {a : α} {as bs cs : List α} (h : Splits as bs cs) : Splits (a :: as) (a :: bs) cs
  | right {a : α} {as bs cs : List α} (h : Splits as bs cs) : Splits (a :: as) bs (a :: cs)

/-- What is dealt out after a change was dealt out before it. -/
theorem Splits.exists_of_map {α β : Type} {f : α → β} {as : List α} {bs cs : List β}
    (h : Splits (as.map f) bs cs) : ∃ bs' cs', Splits as bs' cs' ∧ bs = bs'.map f ∧
      cs = cs'.map f := by
  induction as generalizing bs cs with
  | nil =>
    cases h
    exact ⟨[], [], .nil, rfl, rfl⟩
  | cons a as ih =>
    cases h with
    | left h =>
      obtain ⟨bs', cs', hsplits, rfl, rfl⟩ := ih h
      exact ⟨a :: bs', cs', hsplits.left, rfl, rfl⟩
    | right h =>
      obtain ⟨bs', cs', hsplits, rfl, rfl⟩ := ih h
      exact ⟨bs', a :: cs', hsplits.right, rfl, rfl⟩

/-- The first methods of a class file, and all the rest of it. -/
def ClassFile.Format.File.cut (file : File) (n : Nat) : File :=
  { file with
    methods := file.methods.take n
    methods_fit := Nat.le_trans (List.length_take_le' n file.methods) file.methods_fit
    methodAttributes_fit :=
      fun method hmem => file.methodAttributes_fit method (List.mem_of_mem_take hmem) }

theorem ClassFile.Format.File.classFile_cut (file : File) (n : Nat) :
    (file.cut n).classFile = { file.classFile with methods := file.classFile.methods.take n } := by
  simp only [classFile, cut, List.map_take]

namespace Conversion

open ClassFile (ConstantPool)
open ClassFile.Format (File knownMethodFlags)

/-! ### What becomes of one method -/

/-- A method of the image has the name, the descriptor and the known flags of a method in the class
file. -/
structure Renders (constants : ConstantPool) (names : List String) (source : ClassFile.Method)
    (method : Image.Method) : Prop where
  accessFlags : method.accessFlags = source.accessFlags &&& knownMethodFlags
  name : ∃ text, constants.utf8 source.name = .ok text ∧ names[method.name.toNat]? = some text
  descriptor : ∃ text, constants.utf8 source.descriptor = .ok text ∧
    names[method.descriptor.toNat]? = some text

/-- A diagnostic tells that a method of a class is left out, by its name followed by its
descriptor. -/
structure TellsOf (constants : ConstantPool) (className : String) (source : ClassFile.Method)
    (diagnostic : Diagnostic) : Prop where
  className : diagnostic.className = className
  method : ∃ name descriptor, constants.utf8 source.name = .ok name ∧
    constants.utf8 source.descriptor = .ok descriptor ∧
      diagnostic.method = some (name ++ descriptor)
  harmless : diagnostic.error.isClassFatal = false

/-- All methods of a class file are in the image or told of by the diagnostics, in order. -/
def Accounted (file : File) (className : String) (image : Image) (diagnostics : List Diagnostic) :
    Prop :=
  ∃ converted leftOut, Splits file.methods converted leftOut ∧
    List.Forall₂ (Renders file.classFile.constants image.names) converted image.methods ∧
    List.Forall₂ (TellsOf file.classFile.constants className) leftOut diagnostics

theorem exists_texts_of_signature {constants : ConstantPool} {method : ClassFile.Method}
    {signature : String} (h : method.signature constants = .ok signature) : ∃ name descriptor,
      constants.utf8 method.name = .ok name ∧ constants.utf8 method.descriptor = .ok descriptor ∧
        signature = name ++ descriptor := by
  obtain ⟨name, hname, h⟩ := bind_eq_ok_iff.mp h
  obtain ⟨descriptor, hdescriptor, h⟩ := bind_eq_ok_iff.mp h
  exact ⟨name, descriptor, hname, hdescriptor, (Except.ok.inj h).symm⟩

section Methods

variable {settings : Settings} {constants : ConstantPool} {className : String}
  {method : ClassFile.Method} {methods : List ClassFile.Method} {work after : Workspace}

/-- Only a method without a signature makes the class fail. -/
theorem fault_of_convertOrSkip {e : Error}
    (h : runFrom (convertOrSkip settings constants className method) work = (.error e, after)) :
    ∃ fault, method.signature constants = .error fault ∧ e = .ofFault fault ∧ after = work := by
  cases hsignature : method.signature constants with
  | error fault =>
    rw [convertOrSkip_eq, hsignature] at h
    obtain ⟨herror, rfl⟩ := Prod.mk.inj h
    exact ⟨fault, rfl, (Except.error.inj herror).symm, rfl⟩
  | ok signature =>
    rw [runFrom_convertOrSkip hsignature] at h
    rcases hrun : runFrom (convertMethod settings constants className method)
      (work.announcing className signature) with ⟨e' | converted, last⟩ <;> rw [hrun] at h
    · exact absurd (congrArg Prod.fst h) (by simp)
    · exact absurd (congrArg Prod.fst h) (by simp)

/-- **The methods before the one that fails are converted as if there were no others.** -/
theorem exists_front_of_error {e : Error}
    (h : runFrom (methods.mapM (convertOrSkip settings constants className)) work =
      (.error e, after)) :
    ∃ front next behind fault outcomes, methods = front ++ next :: behind ∧
      next.signature constants = .error fault ∧ e = .ofFault fault ∧
      runFrom (front.mapM (convertOrSkip settings constants className)) work =
        (.ok outcomes, after) := by
  induction methods generalizing work with
  | nil => exact absurd (congrArg Prod.fst h) (by simp [runFrom])
  | cons method methods ih =>
    rw [List.mapM_cons, runFrom_bind] at h
    rcases hfirst : runFrom (convertOrSkip settings constants className method) work with
      ⟨e' | outcome, middle⟩ <;> rw [hfirst] at h
    · obtain ⟨herror, rfl⟩ := Prod.mk.inj h
      obtain rfl := Except.error.inj herror
      obtain ⟨fault, hsignature, he, rfl⟩ := fault_of_convertOrSkip hfirst
      exact ⟨[], method, methods, fault, [], rfl, hsignature, he, rfl⟩
    · dsimp only at h
      rw [runFrom_bind] at h
      rcases hrest : runFrom (methods.mapM (convertOrSkip settings constants className)) middle with
        ⟨e' | outcomes, last⟩ <;> rw [hrest] at h
      · obtain ⟨herror, rfl⟩ := Prod.mk.inj h
        obtain rfl := Except.error.inj herror
        obtain ⟨front, next, behind, fault, outcomes, rfl, hsignature, he, hfront⟩ := ih hrest
        exact ⟨method :: front, next, behind, fault, outcome :: outcomes, rfl, hsignature, he,
          runFrom_mapM_cons hfirst hfront⟩
      · exact absurd (congrArg Prod.fst h) (by simp)

/-- **A run over all methods deals them out**: what is known of the methods that are converted holds
of those in the first list, and the diagnostics that are added tell of those in the second. -/
theorem exists_splits {outcomes : List (Option Image.Method)}
    {R : ClassFile.Method → Image.Method → Prop} (hwork : work.Indexed)
    (h : runFrom (methods.mapM (convertOrSkip settings constants className)) work =
      (.ok outcomes, after))
    (hkeeps : List.Forall₂ (fun source result => ∀ method, result = some method →
      R source method) methods outcomes)
    (hharmless : ∀ diagnostic ∈ after.diagnostics.toList, diagnostic.error.isClassFatal = false) :
    ∃ converted leftOut diagnostics, Splits methods converted leftOut ∧
      List.Forall₂ R converted outcomes.reduceOption ∧
      List.Forall₂ (TellsOf constants className) leftOut diagnostics ∧
      after.diagnostics.toList = work.diagnostics.toList ++ diagnostics := by
  -- Diagnostics are only added at the end, so those of the first method stand before those of the
  -- others.
  induction methods generalizing work outcomes with
  | nil =>
    obtain ⟨hnone, rfl⟩ := Prod.mk.inj h
    obtain rfl : [] = outcomes := Except.ok.inj hnone
    exact ⟨[], [], [], .nil, .nil, .nil, (List.append_nil _).symm⟩
  | cons method methods ih =>
    obtain ⟨outcome, rest, middle, hfirst, hrest, rfl⟩ := exists_of_runFrom_mapM_cons h
    obtain ⟨hmethod, hothers⟩ := List.forall₂_cons.mp hkeeps
    obtain ⟨converted, leftOut, diagnostics, hsplits, hconverted, hleftOut, hadded⟩ :=
      ih (indexed_convertOrSkip hwork hfirst) hrest hothers
    cases outcome with
    | some image =>
      rw [diagnostics_of_convertOrSkip_some hfirst] at hadded
      refine ⟨method :: converted, leftOut, diagnostics, hsplits.left, ?_, hleftOut, hadded⟩
      rw [List.reduceOption_cons_of_some]
      exact .cons (hmethod image rfl) hconverted
    | none =>
      obtain ⟨-, signature, error, hsignature, hpush⟩ := samePool_of_convertOrSkip_none hwork hfirst
      rw [hpush, Array.toList_push, List.append_assoc] at hadded
      obtain ⟨name, descriptor, hname, hdescriptor, rfl⟩ := exists_texts_of_signature hsignature
      refine ⟨converted, method :: leftOut, _, hsplits.right, ?_,
        .cons ⟨rfl, ?_, ?_⟩ hleftOut, hadded⟩
      · rwa [List.reduceOption_cons_of_none]
      · exact ⟨name, descriptor, hname, hdescriptor, rfl⟩
      · exact hharmless _ (by rw [hadded]; simp)

end Methods

/-! ### Classes -/

/-- The head of a class adds to the tables and nothing else. -/
theorem adds_convertHead (className : String) (classFile : ClassFile) :
    Adds (fun _ => True) (convertHead className classFile) fun _ _ => True := by
  have hnames : Adds (fun _ => True) (enterNames className classFile) fun _ _ => True :=
    (adds_classIndex className).bind fun thisClass => Adds.file fun superName _ =>
      (Adds.optionMapM adds_classIndex superName).bind fun superClass =>
      (Adds.mapM fun index _ => Adds.file fun name _ => adds_classIndex name).bind fun interfaces =>
      Adds.pure fun _ _ => trivial
  exact hnames.bind fun names => Adds.file fun sourceName _ =>
    (Adds.optionMapM adds_nameIndex sourceName).bind fun sourceFile =>
    (Adds.mapM fun source _ => adds_convertField classFile.constants source).bind fun fields =>
    Adds.pure fun _ _ => trivial

section Classes

variable {settings : Settings} {symbols : SymbolTable} {classFile : ClassFile} {className : String}
  {after : Workspace}

/-- The methods of a class that is converted are dealt out. -/
theorem exists_splits_of_convertFile {image : Image} (hname : classFile.name = .ok className)
    (hsymbols : symbols.names.WellFormed)
    (h : runFrom (convertFile settings className classFile)
      (.announced symbols className classFile.version) = (.ok image, after))
    (hharmless : ∀ diagnostic ∈ after.diagnostics.toList, diagnostic.error.isClassFatal = false) :
    ∃ converted leftOut, Splits classFile.methods converted leftOut ∧
      List.Forall₂ (fun source method => ∃ T : Tables, T.names = image.names ∧
        KeepsMethod settings classFile.constants source method T) converted image.methods ∧
      List.Forall₂ (TellsOf classFile.constants className) leftOut after.diagnostics.toList := by
  have hstart := Workspace.indexed_announced hsymbols className classFile.version
  have hsound : (Workspace.announced symbols className classFile.version).Sound :=
    ⟨hstart.classes, hstart.names, hstart.constants, hstart.members,
      (Workspace.sound_start hsymbols).closed⟩
  have hstraight := straight_convertHead hname
  have hindexed := (hstraight.effect hstart).indexed
  have hnone := hstraight.diagnostics_eq (.announced symbols className classFile.version)
  obtain ⟨-, hsound', -⟩ := adds_convertHead className classFile _ hsound fun _ _ => trivial
  obtain ⟨head, middle, outcomes, hhead, hmethods, rfl⟩ := exists_parts_of_convertFile h
  rw [hhead] at hindexed hnone hsound'
  -- The tables only grow, so what each method entered is still there when the image is completed.
  have hadds : Adds (fun _ => True) _ _ := Adds.mapM fun source (_ : source ∈ classFile.methods) =>
    adds_convertOrSkip settings classFile.constants className source
  obtain ⟨-, -, hkeeps⟩ := hadds middle hsound' fun _ _ => trivial
  rw [hmethods] at hkeeps
  obtain ⟨converted, leftOut, diagnostics, hsplits, hconverted, hleftOut, hadded⟩ :=
    exists_splits hindexed hmethods (hkeeps outcomes rfl after.tables (Tables.le_refl _)) hharmless
  have hdiagnostics : after.diagnostics.toList = diagnostics := by
    rw [hadded, show middle.diagnostics = #[] from hnone]
    rfl
  rw [hdiagnostics]
  refine ⟨converted, leftOut, hsplits, hconverted.imp fun source method hmethod => ?_, hleftOut⟩
  exact ⟨after.tables, rfl, hmethod⟩

/-- **A class that fails, fails in its head or at a method without a signature.** In the second case
the class with the methods before that one is converted, with the same diagnostics. -/
theorem convertFile_error_cases {e : Error} (hname : classFile.name = .ok className)
    (h : runFrom (convertFile settings className classFile)
      (.announced symbols className classFile.version) = (.error e, after)) :
    (after.diagnostics = #[] ∧ ∀ methods,
      runFrom (convertFile settings className { classFile with methods })
        (.announced symbols className classFile.version) = (.error e, after)) ∨
    ∃ front next behind fault image, classFile.methods = front ++ next :: behind ∧
      next.signature classFile.constants = .error fault ∧ e = .ofFault fault ∧
      runFrom (convertFile settings className { classFile with methods := front })
        (.announced symbols className classFile.version) = (.ok image, after) := by
  have hnone :=
    (straight_convertHead hname).diagnostics_eq (.announced symbols className classFile.version)
  rw [convertFile_eq, runFrom_bind] at h
  rcases hhead : runFrom (convertHead className classFile)
    (.announced symbols className classFile.version) with
    ⟨e' | head, middle⟩ <;> rw [hhead] at h hnone
  · obtain ⟨herror, rfl⟩ := Prod.mk.inj h
    obtain rfl := Except.error.inj herror
    refine Or.inl ⟨hnone, fun methods => ?_⟩
    rw [convertFile_methods, runFrom_bind, hhead]
  · dsimp only at h
    rw [runFrom_bind] at h
    rcases hmethods : runFrom (classFile.methods.mapM
        (convertOrSkip settings classFile.constants className)) middle with
      ⟨e' | outcomes, last⟩ <;> rw [hmethods] at h
    · obtain ⟨herror, rfl⟩ := Prod.mk.inj h
      obtain rfl := Except.error.inj herror
      obtain ⟨front, next, behind, fault, outcomes, hparts, hsignature, he, hfront⟩ :=
        exists_front_of_error hmethods
      have hconverted : runFrom (convertFile settings className { classFile with methods := front })
          (.announced symbols className classFile.version) =
          runFrom (complete (head.image classFile.accessFlags outcomes)) last := by
        rw [convertFile_methods, runFrom_bind_of_ok hhead, runFrom_bind_of_ok hfront]
      rw [runFrom_complete] at hconverted
      exact Or.inr ⟨front, next, behind, fault, _, hparts, hsignature, he, hconverted⟩
    · exact absurd (congrArg Prod.fst h) (by simp [runFrom_complete])

variable {bytes : Bytes} {diagnostics : List Diagnostic}

/-- A class that fails has one diagnostic about itself, after those of the methods that were left
out. -/
theorem toImage_result_of_error {e : Error} (hfile : ClassFile.ofBytes bytes = .ok classFile)
    (hname : classFile.name = .ok className)
    (h : runFrom (convertFile settings className classFile)
      (.announced symbols className classFile.version) = (.error e, after)) :
    (toImage settings symbols bytes).result =
      .error (after.diagnostics.toList ++ [{ className, method := none, error := e }]) := by
  rw [toImage_eq hfile hname, runFrom_classSteps, h]
  simp

/-- Conversions to memory fail only for want of an image. -/
theorem toImage_result_of_convertClass_error (hsymbols : symbols.names.WellFormed)
    (h : (convertClass settings symbols bytes).result = .error diagnostics) :
    (toImage settings symbols bytes).result = .error diagnostics := by
  rcases himage : (toImage settings symbols bytes).result with failed | ⟨className, image, leftOut⟩
  · rw [convertClass_result_of_error himage] at h
    rw [Except.error.inj h]
  · obtain ⟨written, hwritten⟩ := exists_written hsymbols himage
    rw [hwritten] at h
    exact absurd h (by simp)

end Classes

section Files

variable {settings : Settings} {symbols : SymbolTable} {bytes rest written : Bytes} {file : File}
  {className : String} {diagnostics : List Diagnostic}

theorem ofBytes_of_encode (hbytes : bytes = file.encode ++ rest) :
    ClassFile.ofBytes bytes = .ok file.classFile :=
  ClassFile.Format.ofBytes_eq_ok_iff.mpr ⟨file, rest, hbytes, rfl⟩

theorem ofBytes_cut (file : File) (n : Nat) : ClassFile.ofBytes (file.cut n).encode =
    .ok { file.classFile with methods := file.classFile.methods.take n } := by
  rw [← file.classFile_cut]
  exact ofBytes_of_encode (List.append_nil _).symm

/-- **No method of a class that is converted is lost.** -/
theorem accounted_of_ok (hreachable : Reachable symbols) (hbytes : bytes = file.encode ++ rest)
    (h : (convertClass settings symbols bytes).result = .ok (written, diagnostics)) :
    ∃ className image, file.classFile.name = .ok className ∧ Image.ofBytes written = .ok image ∧
      Accounted file className image diagnostics := by
  obtain ⟨className, image, classFile, work, himage, hread, -, -, -⟩ :=
    exists_completed hreachable h
  obtain ⟨hname, after, hrun, rfl⟩ := exists_run_of_toImage_ok (ofBytes_of_encode hbytes) himage
  have hharmless :
      ∀ diagnostic ∈ (toImage settings symbols bytes).diagnostics fun result => result.2.2,
        diagnostic.error.isClassFatal = false := harmless_toImage
  simp only [Outcome.diagnostics, himage] at hharmless
  obtain ⟨converted, leftOut, hsplits, hconverted, hleftOut⟩ :=
    exists_splits_of_convertFile hname hreachable.wellFormed hrun hharmless
  obtain ⟨converted, leftOut, hsource, rfl, rfl⟩ := hsplits.exists_of_map
  refine ⟨className, image, hname, Image.ofBytes_of_read hread, converted, leftOut, hsource, ?_, ?_⟩
  · refine (List.forall₂_map_left_iff.mp hconverted).imp ?_
    rintro source method ⟨T, hnames, hkeeps⟩
    rw [← hnames]
    exact ⟨hkeeps.accessFlags, hkeeps.name, hkeeps.descriptor⟩
  · refine (List.forall₂_map_left_iff.mp hleftOut).imp fun source diagnostic htells => ?_
    exact ⟨htells.className, htells.method, htells.harmless⟩

end Files

/-- Where a class fails as a whole: the diagnostics before, and the one about the class. -/
inductive FailsAfter (settings : Settings) (symbols : SymbolTable) (bytes : Bytes) :
    List Diagnostic → Diagnostic → Prop where
  /-- The bytes are no class file. -/
  | unreadable {fault : ClassFile.Fault} (h : ClassFile.ofBytes bytes = .error fault) :
    FailsAfter settings symbols bytes []
      { className := "<unreadable class>", method := none, error := .ofFault fault }
  /-- The class has no name. -/
  | unnamed {file : File} {rest : Bytes} {fault : ClassFile.Fault}
    (hbytes : bytes = file.encode ++ rest) (h : file.classFile.name = .error fault) :
    FailsAfter settings symbols bytes []
      { className := "<unnamed class>", method := none, error := .ofFault fault }
  /-- The class fails before its methods, and would fail as well without them. -/
  | head {file : File} {rest : Bytes} {className : String} {error : Error}
    (hbytes : bytes = file.encode ++ rest) (hname : file.classFile.name = .ok className)
    (h : (convertClass settings symbols (file.cut 0).encode).result =
      .error [{ className, method := none, error }]) :
    FailsAfter settings symbols bytes [] { className, method := none, error }
  /-- A method has no signature. The class with only the methods before it is converted, and they
  are accounted for by its image and its diagnostics. -/
  | method {file : File} {rest written : Bytes} {className : String} {n : Nat}
    {next : ClassFile.Method} {fault : ClassFile.Fault} {image : Image}
    {diagnostics : List Diagnostic} (hbytes : bytes = file.encode ++ rest)
    (hname : file.classFile.name = .ok className) (hnext : file.methods[n]? = some next)
    (hfault : next.signature file.classFile.constants = .error fault)
    (hfront : (convertClass settings symbols (file.cut n).encode).result =
      .ok (written, diagnostics))
    (himage : Image.ofBytes written = .ok image)
    (h : Accounted (file.cut n) className image diagnostics) :
    FailsAfter settings symbols bytes diagnostics
      { className, method := none, error := .ofFault fault }

/-- **A class that is not converted fails in one of these places.** -/
theorem exists_failsAfter {settings : Settings} {symbols : SymbolTable} {bytes : Bytes}
    {diagnostics : List Diagnostic} (hreachable : Reachable symbols)
    (h : (convertClass settings symbols bytes).result = .error diagnostics) :
    ∃ before last, diagnostics = before ++ [last] ∧
      FailsAfter settings symbols bytes before last := by
  have hwell := hreachable.wellFormed
  have himage := toImage_result_of_convertClass_error hwell h
  cases hfile : ClassFile.ofBytes bytes with
  | error fault =>
    rw [toImage, hfile] at himage
    exact ⟨[], _, (Except.error.inj himage).symm, .unreadable hfile⟩
  | ok classFile =>
    obtain ⟨file, rest, hbytes, rfl⟩ := ClassFile.Format.ofBytes_eq_ok_iff.mp hfile
    cases hname : file.classFile.name with
    | error fault =>
      simp only [toImage, hfile, hname, Outcome.unreadable] at himage
      exact ⟨[], _, (Except.error.inj himage).symm, .unnamed hbytes hname⟩
    | ok className =>
      rcases hrun : runFrom (convertFile settings className file.classFile)
        (.announced symbols className file.classFile.version) with ⟨e | image, after⟩
      · rw [toImage_result_of_error hfile hname hrun] at himage
        refine ⟨_, _, (Except.error.inj himage).symm, ?_⟩
        rcases convertFile_error_cases hname hrun with
          ⟨hnone, hothers⟩ | ⟨front, next, behind, fault, image, hmethods, hsignature, rfl, hfront⟩
        · -- The head does not look at the methods.
          have hwithout := toImage_result_of_error (ofBytes_cut file 0) hname (hothers _)
          rw [hnone] at hwithout ⊢
          exact .head hbytes hname (convertClass_result_of_error hwithout)
        · have htake : file.classFile.methods.take front.length = front := by
            rw [hmethods, List.take_left]
          have hresult := ofBytes_cut file front.length
          rw [htake] at hresult
          obtain ⟨written, hwritten⟩ :=
            exists_written hwell (toImage_result_of_run hresult hname hfront)
          obtain ⟨name, image', hname', himage', haccounted⟩ :=
            accounted_of_ok hreachable (List.append_nil _).symm hwritten
          obtain rfl : className = name := Except.ok.inj (hname.symm.trans hname')
          -- The method that stops the class has a counterpart with all its flags in the file.
          have hnext : file.classFile.methods[front.length]? = some next := by simp [hmethods]
          obtain ⟨source, hsource, rfl⟩ := Option.map_eq_some_iff.mp (List.getElem?_map ▸ hnext)
          exact .method hbytes hname hsource hsignature hwritten himage' haccounted
      · rw [toImage_result_of_run hfile hname hrun] at himage
        exact absurd himage (by simp)

/-- The diagnostics of methods name them. -/
theorem FailsAfter.named {settings : Settings} {symbols : SymbolTable} {bytes : Bytes}
    {before : List Diagnostic} {last : Diagnostic}
    (h : FailsAfter settings symbols bytes before last) :
    last.method = none ∧ ∀ diagnostic ∈ before, ∃ method, diagnostic.method = some method := by
  cases h with
  | unreadable | unnamed | head => exact ⟨rfl, fun _ hmem => absurd hmem List.not_mem_nil⟩
  | method _ _ _ _ _ _ haccounted =>
    obtain ⟨converted, leftOut, -, -, hleftOut⟩ := haccounted
    refine ⟨rfl, fun diagnostic hmem => ?_⟩
    obtain ⟨source, -, htells⟩ := exists_mem_of_forall₂ hleftOut hmem
    obtain ⟨name, descriptor, -, -, hmethod⟩ := htells.method
    exact ⟨_, hmethod⟩

/-- **No method is lost, doubled or put elsewhere, and failures are told apart.** If a class is
converted, its methods are dealt out in order to the methods of the image and to the diagnostics,
which name the class and the method and are never fatal to the class. If it is not, the last
diagnostic and no other is without a method, and those before it are the diagnostics of the first
methods of the class. -/
theorem methods_accounted (settings : Settings) (symbols : SymbolTable) (bytes : Bytes)
    (hreachable : Reachable symbols) :
    (∀ written diagnostics, (convertClass settings symbols bytes).result =
      .ok (written, diagnostics) →
      ∃ file rest className image, bytes = File.encode file ++ rest ∧
        file.classFile.name = .ok className ∧
        Image.ofBytes written = .ok image ∧ Accounted file className image diagnostics) ∧
    ∀ diagnostics, (convertClass settings symbols bytes).result = .error diagnostics →
      ∃ before last, diagnostics = before ++ [last] ∧ last.method = none ∧
        (∀ diagnostic ∈ before, ∃ method, diagnostic.method = some method) ∧
        FailsAfter settings symbols bytes before last := by
  constructor
  · intro written diagnostics h
    obtain ⟨-, -, classFile, -, -, -, hfile, -, -⟩ := exists_completed hreachable h
    obtain ⟨file, rest, hbytes, rfl⟩ := ClassFile.Format.ofBytes_eq_ok_iff.mp hfile
    obtain ⟨className, image, hname, himage, haccounted⟩ := accounted_of_ok hreachable hbytes h
    exact ⟨file, rest, className, image, hbytes, hname, himage, haccounted⟩
  · intro diagnostics h
    obtain ⟨before, last, hdiagnostics, hfails⟩ := exists_failsAfter hreachable h
    exact ⟨before, last, hdiagnostics, hfails.named.1, hfails.named.2, hfails⟩

/-- The class `A` with a second method whose name is no constant. -/
def unsignedClass : Bytes := sampleClass.set 90 9

/-- The first method of the class `A` is left out. If the second one has no name, the class fails
after it. -/
theorem sampleClass_accounted : Reachable sampleSymbols ∧
    (∃ written diagnostics file rest className image,
      (convertClass { dropNops := true } sampleSymbols sampleClass).result =
        .ok (written, diagnostics) ∧
      diagnostics.length = 1 ∧ sampleClass = File.encode file ++ rest ∧
        file.classFile.name = .ok className ∧
      Image.ofBytes written = .ok image ∧ Accounted file className image diagnostics) ∧
    ∃ before last, (convertClass { dropNops := true } sampleSymbols unsignedClass).result =
        .error (before ++ [last]) ∧
      before.length = 1 ∧ last.method = none ∧
      FailsAfter { dropNops := true } sampleSymbols unsignedClass before last := by
  obtain ⟨written, diagnostics, hresult, hlength⟩ := sampleClass_converts true
  obtain ⟨file, rest, className, image, haccounted⟩ :=
    (methods_accounted { dropNops := true } sampleSymbols sampleClass
      reachable_sampleSymbols).1 _ _ hresult
  refine ⟨reachable_sampleSymbols,
    ⟨written, diagnostics, file, rest, className, image, hresult, hlength, haccounted⟩, ?_⟩
  have hcheck : ((convertClass { dropNops := true } sampleSymbols unsignedClass).diagnostics
      fun _ => []).length = 2 := by
    decide +kernel
  cases hfailed : (convertClass { dropNops := true } sampleSymbols unsignedClass).result with
  | ok result =>
    simp only [Outcome.diagnostics, hfailed] at hcheck
    exact absurd hcheck (by decide)
  | error failed =>
    simp only [Outcome.diagnostics, hfailed] at hcheck
    obtain ⟨before, last, rfl, hlast, -, hfails⟩ :=
      (methods_accounted { dropNops := true } sampleSymbols unsignedClass
        reachable_sampleSymbols).2 _ hfailed
    exact ⟨before, last, rfl, by simpa using hcheck, hlast, hfails⟩

end Conversion

end ClassImage
