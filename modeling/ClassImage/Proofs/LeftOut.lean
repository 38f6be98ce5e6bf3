import ClassImage.Proofs.Excision
import ClassImage.Proofs.Prepopulation

/-!
# Methods that are left out

A method that cannot be converted is left out, and the tables of the class forget it. So the methods
that come after it are converted as if it had never been there: `Sifts` tells which methods are
kept, and `Sifts.exists_run` that the kept methods alone lead to the same tables.
-/

namespace ClassImage.Conversion

open ClassFile (ConstantPool)

theorem Workspace.SamePool.trans {work middle after : Workspace} (h : work.SamePool middle)
    (h' : middle.SamePool after) : work.SamePool after :=
  ⟨h.names.trans h'.names, h.constants.trans h'.constants, h.members.trans h'.members⟩

theorem samePool_forget {work after : Workspace} (h : work.tables ≤ after.tables) :
    (work.forget after).SamePool work := by
  have htables := tables_forget h
  refine ⟨?_, ?_, ?_⟩ <;> rw [htables]

/-! ### Runs that end well -/

section Runs

variable {α β : Type} {work after : Workspace}

theorem exists_of_runFrom_bind {step : Convert α} {next : α → Convert β} {b : β}
    (h : runFrom (step >>= next) work = (.ok b, after)) : ∃ a middle,
      runFrom step work = (.ok a, middle) ∧ runFrom (next a) middle = (.ok b, after) := by
  rw [runFrom_bind] at h
  rcases hrun : runFrom step work with ⟨e | a, middle⟩ <;> rw [hrun] at h
  · exact absurd (congrArg Prod.fst h) (by simp)
  · exact ⟨a, middle, rfl, h⟩

theorem runFrom_bind_of_ok {step : Convert α} {next : α → Convert β} {a : α} {middle : Workspace}
    (h : runFrom step work = (.ok a, middle)) :
    runFrom (step >>= next) work = runFrom (next a) middle := by
  rw [runFrom_bind, h]

/-- The first of many steps, and the others after it. -/
theorem exists_of_runFrom_mapM_cons {f : α → Convert β} {a : α} {as : List α} {results : List β}
    (h : runFrom ((a :: as).mapM f) work = (.ok results, after)) : ∃ b bs middle,
      runFrom (f a) work = (.ok b, middle) ∧ runFrom (as.mapM f) middle = (.ok bs, after) ∧
        results = b :: bs := by
  rw [List.mapM_cons] at h
  obtain ⟨b, middle, hfirst, h⟩ := exists_of_runFrom_bind h
  obtain ⟨bs, last, hrest, h⟩ := exists_of_runFrom_bind h
  obtain ⟨hresults, rfl⟩ := Prod.mk.inj h
  exact ⟨b, bs, middle, hfirst, hrest, (Except.ok.inj hresults).symm⟩

theorem runFrom_mapM_cons {f : α → Convert β} {a : α} {as : List α} {b : β} {bs : List β}
    {middle : Workspace} (hfirst : runFrom (f a) work = (.ok b, middle))
    (hrest : runFrom (as.mapM f) middle = (.ok bs, after)) :
    runFrom ((a :: as).mapM f) work = (.ok (b :: bs), after) := by
  rw [List.mapM_cons, runFrom_bind_of_ok hfirst, runFrom_bind_of_ok hrest, runFrom_pure]

end Runs

/-! ### One method -/

section Method

variable {settings : Settings} {constants : ConstantPool} {className : String}
  {method : ClassFile.Method} {work after : Workspace}

/-- The state in which a method is announced. -/
def Workspace.announcing (work : Workspace) (className signature : String) : Workspace :=
  { work with events := work.events.push (.convertingMethod className signature) }

/-- Attempting a method once its signature is known. -/
theorem runFrom_convertOrSkip {signature : String}
    (hsignature : method.signature constants = .ok signature) :
    runFrom (convertOrSkip settings constants className method) work =
      match runFrom (convertMethod settings constants className method)
          (work.announcing className signature) with
      | (.ok converted, after) => (.ok (some converted), after)
      | (.error error, after) => (.ok none, { work.forget after with
          events := after.events.push (.failed { className, method := some signature, error })
          diagnostics :=
            after.diagnostics.push { className, method := some signature, error } }) := by
  have hattempt : runFrom (convertOrSkip settings constants className method) work =
      runFrom (attempt (convertMethod settings constants className method)
        fun error => { className, method := some signature, error })
        (work.announcing className signature) := by
    rw [convertOrSkip_eq, hsignature]
    rfl
  have hstraight := straight_convertMethod constants settings className method
  rw [hattempt, runFrom_attempt]
  rcases hrun : runFrom (convertMethod settings constants className method)
    (work.announcing className signature) with ⟨e | converted, last⟩
  · have hharmless := hstraight.harmless
      (work.announcing className signature)
    rw [hrun] at hharmless
    simp only [hharmless e rfl, Bool.false_eq_true, if_false, runFrom_skip]
    rfl
  · rfl

theorem exists_signature_of_convertOrSkip {outcome : Option Image.Method}
    (h : runFrom (convertOrSkip settings constants className method) work = (.ok outcome, after)) :
    ∃ signature, method.signature constants = .ok signature := by
  rw [convertOrSkip_eq] at h
  cases hsignature : method.signature constants with
  | error fault =>
    rw [hsignature] at h
    exact absurd (congrArg Prod.fst h) (by simp [ofFile])
  | ok signature => exact ⟨signature, rfl⟩

theorem indexed_convertOrSkip (hindexed : work.Indexed)
    {outcome : Except Error (Option Image.Method)}
    (h : runFrom (convertOrSkip settings constants className method) work = (outcome, after)) :
    after.Indexed := by
  have hsteps := forgiving_convertOrSkip settings constants className method
  have heffect := hsteps.effect hindexed
  rw [h] at heffect
  exact heffect.indexed

theorem symbols_convertOrSkip (hindexed : work.Indexed)
    (hsettled : SettlesAll work.symbols constants) {outcome : Except Error (Option Image.Method)}
    (h : runFrom (convertOrSkip settings constants className method) work = (outcome, after)) :
    after.symbols = work.symbols := by
  have hsteps := forgiving_convertOrSkip settings constants className method
  have hsymbols := hsteps.symbols_eq hindexed hsettled
  rwa [h] at hsymbols

/-- A method that is converted adds no diagnostic. -/
theorem diagnostics_of_convertOrSkip_some {converted : Image.Method}
    (h : runFrom (convertOrSkip settings constants className method) work =
      (.ok (some converted), after)) :
    after.diagnostics = work.diagnostics := by
  obtain ⟨signature, hsignature⟩ := exists_signature_of_convertOrSkip h
  have hstraight := straight_convertMethod constants settings className method
  have hsame := hstraight.diagnostics_eq (work.announcing className signature)
  rw [runFrom_convertOrSkip hsignature] at h
  rcases hrun : runFrom (convertMethod settings constants className method)
    (work.announcing className signature) with ⟨e | converted', last⟩ <;>
    rw [hrun] at h hsame
  · exact absurd (congrArg Prod.fst h) (by simp)
  · obtain rfl : last = after := congrArg Prod.snd h
    exact hsame

/-- **A method that is left out leaves the tables of the class as they were**, and a diagnostic
names it. -/
theorem samePool_of_convertOrSkip_none (hindexed : work.Indexed)
    (h : runFrom (convertOrSkip settings constants className method) work = (.ok none, after)) :
    after.SamePool work ∧ ∃ signature error, method.signature constants = .ok signature ∧
      after.diagnostics = work.diagnostics.push { className, method := some signature, error } := by
  obtain ⟨signature, hsignature⟩ := exists_signature_of_convertOrSkip h
  have hstraight := straight_convertMethod constants settings className method
  have hsame := hstraight.diagnostics_eq (work.announcing className signature)
  have hindexed' : (work.announcing className signature).Indexed :=
    ⟨hindexed.classes, hindexed.names, hindexed.constants, hindexed.members⟩
  have hgrows : work.tables ≤ _ := (hstraight.effect hindexed').grows
  rw [runFrom_convertOrSkip hsignature] at h
  rcases hrun : runFrom (convertMethod settings constants className method)
    (work.announcing className signature) with ⟨e | converted', last⟩ <;>
    rw [hrun] at h hsame hgrows
  · obtain rfl := congrArg Prod.snd h
    have hpool : (work.forget last).SamePool work := samePool_forget hgrows
    exact ⟨⟨hpool.names, hpool.constants, hpool.members⟩, signature, e, hsignature,
      congrArg (Array.push · _) hsame⟩
  · exact absurd (congrArg Prod.fst h) (by simp)

end Method

/-! ### Many methods -/

/-- What becomes of methods that are converted one after another: each one is kept, or it is left
out and the next of the diagnostics names it. -/
inductive Sifts (settings : Settings) (constants : ConstantPool) (className : String) :
    Workspace → List ClassFile.Method → List ClassFile.Method → List Diagnostic → Prop where
  | nil (work : Workspace) : Sifts settings constants className work [] [] []
  | keep {work after : Workspace} {method : ClassFile.Method} {converted : Image.Method}
    {methods kept : List ClassFile.Method} {diagnostics : List Diagnostic}
    (hrun : runFrom (convertOrSkip settings constants className method) work =
      (.ok (some converted), after))
    (h : Sifts settings constants className after methods kept diagnostics) :
    Sifts settings constants className work (method :: methods) (method :: kept) diagnostics
  | leaveOut {work after : Workspace} {method : ClassFile.Method} {signature : String}
    {error : Error} {methods kept : List ClassFile.Method} {diagnostics : List Diagnostic}
    (hrun : runFrom (convertOrSkip settings constants className method) work = (.ok none, after))
    (hsignature : method.signature constants = .ok signature)
    (h : Sifts settings constants className after methods kept diagnostics) :
    Sifts settings constants className work (method :: methods) kept
      ({ className, method := some signature, error } :: diagnostics)

section Methods

variable {settings : Settings} {constants : ConstantPool} {className : String}
  {methods kept : List ClassFile.Method} {diagnostics : List Diagnostic}
  {work work' after : Workspace} {outcomes : List (Option Image.Method)}

theorem Sifts.sublist (h : Sifts settings constants className work methods kept diagnostics) :
    kept.Sublist methods := by
  induction h with
  | nil => exact .slnil
  | keep _ _ ih => exact ih.cons_cons _
  | leaveOut _ _ _ ih => exact ih.cons _

/-- Every run sifts its methods, and the diagnostics are those it adds. -/
theorem exists_sifts (hwork : work.Indexed)
    (h : runFrom (methods.mapM (convertOrSkip settings constants className)) work =
      (.ok outcomes, after)) :
    ∃ kept diagnostics, Sifts settings constants className work methods kept diagnostics ∧
      after.diagnostics.toList = work.diagnostics.toList ++ diagnostics := by
  induction methods generalizing work outcomes with
  | nil =>
    obtain rfl : work = after := congrArg Prod.snd h
    exact ⟨[], [], .nil work, (List.append_nil _).symm⟩
  | cons method methods ih =>
    obtain ⟨outcome, rest, middle, hfirst, hrest, -⟩ := exists_of_runFrom_mapM_cons h
    have hmiddle := indexed_convertOrSkip hwork hfirst
    obtain ⟨kept, diagnostics, hsifts, hadded⟩ := ih hmiddle hrest
    cases outcome with
    | some converted =>
      rw [diagnostics_of_convertOrSkip_some hfirst] at hadded
      exact ⟨method :: kept, diagnostics, .keep hfirst hsifts, hadded⟩
    | none =>
      obtain ⟨-, signature, error, hsignature, hpush⟩ := samePool_of_convertOrSkip_none hwork hfirst
      rw [hpush, Array.toList_push, List.append_assoc] at hadded
      exact ⟨kept, _, .leaveOut hfirst hsignature hsifts, hadded⟩

/-- **The kept methods alone lead to the same tables**, from every state with the same tables of the
class, and none of them is left out. -/
theorem Sifts.exists_run (h : Sifts settings constants className work methods kept diagnostics)
    (hwork : work.Indexed) (hwork' : work'.Indexed) (hpool : work.SamePool work')
    (hsymbols : work.symbols = work'.symbols) (hsettled : SettlesAll work.symbols constants)
    (hrun : runFrom (methods.mapM (convertOrSkip settings constants className)) work =
      (.ok outcomes, after)) :
    ∃ outcomes' after',
      runFrom (kept.mapM (convertOrSkip settings constants className)) work' =
        (.ok outcomes', after') ∧
        outcomes'.reduceOption = outcomes.reduceOption ∧ after.SamePool after' ∧
        after'.diagnostics = work'.diagnostics := by
  induction h generalizing work' outcomes with
  | nil work =>
    obtain ⟨hnone, rfl⟩ := Prod.mk.inj hrun
    obtain rfl : [] = outcomes := Except.ok.inj hnone
    exact ⟨[], work', rfl, rfl, hpool, rfl⟩
  | @keep work middle method converted methods kept diagnostics hmethod _ ih =>
    obtain ⟨outcome, rest, middle', hfirst, hrest, rfl⟩ := exists_of_runFrom_mapM_cons hrun
    obtain ⟨rfl, rfl⟩ : some converted = outcome ∧ middle = middle' := by
      rw [hmethod] at hfirst
      simpa using hfirst
    have hsame := symbols_convertOrSkip hwork hsettled hmethod
    have hsteps := forgiving_convertOrSkip settings constants className method
    have hreplay := hsteps.replays work work' hwork hwork' hpool
    rw [hmethod] at hreplay
    obtain ⟨hresult, hsymbols', hpool', -⟩ :=
      hreplay (by simp only [Workspace.tables, hsame, hsymbols]; exact List.prefix_rfl)
    rcases hrun' : runFrom (convertOrSkip settings constants className method) work' with
      ⟨result, middle'⟩
    rw [hrun'] at hresult hsymbols' hpool'
    obtain rfl : result = .ok (some converted) := hresult
    have hgoes_on : middle.symbols = middle'.symbols := hsame.trans (hsymbols.trans hsymbols'.symm)
    obtain ⟨outcomes', after', hkept, houtcomes, hpool'', hdiagnostics⟩ :=
      ih (indexed_convertOrSkip hwork hmethod) (indexed_convertOrSkip hwork' hrun') hpool' hgoes_on
        (hsame ▸ hsettled) hrest
    refine ⟨some converted :: outcomes', after', runFrom_mapM_cons hrun' hkept, ?_, hpool'', ?_⟩
    · rw [List.reduceOption_cons_of_some, List.reduceOption_cons_of_some, houtcomes]
    · exact hdiagnostics.trans (diagnostics_of_convertOrSkip_some hrun')
  | @leaveOut work middle method signature error methods kept diagnostics hmethod _ _ ih =>
    obtain ⟨outcome, rest, middle', hfirst, hrest, rfl⟩ := exists_of_runFrom_mapM_cons hrun
    obtain ⟨rfl, rfl⟩ : none = outcome ∧ middle = middle' := by
      rw [hmethod] at hfirst
      simpa using hfirst
    -- The method left nothing behind, so the kept methods go on from where they are.
    have hsame := symbols_convertOrSkip hwork hsettled hmethod
    obtain ⟨hback, -⟩ := samePool_of_convertOrSkip_none hwork hmethod
    rw [List.reduceOption_cons_of_none]
    exact ih (indexed_convertOrSkip hwork hmethod) hwork' (hback.trans hpool) (hsame.trans hsymbols)
      (hsame ▸ hsettled) hrest

end Methods

/-! ### Classes -/

/-- Converting a class keeps these of its methods, and the diagnostics are those of the others. -/
def LeavesOut (settings : Settings) (symbols : SymbolTable) (classFile : ClassFile)
    (kept : List ClassFile.Method) (diagnostics : List Diagnostic) : Prop :=
  ∃ className head work, classFile.name = .ok className ∧
    runFrom (convertHead className classFile) (.announced symbols className classFile.version) =
      (.ok head, work) ∧
    Sifts settings classFile.constants className work classFile.methods kept diagnostics

/-- The head of a class does not depend on its methods. -/
theorem convertFile_methods (settings : Settings) (className : String) (classFile : ClassFile)
    (kept : List ClassFile.Method) :
    convertFile settings className { classFile with methods := kept } = (do
      let head ← convertHead className classFile
      let outcomes ← kept.mapM (convertOrSkip settings classFile.constants className)
      complete (head.image classFile.accessFlags outcomes)) :=
  convertFile_eq settings className { classFile with methods := kept }

section Classes

variable {settings : Settings} {symbols : SymbolTable} {classFile : ClassFile}

/-- The parts that an image was put together from. -/
theorem exists_parts_of_convertFile {className : String} {work after : Workspace} {image : Image}
    (h : runFrom (convertFile settings className classFile) work = (.ok image, after)) :
    ∃ head middle outcomes, runFrom (convertHead className classFile) work = (.ok head, middle) ∧
      runFrom (classFile.methods.mapM (convertOrSkip settings classFile.constants className))
        middle = (.ok outcomes, after) ∧
      image = head.image classFile.accessFlags outcomes after.tables.names after.tables.constants
        after.tables.members := by
  rw [convertFile_eq] at h
  obtain ⟨head, middle, hhead, h⟩ := exists_of_runFrom_bind h
  obtain ⟨outcomes, last, hmethods, h⟩ := exists_of_runFrom_bind h
  rw [runFrom_complete] at h
  obtain ⟨himage, rfl⟩ := Prod.mk.inj h
  exact ⟨head, middle, outcomes, hhead, hmethods, (Except.ok.inj himage).symm⟩

/-- **What a class is converted to does not depend on the methods that are left out.** -/
theorem exists_leavesOut {className : String} (hname : classFile.name = .ok className)
    (hsymbols : symbols.names.WellFormed) (hsettled : SettlesAll symbols classFile.constants)
    {image : Image} {after : Workspace} (h : runFrom (convertFile settings className classFile)
      (.announced symbols className classFile.version) = (.ok image, after)) :
    ∃ kept, LeavesOut settings symbols classFile kept after.diagnostics.toList ∧ ∃ after',
      runFrom (convertFile settings className { classFile with methods := kept })
        (.announced symbols className classFile.version) = (.ok image, after') ∧
          after'.diagnostics = #[] := by
  have hstart := Workspace.indexed_announced hsymbols className classFile.version
  have hhead := straight_convertHead hname
  obtain ⟨head, work, outcomes, hconverted, hmethods, rfl⟩ := exists_parts_of_convertFile h
  have hwork := (hhead.effect hstart).indexed
  have hnone := hhead.diagnostics_eq (.announced symbols className classFile.version)
  have hsame := (Forgiving.straight hhead).symbols_eq hstart hsettled
  rw [hconverted] at hwork hnone hsame
  obtain ⟨kept, diagnostics, hsifts, hadded⟩ := exists_sifts hwork hmethods
  obtain ⟨outcomes', after', hkept, houtcomes, hpool, hdiagnostics⟩ :=
    hsifts.exists_run hwork hwork ⟨rfl, rfl, rfl⟩ rfl (hsame ▸ hsettled) hmethods
  have hdiagnostics_eq : after.diagnostics.toList = diagnostics := by
    rw [hadded, show work.diagnostics = #[] from hnone]
    rfl
  rw [hdiagnostics_eq]
  refine ⟨kept, ⟨className, head, work, hname, hconverted, hsifts⟩, after', ?_,
    hdiagnostics.trans hnone⟩
  rw [convertFile_methods, runFrom_bind_of_ok hconverted,
    runFrom_bind_of_ok hkept, runFrom_complete, ← hpool.names, ← hpool.constants, ← hpool.members]
  simp only [Head.image, houtcomes]

variable {bytes written : Bytes} {diagnostics : List Diagnostic}

/-- An image comes from a run of the class that was read. -/
theorem exists_run_of_toImage_ok (hfile : ClassFile.ofBytes bytes = .ok classFile)
    {className : String} {image : Image}
    (h : (toImage settings symbols bytes).result = .ok (className, image, diagnostics)) :
    classFile.name = .ok className ∧ ∃ after, runFrom (convertFile settings className classFile)
      (.announced symbols className classFile.version) = (.ok image, after) ∧
        after.diagnostics.toList = diagnostics := by
  cases hname : classFile.name with
  | error fault =>
    simp only [toImage, hfile, hname, Outcome.unreadable] at h
    exact absurd h (by simp)
  | ok name =>
    rw [toImage_eq hfile hname, runFrom_classSteps] at h
    rcases hrun : runFrom (convertFile settings name classFile)
      (.announced symbols name classFile.version) with
      ⟨e | image', after⟩ <;> rw [hrun] at h
    · exact absurd h (by simp)
    · obtain ⟨rfl, hpair⟩ := Prod.mk.inj (Except.ok.inj h)
      obtain ⟨rfl, hdiagnostics⟩ := Prod.mk.inj hpair
      exact ⟨rfl, after, hrun, hdiagnostics⟩

theorem toImage_result_of_run (hfile : ClassFile.ofBytes bytes = .ok classFile) {className : String}
    (hname : classFile.name = .ok className) {image : Image} {after : Workspace}
    (h : runFrom (convertFile settings className classFile)
      (.announced symbols className classFile.version) = (.ok image, after)) :
    (toImage settings symbols bytes).result = .ok (className, image, after.diagnostics.toList) := by
  rw [toImage_eq hfile hname, runFrom_classSteps, h]

theorem convertClass_result_of_toImage {className : String} {image : Image}
    (h : (toImage settings symbols bytes).result = .ok (className, image, diagnostics))
    (hwritten : image.toBytes = .ok written) :
    (convertClass settings symbols bytes).result = .ok (written, diagnostics) := by
  rw [convertClass, convertInto]
  rcases htoImage : toImage settings symbols bytes with ⟨result, symbols', events⟩
  rw [htoImage] at h
  obtain rfl : result = .ok (className, image, diagnostics) := h
  rw [Image.toBytes, Writer.toBytes] at hwritten
  rcases hwrite : image.write.run.run .unlimited with ⟨fault | _, sink⟩ <;> rw [hwrite] at hwritten
  · exact absurd hwritten (by simp)
  · obtain rfl : sink.bytes = written := Except.ok.inj hwritten
    simp only [hwrite]
    rfl

/-- **A method that is left out leaves no trace in the image.** The class file was looked into
earlier in the session, and it is converted with some of its methods left out. A class file that
differs from it only in that these methods are missing is then converted to the same bytes, with
nothing left out. -/
theorem convertClass_without_left_out {start : SymbolTable} (hstart : Reachable start)
    (hfile : ClassFile.ofBytes bytes = .ok classFile)
    (hentered : (start.prepopulate classFile).1 = .ok ())
    (hlater : Leads (start.prepopulate classFile).2 symbols)
    (h : (convertClass settings symbols bytes).result = .ok (written, diagnostics)) :
    ∃ kept, LeavesOut settings symbols classFile kept diagnostics ∧
      (∃ bytes', ClassFile.ofBytes bytes' = .ok { classFile with methods := kept }) ∧
      ∀ bytes', ClassFile.ofBytes bytes' = .ok { classFile with methods := kept } →
        (convertClass settings symbols bytes').result = .ok (written, []) := by
  have hextends := hlater.extends (wellFormed_internAll hstart.wellFormed _)
  have hsettled : SettlesAll symbols classFile.constants :=
    (settlesAll_prepopulate hstart.wellFormed (readable_of_internAll_ok hentered)).extends hextends
  obtain ⟨className, image, himage, hwritten⟩ := convertClass_ok h
  obtain ⟨hname, after, hrun, rfl⟩ := exists_run_of_toImage_ok hfile himage
  obtain ⟨kept, hleaves, after', hrun', hnone⟩ :=
    exists_leavesOut hname hextends.wellFormed hsettled hrun
  have hsublist : kept.Sublist classFile.methods := by
    obtain ⟨_, _, _, _, _, hsifts⟩ := hleaves
    exact hsifts.sublist
  refine ⟨kept, hleaves, ClassFile.exists_ofBytes_methods hfile hsublist, fun bytes' hfile' => ?_⟩
  have hresult := toImage_result_of_run hfile' hname hrun'
  rw [hnone] at hresult
  exact convertClass_result_of_toImage hresult hwritten

end Classes

/-- A session that met `C`, looked into a class file and then met `D`. -/
def sampleEntered (classFile : ClassFile) : SymbolTable :=
  ((sampleSymbols.prepopulate classFile).2.intern "D").2

theorem sampleClass_without_left_out : ∃ classFile written diagnostics kept,
    ClassFile.ofBytes sampleClass = .ok classFile ∧
      (sampleSymbols.prepopulate classFile).1 = .ok () ∧
    (convertClass {} (sampleEntered classFile) sampleClass).result = .ok (written, diagnostics) ∧
    diagnostics.length = 1 ∧ LeavesOut {} (sampleEntered classFile) classFile kept diagnostics ∧
    (∃ bytes', ClassFile.ofBytes bytes' = .ok { classFile with methods := kept }) ∧
    ∀ bytes', ClassFile.ofBytes bytes' = .ok { classFile with methods := kept } →
      (convertClass {} (sampleEntered classFile) bytes').result = .ok (written, []) := by
  have hcheck : (ClassFile.ofBytes sampleClass).toOption.any (fun classFile =>
      (sampleSymbols.prepopulate classFile).1.isOk &&
        (convertClass {} (sampleEntered classFile) sampleClass).result.toOption.any
          fun result => result.2.length = 1) = true := by
    decide +kernel
  cases hfile : ClassFile.ofBytes sampleClass with
  | error fault =>
    rw [hfile] at hcheck
    exact absurd hcheck (by simp [Except.toOption])
  | ok classFile =>
    rw [hfile] at hcheck
    obtain ⟨hok, hresult⟩ := Bool.and_eq_true_iff.mp hcheck
    have hentered : (sampleSymbols.prepopulate classFile).1 = .ok () := by
      cases hrun : (sampleSymbols.prepopulate classFile).1 with
      | error e => rw [hrun] at hok; exact absurd hok (by simp [Except.isOk, Except.toBool])
      | ok _ => rfl
    cases hconvert : (convertClass {} (sampleEntered classFile) sampleClass).result with
    | error failed =>
      rw [hconvert] at hresult
      exact absurd hresult (by simp [Except.toOption])
    | ok result =>
      obtain ⟨written, diagnostics⟩ := result
      rw [hconvert] at hresult
      have hlength : diagnostics.length = 1 := of_decide_eq_true hresult
      obtain ⟨kept, hleaves, hexists, hsame⟩ :=
        convertClass_without_left_out reachable_sampleSymbols hfile hentered
          (.intern .refl "D") hconvert
      exact ⟨classFile, written, diagnostics, kept, rfl, hentered, hconvert, hlength,
        hleaves, hexists, hsame⟩

end ClassImage.Conversion
