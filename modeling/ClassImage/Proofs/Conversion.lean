import ClassImage.Conversion.Convert
import ClassImage.Proofs.Lowering
import ClassImage.Proofs.NopFree

/-!
# Converting a class, step by step

Fields, methods and the class as a whole are followed by the rules of `Adds`. A method that fails is
undone: `attempt` is what `convertOrSkip` does, and truncating the tables to where they were keeps
them sound (`Adds.attempt`). At the end of a class the tables are copied into the image, so all that
was established on the way holds of the image's own tables (`adds_convertFile`).
-/

namespace ClassImage.Conversion

open ClassFile (ConstantPool)
open Bytecode (Decoded)
open Image (absent)
open Body (IsAssembly)

/-! ### Failing and going on -/

section Run

variable {α : Type} (work : Workspace)

theorem runFrom_get : runFrom get work = (.ok work, work) := rfl

theorem runFrom_tryCatch (step : Convert α) (recover : Error → Convert α) :
    runFrom (tryCatch step recover) work =
      match runFrom step work with
      | (.ok a, after) => (.ok a, after)
      | (.error e, after) => runFrom (recover e) after := by
  -- Catching only looks at the result and the state that the step leaves.
  show (fun result : Except Error α × Workspace =>
    (ExceptT.tryCatch (fun _ => result) recover : Convert α) result.2) (runFrom step work) = _
  rcases runFrom step work with ⟨e | a, after⟩ <;> rfl

/-- The state after forgetting what was entered into the tables of the class since another state. -/
def Workspace.forget (after : Workspace) : Workspace :=
  { after with pool := after.pool.rollback work.pool.checkpoint }

/-- Tries a step. If it fails, the tables of the class forget what it entered, and the failure is
reported; some failures are passed on. -/
def attempt (step : Convert α) (diagnostic : Error → Diagnostic) : Convert (Option α) := fun work =>
  match runFrom step work with
  | (.ok a, after) => (.ok (some a), after)
  | (.error e, after) =>
    if e.isClassFatal then (.error e, after)
    else runFrom (leaveOut (diagnostic e) >>= fun _ => pure none) (work.forget after)

theorem runFrom_attempt (step : Convert α) (diagnostic : Error → Diagnostic) :
    runFrom (attempt step diagnostic) work =
      match runFrom step work with
      | (.ok a, after) => (.ok (some a), after)
      | (.error e, after) =>
        if e.isClassFatal then (.error e, after)
        else runFrom (leaveOut (diagnostic e) >>= fun _ => pure none) (work.forget after) := rfl

end Run

theorem convertOrSkip_eq (settings : Settings) (constants : ConstantPool) (className : String)
    (method : ClassFile.Method) : convertOrSkip settings constants className method =
      ofFile (method.signature constants) >>= fun signature =>
        report (.convertingMethod className signature) >>= fun _ =>
          attempt (convertMethod settings constants className method)
            fun error => { className, method := some signature, error } := by
  rw [convertOrSkip]
  congr 1
  funext signature
  congr 1
  funext _
  refine ext_runFrom fun work => ?_
  rw [runFrom_attempt, runFrom_bind, runFrom_get]
  dsimp only
  rw [runFrom_bind, runFrom_tryCatch, runFrom_bind]
  rcases runFrom (convertMethod settings constants className method) work with ⟨e | a, after⟩
  · by_cases hfatal : e.isClassFatal
    · simp only [hfatal, if_true, runFrom_bind, runFrom_throw]
    · simp only [hfatal]
      rfl
  · rfl

/-- The tables of the class are again what they were. -/
theorem tables_forget {work after : Workspace} (h : work.tables ≤ after.tables) :
    (work.forget after).tables =
      ⟨after.tables.classes, work.tables.names, work.tables.constants, work.tables.members⟩ := by
  obtain ⟨-, hnames, hconstants, hmembers⟩ := h
  simp only [Workspace.tables, Workspace.forget, Image.Pool.rollback, Image.Pool.checkpoint]
  rw [Interned.toList_truncate_size hnames, Interned.toList_truncate_size hconstants,
    Interned.toList_truncate_size hmembers]

theorem sound_forget {work after : Workspace} (hle : work.tables ≤ after.tables)
    (hwork : work.Sound) (hafter : after.Sound) : (work.forget after).Sound where
  classes := hafter.classes
  names := Interned.wellFormed_truncate hafter.names _
  constants := Interned.wellFormed_truncate hafter.constants _
  members := Interned.wellFormed_truncate hafter.members _
  closed := by
    rw [tables_forget hle]
    exact ⟨hwork.closed.strings, hwork.closed.members⟩

namespace Adds

variable {α β : Type} {pre : Tables → Prop} {step : Convert α} {post : α → Tables → Prop}

theorem tryCatch {recover : Error → Convert α} (h : Adds pre step post)
    (h' : ∀ e, Adds pre (recover e) post) : Adds pre (MonadExcept.tryCatch step recover) post := by
  intro work hsound hpre
  obtain ⟨hle, hsound', hpost⟩ := h work hsound hpre
  rw [runFrom_tryCatch]
  rcases hrun : runFrom step work with ⟨e | a, after⟩ <;> rw [hrun] at hle hsound' hpost
  · obtain ⟨hle', hsound'', hpost'⟩ := h' e after hsound' fun T hT =>
      hpre T (Tables.le_trans hle hT)
    exact ⟨Tables.le_trans hle hle', hsound'', hpost'⟩
  · exact ⟨hle, hsound', hpost⟩

theorem leaveOut (diagnostic : Diagnostic) : Adds pre (leaveOut diagnostic) (fun _ _ => True) :=
  of_tables_eq fun _ => ⟨rfl, rfl⟩

/-- **A step that is undone when it fails.** -/
theorem attempt {diagnostic : Error → Diagnostic} (h : Adds pre step post) :
    Adds pre (attempt step diagnostic) (fun result T => ∀ a, result = some a → post a T) := by
  intro work hsound hpre
  obtain ⟨hle, hsound', hpost⟩ := h work hsound hpre
  rw [runFrom_attempt]
  rcases hrun : runFrom step work with ⟨e | a, after⟩ <;> rw [hrun] at hle hsound' hpost
  · by_cases hfatal : e.isClassFatal
    · simp only [hfatal, if_true]
      exact ⟨hle, hsound', fun _ h => absurd h (by simp)⟩
    · simp only [hfatal]
      -- After forgetting, the tables have grown by classes only.
      have hforget : work.tables ≤ (work.forget after).tables := by
        rw [tables_forget hle]
        exact ⟨hle.1, List.prefix_rfl, List.prefix_rfl, List.prefix_rfl⟩
      have hskip : Adds pre (Conversion.leaveOut (diagnostic e) >>= fun _ => Pure.pure none)
          (fun result T => ∀ a, result = some a → post a T) :=
        (leaveOut (diagnostic e)).bind fun _ => pure fun _ _ _ h => absurd h (by simp)
      obtain ⟨hle', hsound'', hnone⟩ := hskip (work.forget after) (sound_forget hle hsound hsound')
        fun T hT => hpre T (Tables.le_trans hforget hT)
      exact ⟨Tables.le_trans hforget hle', hsound'', hnone⟩
  · refine ⟨hle, hsound', fun result hresult T hT b hb => ?_⟩
    obtain rfl := Except.ok.inj hresult
    obtain rfl := Option.some.inj hb
    exact hpost a rfl T hT

/-- The state at some point, and what is known of its tables then and later. -/
theorem get {f : Workspace → β} : Adds pre (MonadState.get >>= fun work => Pure.pure (f work))
    (fun b T => ∃ work : Workspace, b = f work ∧ work.Sound ∧ work.tables ≤ T ∧
      ∀ T', work.tables ≤ T' → pre T') := by
  intro work hsound hpre
  refine ⟨Tables.le_refl _, hsound, fun b hb T hT => ?_⟩
  obtain rfl := Except.ok.inj hb
  exact ⟨work, rfl, hsound, hT, hpre⟩

end Adds

/-! ### Fields -/

/-- An index of the image names the text at a slot of the constant pool. -/
def KeepsText (constants : ConstantPool) (slot : UInt16) (index : NameIndex) (T : Tables) : Prop :=
  ∃ text, constants.utf8 slot = .ok text ∧ T.names[index.toNat]? = some text

/-- An index that, if present, is one of a table and not the reserved one. -/
def Within {α : Type} (table : List α) (index : Option UInt16) : Prop :=
  ∀ i, index = some i → i.toNat < table.length ∧ i ≠ absent

/-- A field of the image stands for a field of the class file. -/
structure KeepsField (constants : ConstantPool) (source : ClassFile.Field) (field : Image.Field)
    (T : Tables) : Prop where
  name : KeepsText constants source.name field.name T
  descriptor : KeepsText constants source.descriptor field.descriptor T
  constantValue : Within T.constants field.constantValue

variable {pre : Tables → Prop}

/-- The text at a slot, interned as a name. -/
theorem Adds.text {β : Type} {constants : ConstantPool} {slot : UInt16}
    {next : NameIndex → Convert β} {post : β → Tables → Prop}
    (h : ∀ index, Adds (fun T => pre T ∧ KeepsText constants slot index T) (next index) post) :
    Adds pre (ofFile (constants.utf8 slot) >>= fun text =>
      Conversion.internName text >>= next) post := by
  refine Adds.file fun text htext => (Adds.internName text).bind fun index => ?_
  exact (h index).mono (fun T hT => ⟨hT.1, text, htext, hT.2.1⟩) fun _ _ _ h => h

/-- The text of a string that a field starts with is interned before the constant. -/
theorem adds_fieldConstant (constants : ConstantPool) (index : UInt16) :
    Adds pre (fieldConstant constants index) (fun constant T =>
      ∀ name, constant = .string name → name.toNat < T.names.length) := by
  refine Adds.file fun constant _ => ?_
  split
  case h_5 slot =>
    refine Adds.file fun text _ => (Adds.internName text).bind fun i => Adds.pure ?_
    rintro T ⟨-, hname, -⟩ name heq
    obtain rfl := Image.Constant.string.inj heq
    exact (List.getElem?_eq_some_iff.mp hname).1
  case h_6 => exact Adds.throw _
  all_goals exact Adds.pure fun _ _ _ h => absurd h (by simp)

theorem adds_convertField (constants : ConstantPool) (source : ClassFile.Field) :
    Adds pre (convertField constants source) (KeepsField constants source) := by
  refine Adds.file fun slot _ => (Adds.optionMapM (fun index => ?_) slot).bind fun constantValue =>
    Adds.text fun name => Adds.text fun descriptor => Adds.pure fun T hT => ⟨hT.1.2, hT.2, hT.1.1.2⟩
  refine (adds_fieldConstant constants index).bind fun constant =>
    (Adds.internConstant fun T name hT => hT.2 name).mono (fun _ h => h) ?_
  rintro i T - ⟨hconstant, hne⟩
  exact ⟨(List.getElem?_eq_some_iff.mp hconstant).1, hne⟩

/-! ### Methods -/

/-- The body that is laid out for a lowered one. -/
def finished (settings : Settings) (lowered : Body) : Body :=
  if settings.dropNops then lowered.withoutNops else lowered

theorem maxStack_finished (settings : Settings) (lowered : Body) :
    (finished settings lowered).maxStack = lowered.maxStack := by
  rw [finished]
  split <;> rfl

theorem maxLocals_finished (settings : Settings) (lowered : Body) :
    (finished settings lowered).maxLocals = lowered.maxLocals := by
  rw [finished]
  split <;> rfl

/-- Encoded code with its tables stands for the code of a method: it was laid out from the
instructions that the decoded operations became. -/
structure KeepsCode (settings : Settings) (constants : ConstantPool) (code : ClassFile.Code)
    (decoded : List Decoded) (lowered : Body) (groups : List (List Image.Record))
    (assembly : Body.Assembly) (T : Tables) : Prop where
  lowers : Lowered constants code decoded lowered T
  assembles : IsAssembly settings (finished settings lowered) assembly groups

/-- What is left of converting code once the body is known. -/
theorem adds_assemble (settings : Settings) (constants : ConstantPool) (className : String)
    (code : ClassFile.Code) {lowered body : Body} (hbody : body = finished settings lowered) :
    Adds (fun T => pre T ∧ ∃ decoded, Lowered constants code decoded lowered T)
      (do
        report (.lowered className body)
        let assembly ← liftM (body.assemble settings)
        report (.assembled body.instructions.length assembly.records.length assembly.code.length)
        return (body, assembly))
      (fun result T => ∃ decoded lowered groups, result.1 = finished settings lowered ∧
        KeepsCode settings constants code decoded lowered groups result.2 T) := by
  refine (Adds.report _).bind fun _ => Adds.except fun assembly hassembly =>
    (Adds.report _).bind fun _ => Adds.pure ?_
  rintro T ⟨⟨⟨-, decoded, hlowered⟩, -⟩, -⟩
  obtain ⟨groups, hgroups⟩ := Body.assemble_ok hassembly
  rw [hbody] at hgroups
  exact ⟨decoded, lowered, groups, hbody, hlowered, hgroups⟩

theorem adds_convertCode (settings : Settings) (constants : ConstantPool) (className : String)
    {code : ClassFile.Code} (hlength : code.bytes.length ≤ UInt32.size) :
    Adds pre (convertCode settings constants className code)
      (fun result T => ∃ decoded lowered groups, result.1 = finished settings lowered ∧
        KeepsCode settings constants code decoded lowered groups result.2 T) := by
  refine (adds_lower settings constants hlength).bind fun lowered => ?_
  by_cases hdrop : settings.dropNops
  · simp only [if_pos hdrop]
    refine (Adds.report _).bind fun _ => ?_
    rw [pure_bind]
    exact (adds_assemble settings constants className code (by rw [finished, if_pos hdrop])).mono
      (fun _ hT => hT.1) fun _ _ _ h => h
  · simp only [if_neg hdrop]
    rw [pure_bind]
    exact adds_assemble settings constants className code (by rw [finished, if_neg hdrop])

/-- Code and tables of a method of the image stand for the code of a method, if it has any. -/
inductive KeepsBody (settings : Settings) (constants : ConstantPool) (method : Image.Method)
    (T : Tables) :
    Option ClassFile.Code → Prop where
  | bodiless (hcode : method.code = []) (hlines : method.lines = [])
    (hhandlers : method.handlers = []) :
    KeepsBody settings constants method T none
  | code {code : ClassFile.Code} {decoded : List Decoded} {lowered : Body}
    {groups : List (List Image.Record)} {assembly : Body.Assembly}
    (hkeeps : KeepsCode settings constants code decoded lowered groups assembly T)
    (hcode : method.code = assembly.code) (hlines : method.lines = assembly.lines)
    (hhandlers : method.handlers = assembly.handlers) (hstack : method.maxStack = code.maxStack)
    (hlocals : method.maxLocals = code.maxLocals) :
    KeepsBody settings constants method T (some code)

/-- A method of the image stands for a method of the class file. -/
structure KeepsMethod (settings : Settings) (constants : ConstantPool) (source : ClassFile.Method)
    (method : Image.Method) (T : Tables) : Prop where
  accessFlags : method.accessFlags = source.accessFlags
  name : KeepsText constants source.name method.name T
  descriptor : KeepsText constants source.descriptor method.descriptor T
  body : ∃ code, source.code constants = .ok code ∧ KeepsBody settings constants method T code

theorem adds_convertMethod (settings : Settings) (constants : ConstantPool) (className : String)
    (source : ClassFile.Method) : Adds pre (convertMethod settings constants className source)
      (KeepsMethod settings constants source) := by
  refine Adds.text fun name => Adds.text fun descriptor => Adds.file fun code hcode => ?_
  cases code with
  | none =>
    exact Adds.pure fun T hT => ⟨rfl, hT.1.2, hT.2, none, hcode, .bodiless rfl rfl rfl⟩
  | some code =>
    have hlength := ClassFile.Method.length_bytes_of_code hcode
    refine (adds_convertCode settings constants className hlength).bind fun result => Adds.pure ?_
    rintro T ⟨⟨⟨-, hname⟩, hdescriptor⟩, decoded, lowered, groups, hbody, hkeeps⟩
    refine ⟨rfl, hname, hdescriptor, some code, hcode, .code hkeeps rfl rfl rfl ?_ ?_⟩ <;>
      dsimp only
    · rw [hbody, maxStack_finished, hkeeps.lowers.maxStack]
    · rw [hbody, maxLocals_finished, hkeeps.lowers.maxLocals]

theorem adds_convertOrSkip (settings : Settings) (constants : ConstantPool) (className : String)
    (source : ClassFile.Method) : Adds pre (convertOrSkip settings constants className source)
      (fun result T => ∀ method, result = some method →
        KeepsMethod settings constants source method T) := by
  rw [convertOrSkip_eq]
  exact Adds.file fun signature _ => (Adds.report _).bind fun _ =>
    Adds.attempt (adds_convertMethod settings constants className source)

/-! ### Classes -/

/-- An image stands for a class file, of whose methods some were left out. -/
structure KeepsClass (settings : Settings) (classFile : ClassFile) (image : Image)
    (outcomes : List (Option Image.Method)) (T : Tables) : Prop where
  thisClass : image.thisClass.toNat < T.classes.length
  superClass : Within T.classes image.superClass
  interfaces : ∀ id ∈ image.interfaces, id.toNat < T.classes.length
  sourceFile : Within T.names image.sourceFile
  fields : List.Forall₂ (fun source field => KeepsField classFile.constants source field T)
    classFile.fields image.fields
  methods : image.methods = outcomes.reduceOption
  outcomes : List.Forall₂ (fun source result => ∀ method, result = some method →
    KeepsMethod settings classFile.constants source method T) classFile.methods outcomes

/-- An image, the state in which it was completed, and what is known of both. -/
structure Completed (settings : Settings) (classFile : ClassFile) (image : Image)
    (work : Workspace) :
    Prop where
  sound : work.Sound
  names : image.names = work.tables.names
  constants : image.constants = work.tables.constants
  members : image.members = work.tables.members
  keeps : ∃ outcomes, ∀ T, work.tables ≤ T → KeepsClass settings classFile image outcomes T

theorem adds_classIndex (name : String) : Adds pre (internClass name)
    (fun id T => id.toNat < T.classes.length ∧ id ≠ absent) :=
  (Adds.internClass name).mono (fun _ h => h) fun _ _ _ h =>
    ⟨(List.getElem?_eq_some_iff.mp h.1).1, h.2⟩

theorem adds_nameIndex (name : String) : Adds pre (internName name)
    (fun i T => i.toNat < T.names.length ∧ i ≠ absent) :=
  (Adds.internName name).mono (fun _ h => h) fun _ _ _ h =>
    ⟨(List.getElem?_eq_some_iff.mp h.1).1, h.2⟩

/-- **What a converted class refers to is in the tables that the image takes along.** -/
theorem adds_convertFile (settings : Settings) (className : String) (classFile : ClassFile) :
    Adds pre (convertFile settings className classFile)
      (fun image T => ∃ work, work.tables ≤ T ∧ Completed settings classFile image work) := by
  refine (adds_classIndex className).bind fun thisClass => Adds.file fun superName _ =>
    (Adds.optionMapM adds_classIndex superName).bind fun superClass =>
    (Adds.mapM fun index _ => Adds.file fun name _ => adds_classIndex name).bind fun interfaces =>
    Adds.file fun sourceName _ => (Adds.optionMapM adds_nameIndex sourceName).bind fun sourceFile =>
    (Adds.mapM fun source _ => adds_convertField classFile.constants source).bind fun fields =>
    (Adds.mapM fun source _ => adds_convertOrSkip settings classFile.constants
      className source).bind fun outcomes => Adds.get.mono (fun _ h => h) ?_
  rintro image T - ⟨work, rfl, hsound, hle, hkeeps⟩
  refine ⟨work, hle, hsound, rfl, rfl, rfl, outcomes, fun T' hT' => ?_⟩
  obtain ⟨⟨⟨⟨⟨⟨-, hthis⟩, hsuper⟩, hinterfaces⟩, hsource⟩, hfields⟩, houtcomes⟩ := hkeeps T' hT'
  refine ⟨hthis.1, hsuper, fun id hid => ?_, hsource, hfields, rfl, houtcomes⟩
  obtain ⟨-, -, hlt, -⟩ := exists_mem_of_forall₂ hinterfaces hid
  exact hlt

/-! ### Class files -/

/-- The steps that a class file goes through. -/
def classSteps (settings : Settings) (className : String) (classFile : ClassFile) :
    Convert Image := do
  report (.convertingClass className classFile.version)
  try convertFile settings className classFile
  catch error =>
    leaveOut { className, method := none, error }
    throw error

theorem adds_classSteps (settings : Settings) (className : String) (classFile : ClassFile) :
    Adds pre (classSteps settings className classFile)
      (fun image T => ∃ work, work.tables ≤ T ∧ Completed settings classFile image work) :=
  (Adds.report _).bind fun _ => (adds_convertFile settings className classFile).tryCatch fun e =>
    (Adds.leaveOut _).bind fun _ => Adds.throw e

section Outcome

variable {settings : Settings} {symbols : SymbolTable} {bytes : Bytes}

theorem toImage_eq {classFile : ClassFile} {className : String}
    (hfile : ClassFile.ofBytes bytes = .ok classFile) (hname : classFile.name = .ok className) :
    toImage settings symbols bytes =
      match runFrom (classSteps settings className classFile) (.start symbols) with
      | (.ok image, work) =>
        ⟨.ok (className, image, work.diagnostics.toList), work.symbols, work.events.toList⟩
      | (.error _, work) => ⟨.error work.diagnostics.toList, work.symbols, work.events.toList⟩ := by
  simp only [toImage, hfile, hname]
  rfl

/-- Whatever comes of a class file, the symbol table only grows and stays well formed. -/
theorem toImage_symbols (hsymbols : symbols.names.WellFormed) :
    (toImage settings symbols bytes).symbols.names.WellFormed ∧
      symbols.toList <+: (toImage settings symbols bytes).symbols.toList := by
  cases hfile : ClassFile.ofBytes bytes with
  | error fault =>
    simp only [toImage, hfile]
    exact ⟨hsymbols, List.prefix_rfl⟩
  | ok classFile =>
    cases hname : classFile.name with
    | error fault =>
      simp only [toImage, hfile, hname]
      exact ⟨hsymbols, List.prefix_rfl⟩
    | ok className =>
      have hadds : Adds (fun _ => True) _ _ := adds_classSteps settings className classFile
      obtain ⟨hle, hsound, -⟩ := hadds (.start symbols) (Workspace.sound_start hsymbols)
        fun _ _ => trivial
      rw [toImage_eq hfile hname]
      rcases hrun : runFrom (classSteps settings className classFile) (.start symbols) with
        ⟨e | image, work⟩ <;> rw [hrun] at hle hsound <;> exact ⟨hsound.classes, hle.1⟩

/-- **An image comes from a class file that was read and named**, and was completed with classes
that the symbol table has. -/
theorem toImage_ok (hsymbols : symbols.names.WellFormed) {className : String} {image : Image}
    {diagnostics : List Diagnostic}
    (h : (toImage settings symbols bytes).result = .ok (className, image, diagnostics)) :
    ∃ classFile work, ClassFile.ofBytes bytes = .ok classFile ∧
      Completed settings classFile image work ∧
      work.tables.classes <+: (toImage settings symbols bytes).symbols.toList := by
  cases hfile : ClassFile.ofBytes bytes with
  | error fault =>
    simp only [toImage, hfile, Outcome.unreadable] at h
    exact absurd h (by simp)
  | ok classFile =>
    cases hname : classFile.name with
    | error fault =>
      simp only [toImage, hfile, hname, Outcome.unreadable] at h
      exact absurd h (by simp)
    | ok name =>
      have hadds : Adds (fun _ => True) _ _ := adds_classSteps settings name classFile
      obtain ⟨hle, hsound, hpost⟩ :=
        hadds (.start symbols) (Workspace.sound_start hsymbols) fun _ _ => trivial
      rw [toImage_eq hfile hname] at h ⊢
      rcases hrun : runFrom (classSteps settings name classFile) (.start symbols) with
        ⟨e | image', after⟩ <;> rw [hrun] at h hpost
      · exact absurd h (by simp)
      · obtain ⟨work, hle', hcompleted⟩ := hpost image' rfl after.tables (Tables.le_refl _)
        obtain rfl : image' = image := congrArg (fun result => result.2.1) (Except.ok.inj h)
        exact ⟨classFile, work, rfl, hcompleted, hle'.1⟩

theorem convertInto_symbols (sink : Sink) : (convertInto settings symbols bytes sink).1.symbols =
    (toImage settings symbols bytes).symbols := by
  rw [convertInto]
  rcases toImage settings symbols bytes with
    ⟨diagnostics | ⟨className, image, diagnostics⟩, symbols', events⟩
  · rfl
  · dsimp only
    rcases image.write.run.run sink with ⟨fault | _, sink'⟩ <;> rfl

theorem convertClass_symbols : (convertClass settings symbols bytes).symbols =
    (toImage settings symbols bytes).symbols :=
  convertInto_symbols .unlimited

/-- The bytes of a converted class are those of its image. -/
theorem convertClass_ok {written : Bytes} {diagnostics : List Diagnostic}
    (h : (convertClass settings symbols bytes).result = .ok (written, diagnostics)) :
    ∃ className image, (toImage settings symbols bytes).result =
      .ok (className, image, diagnostics) ∧
      image.toBytes = .ok written := by
  rw [convertClass, convertInto] at h
  rcases htoImage : toImage settings symbols bytes with
    ⟨failed | ⟨className, image, skipped⟩, symbols', events⟩ <;> rw [htoImage] at h
  · exact absurd h (by simp [Except.map])
  · dsimp only at h
    refine ⟨className, image, ?_⟩
    rcases hwrite : image.write.run.run .unlimited with ⟨fault | _, sink⟩ <;> rw [hwrite] at h
    · exact absurd h (by simp [Except.map])
    · obtain ⟨rfl, rfl⟩ : sink.bytes = written ∧ skipped = diagnostics := by
        simpa [Except.map] using h
      refine ⟨rfl, ?_⟩
      rw [Image.toBytes, Writer.toBytes, hwrite]

end Outcome

/-! ### Symbol tables of a session -/

/-- A symbol table that some sequence of entering names, looking into class files and converting
them leads to, whether they succeed or fail. -/
inductive Reachable : SymbolTable → Prop where
  | empty : Reachable .empty
  | intern {symbols : SymbolTable} (h : Reachable symbols) (name : String) :
    Reachable (symbols.intern name).2
  | prepopulate {symbols : SymbolTable} (h : Reachable symbols) (classFile : ClassFile) :
    Reachable (symbols.prepopulate classFile).2
  | convert {symbols : SymbolTable} (h : Reachable symbols) (settings : Settings) (bytes : Bytes)
    (sink : Sink) : Reachable (convertInto settings symbols bytes sink).1.symbols

theorem wellFormed_intern {symbols : SymbolTable} (h : symbols.names.WellFormed) (name : String) :
    (symbols.intern name).2.names.WellFormed := by
  have hspec := Interned.intern_spec h name
  rw [SymbolTable.intern]
  rcases hrun : symbols.names.intern name with ⟨_ | i, names⟩ <;> rw [hrun] at hspec <;>
    exact hspec.wellFormed

theorem wellFormed_internAll {symbols : SymbolTable} (h : symbols.names.WellFormed)
    (names : List (Except ClassFile.Fault String)) :
    (symbols.internAll names).2.names.WellFormed := by
  induction names generalizing symbols with
  | nil => exact h
  | cons name rest ih =>
    cases name with
    | error fault => exact h
    | ok name =>
      have hintern := wellFormed_intern h name
      rw [SymbolTable.internAll]
      rcases hrun : symbols.intern name with ⟨e | id, symbols'⟩ <;> rw [hrun] at hintern
      · exact hintern
      · exact ih hintern

/-- **Every table of a session is the inverse of its search tree.** -/
theorem Reachable.wellFormed {symbols : SymbolTable} (h : Reachable symbols) :
    symbols.names.WellFormed := by
  induction h with
  | empty => exact Interned.wellFormed_empty
  | intern _ name ih => exact wellFormed_intern ih name
  | prepopulate _ classFile ih => exact wellFormed_internAll ih _
  | convert _ settings bytes sink ih =>
    rw [convertInto_symbols]
    exact (toImage_symbols ih).1

end ClassImage.Conversion
