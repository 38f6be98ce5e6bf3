import ClassImage.Proofs.Conversion

/-!
# What conversions are made of

Every step of a conversion looks something up in the constant pool of the class file and enters what
it found into a table, or fails with an error of the class itself. `Straight constants step` says
that a step is made of nothing else, with the names it enters taken from `constants`; `Forgiving`
adds that a straight step may be attempted and left out. The conversion of a class is followed once
(`forgiving_classSteps`), and whatever holds of the few elementary steps and passes through `>>=`
then holds of it by induction.
-/

namespace ClassImage

open Conversion (Error)

/-! ### Errors of the class itself -/

/-- Whether an error has its cause in the class that is converted, and neither in the sink that the
image is written to nor in the number of classes that the session has met. -/
def Conversion.Error.isOwn : Error → Bool
  | .writeFailure _ => false
  | .unsupported .classLimit => false
  | _ => true

theorem Conversion.isClassFatal_of_isOwn {e : Error} (h : e.isOwn = true) :
    e.isClassFatal = false := by
  cases e with
  | writeFailure => exact absurd h (by simp [Error.isOwn])
  | _ => rfl

/-- Whatever error comes out, it is one of the class itself. -/
def Harmless {α : Type} (x : Except Error α) : Prop := ∀ e, x = .error e → e.isOwn = true

namespace Harmless

variable {α β : Type} {x : Except Error α}

theorem ok (a : α) : Harmless (.ok a) := fun _ h => absurd h (by simp)

theorem error {e : Error} (h : e.isOwn = true) : Harmless (.error e : Except Error α) :=
  fun _ he => Except.error.inj he ▸ h

theorem bind {f : α → Except Error β} (h : Harmless x) (h' : ∀ a, Harmless (f a)) :
    Harmless (x >>= f) := by
  cases x with
  | error e => exact error (h e rfl)
  | ok a => exact h' a

theorem mapM {f : α → Except Error β} {as : List α} (h : ∀ a ∈ as, Harmless (f a)) :
    Harmless (as.mapM f) := by
  induction as with
  | nil => exact ok []
  | cons a as ih =>
    rw [List.mapM_cons]
    refine (h a List.mem_cons_self).bind fun b => ?_
    exact (ih fun a' ha' => h a' (List.mem_cons_of_mem a ha')).bind fun bs => ok _

end Harmless

namespace Body

open Conversion (Settings)

theorem harmless_distance {place : Place} {target : Nat} : Harmless (place.distance target) := by
  rw [Place.distance]
  split
  · exact .ok _
  · exact .error rfl

theorem harmless_resolve {place : Place} {disp : Displacement} : Harmless (place.resolve disp) := by
  cases disp with
  | value number => exact .ok _
  | branch target => exact harmless_distance

theorem harmless_fit {place : Place} {bits : Nat} {least greatest amount : Int} :
    Harmless (place.fit bits least greatest amount) := by
  rw [Place.fit]
  split
  · exact .ok _
  · exact .error rfl

theorem harmless_parameter {place : Place} {insn : Instruction} {param : Parameter} {index : Nat} :
    Harmless (place.parameter insn param index) := by
  unfold Place.parameter
  split
  · exact .ok _
  · exact harmless_distance.bind fun _ => harmless_fit.bind fun _ => .ok _
  · exact .error rfl

theorem harmless_records {place : Place} {insn : Instruction} : Harmless (place.records insn) := by
  rw [Place.records]
  split
  · exact .ok _
  · exact harmless_resolve.bind fun _ => harmless_fit.bind fun _ => .ok _
  · split
    · exact .error rfl
    · exact harmless_resolve.bind fun _ => harmless_fit.bind fun _ => .ok _
  · exact .ok _
  · split
    · exact (Harmless.mapM fun _ _ => harmless_parameter).bind fun _ => .ok _
    · exact .error rfl
  · exact .error rfl

theorem harmless_wordOffset {layout : Layout Instruction} {position : Nat} :
    Harmless (wordOffset layout position) := by
  rw [wordOffset]
  split
  · exact .ok _
  · exact .error rfl

theorem harmless_place {layout : Layout Instruction} {handler : Handler} :
    Harmless (handler.place layout) :=
  harmless_wordOffset.bind fun _ => harmless_wordOffset.bind fun _ =>
    harmless_wordOffset.bind fun _ => .ok _

theorem harmless_assemble (settings : Settings) (body : Body) :
    Harmless (body.assemble settings) := by
  rw [assemble]
  dsimp only
  split
  · exact .error rfl
  · refine (Harmless.mapM fun placed _ => harmless_records).bind fun groups => ?_
    exact (Harmless.mapM fun handler _ => harmless_place).bind fun handlers => .ok _

theorem harmless_validate (body : Body) : Harmless body.validate := by
  unfold validate
  dsimp only
  split
  · exact .error rfl
  · split
    · exact .error rfl
    · exact .ok _

end Body

namespace Conversion

open ClassFile (ConstantPool)
open Bytecode (Op Decoded)
open Image (Constant Member)

theorem isOwn_ofFault (fault : ClassFile.Fault) : (Error.ofFault fault).isOwn = true := by
  cases fault <;> rfl

/-! ### Steps -/

/-- The name of a class of the constant pool. -/
def NamesClass (constants : ConstantPool) (name : String) : Prop :=
  ∃ index, constants.className index = .ok name

/-- A text of the constant pool. -/
def HasText (constants : ConstantPool) (text : String) : Prop :=
  ∃ index, constants.utf8 index = .ok text

/-- Steps that look things up in a constant pool and enter them into the tables. Where one of them
fails, the whole fails. -/
inductive Straight (constants : ConstantPool) : {α : Type} → Convert α → Prop where
  | pure {α : Type} (a : α) : Straight constants (pure a)
  | throw {α : Type} {e : Error} (h : e.isOwn = true) : Straight constants (throw e : Convert α)
  | report (event : Event) : Straight constants (report event)
  | internClass {name : String} (h : NamesClass constants name) :
    Straight constants (internClass name)
  | internName {name : String} (h : HasText constants name) : Straight constants (internName name)
  | internConstant (constant : Constant) : Straight constants (internConstant constant)
  | addMember (member : Member) : Straight constants (addMember member)
  | bind {α β : Type} {step : Convert α} {next : α → Convert β} (h : Straight constants step)
    (h' : ∀ a, Straight constants (next a)) : Straight constants (step >>= next)

namespace Straight

variable {α β : Type} {constants : ConstantPool} {step : Convert α}

theorem map {f : α → β} (h : Straight constants step) : Straight constants (f <$> step) := by
  rw [map_eq_pure_bind]
  exact h.bind fun a => pure (f a)

theorem except {x : Except Error α} {next : α → Convert β} (hx : Harmless x)
    (h : ∀ a, x = .ok a → Straight constants (next a)) : Straight constants (liftM x >>= next) := by
  cases x with
  | error e => exact throw (hx e rfl)
  | ok a => exact h a rfl

theorem file {x : Except ClassFile.Fault α} {next : α → Convert β}
    (h : ∀ a, x = .ok a → Straight constants (next a)) :
    Straight constants (ofFile x >>= next) := by
  cases x with
  | error fault => exact throw (isOwn_ofFault fault)
  | ok a => exact h a rfl

theorem mapM {f : α → Convert β} {as : List α} (h : ∀ a ∈ as, Straight constants (f a)) :
    Straight constants (as.mapM f) := by
  induction as with
  | nil => exact pure []
  | cons a as ih =>
    rw [List.mapM_cons]
    refine (h a List.mem_cons_self).bind fun b => ?_
    exact (ih fun a' ha' => h a' (List.mem_cons_of_mem a ha')).bind fun bs => pure _

theorem optionMapM {f : α → Convert β} {a : Option α}
    (h : ∀ x, a = some x → Straight constants (f x)) :
    Straight constants (a.mapM f) := by
  cases a with
  | none => exact pure none
  | some x => exact (h x rfl).map

/-- The text at a slot, interned as a name. -/
theorem text {slot : UInt16} {next : NameIndex → Convert β}
    (h : ∀ index, Straight constants (next index)) :
    Straight constants (ofFile (constants.utf8 slot) >>= fun text =>
      Conversion.internName text >>= next) :=
  file fun _ htext => (internName ⟨slot, htext⟩).bind h

theorem internString {text : String} (h : HasText constants text) :
    Straight constants (Conversion.internString text) := by
  rw [internString_eq]
  exact (internName h).bind fun name => internConstant (.string name)

theorem internMember {name descriptor : String} (hname : HasText constants name)
    (hdescriptor : HasText constants descriptor) :
    Straight constants (Conversion.internMember name descriptor) := by
  rw [internMember_eq]
  exact (internName hname).bind fun _ => (internName hdescriptor).bind fun _ => addMember _

end Straight

/-! ### Names that constants lead to -/

section Constants

variable {constants : ConstantPool}

/-- What is known of the texts of a member of the constant pool. -/
structure HasMember (constants : ConstantPool) (ref : ClassFile.MemberRef) : Prop where
  owner : NamesClass constants ref.owner
  name : HasText constants ref.name
  descriptor : HasText constants ref.descriptor

theorem hasMember_of_memberRef {owner nameAndType : UInt16} {ref : ClassFile.MemberRef}
    (h : constants.memberRef owner nameAndType = .ok ref) : HasMember constants ref := by
  obtain ⟨⟨name, descriptor⟩, hpair, h⟩ := bind_eq_ok_iff.mp h
  obtain ⟨ownerName, howner, h⟩ := bind_eq_ok_iff.mp h
  obtain rfl := Except.ok.inj h
  obtain ⟨constant, -, hpair⟩ := bind_eq_ok_iff.mp hpair
  split at hpair
  · obtain ⟨text, hname, hpair⟩ := bind_eq_ok_iff.mp hpair
    obtain ⟨text', hdescriptor, hpair⟩ := bind_eq_ok_iff.mp hpair
    obtain ⟨rfl, rfl⟩ := Prod.mk.inj (Except.ok.inj hpair)
    exact ⟨⟨owner, howner⟩, ⟨_, hname⟩, ⟨_, hdescriptor⟩⟩
  · exact absurd hpair (by simp [throw, throwThe, MonadExceptOf.throw])

theorem hasMember_of_fieldRef {index : UInt16} {ref : ClassFile.MemberRef}
    (h : constants.fieldRef index = .ok ref) : HasMember constants ref := by
  obtain ⟨constant, -, h⟩ := bind_eq_ok_iff.mp h
  split at h
  · exact hasMember_of_memberRef h
  · exact absurd h (by simp [throw, throwThe, MonadExceptOf.throw])

theorem hasMember_of_methodRef {index : UInt16} {ref : ClassFile.MemberRef}
    (h : constants.methodRef index = .ok ref) : HasMember constants ref := by
  obtain ⟨constant, -, h⟩ := bind_eq_ok_iff.mp h
  split at h
  · exact hasMember_of_memberRef h
  · exact absurd h (by simp [throw, throwThe, MonadExceptOf.throw])

end Constants

/-! ### Lowering -/

section Lowering

variable {context : Context}

theorem harmless_resolve {offset target : Nat} : Harmless (context.resolve offset target) := by
  unfold Context.resolve
  dsimp only
  split
  · exact .ok _
  · exact .error rfl

theorem harmless_localRegister {slot : UInt16} : Harmless (localRegister slot) := by
  rw [localRegister]
  split
  · exact .ok _
  · exact .error rfl

theorem harmless_tableParameters {offset default : Nat} {low : Int32} {targets : List Nat} :
    Harmless (tableParameters context offset default low targets) :=
  harmless_resolve.bind fun _ => (Harmless.mapM fun _ _ => harmless_resolve).bind fun _ => .ok _

theorem harmless_lookupParameters {offset default : Nat} {cases : List (Int32 × Nat)} :
    Harmless (lookupParameters context offset default cases) :=
  harmless_resolve.bind fun _ =>
    (Harmless.mapM fun _ _ => harmless_resolve.bind fun _ => .ok _).bind fun _ => .ok _

theorem straight_classAt (index : UInt16) : Straight context.constants (context.classAt index) := by
  have h : Straight context.constants
      (ofFile (context.constants.className index) >>= fun name => internClass name) :=
    .file fun name hname => .internClass ⟨index, hname⟩
  exact h

theorem straight_lowerLoad (isWide : Bool) (index : UInt16) :
    Straight context.constants (lowerLoad context isWide index) := by
  refine .file fun constant hget => ?_
  split
  case h_1 => split <;> exact .pure _
  case h_2 => exact .pure _
  case h_3 slot =>
    exact .file fun text htext => (Straight.internString ⟨slot, htext⟩).bind fun _ => .pure _
  case h_4 => exact (straight_classAt index).bind fun _ => .pure _
  case h_5 | h_6 => exact (Straight.internConstant _).bind fun _ => .pure _
  all_goals exact .throw rfl

theorem straight_lowerMember {ref : ClassFile.MemberRef} (h : HasMember context.constants ref) :
    Straight context.constants (lowerMember ref) :=
  (Straight.internClass h.owner).bind fun _ =>
    (Straight.internMember h.name h.descriptor).bind fun _ => .pure _

theorem straight_lowerOp (offset : Nat) (op : Op) :
    Straight context.constants (lowerOp context offset op) := by
  cases op with
  | plain | pushInt | newArray => exact .pure _
  | load isWide index => exact straight_lowerLoad isWide index
  | localVar op slot =>
    cases op with
    | load | store => exact .except harmless_localRegister fun _ _ => .pure _
    | ret => exact .throw rfl
  | increment => exact .except harmless_localRegister fun _ _ => .pure _
  | branch jump target =>
    cases jump with
    | when | goto => exact .except harmless_resolve fun _ _ => .pure _
    | jsr => exact .throw rfl
  | tableSwitch => exact .except harmless_tableParameters fun _ _ => .pure _
  | lookupSwitch => exact .except harmless_lookupParameters fun _ _ => .pure _
  | field access index =>
    exact .file fun ref href =>
      (straight_lowerMember (hasMember_of_fieldRef href)).bind fun _ => .pure _
  | invoke call index =>
    exact .file fun ref href =>
      (straight_lowerMember (hasMember_of_methodRef href)).bind fun _ => .pure _
  | invokeDynamic => exact .throw rfl
  | onClass op index => exact (straight_classAt index).bind fun _ => .pure _
  | newMultiArray index => exact (straight_classAt index).bind fun _ => .pure _

theorem straight_lowerDecoded (context : Context) (entry : Decoded) :
    Straight context.constants (lowerDecoded context entry) :=
  (straight_lowerOp entry.offset entry.op).bind fun _ => .pure _

theorem straight_lowerHandler (context : Context) (length : Nat)
    (entry : ClassFile.ExceptionEntry) :
    Straight context.constants (lowerHandler context length entry) := by
  have hrest : ∀ (stop : Nat) (catchType : Option ClassId), Straight context.constants (do
      let start ← liftM (context.resolve entry.entry.toNat entry.start.toNat)
      let handler ← liftM (context.resolve entry.entry.toNat entry.entry.toNat)
      return ({ start, stop, entry := handler, catchType } : Body.Handler)) := fun stop catchType =>
    .except harmless_resolve fun _ _ => .except harmless_resolve fun _ _ => .pure _
  have hcatch : ∀ stop : Nat, Straight context.constants (do
      let catchType ←
        if entry.catchType = 0 then pure none else some <$> context.classAt entry.catchType
      let start ← liftM (context.resolve entry.entry.toNat entry.start.toNat)
      let handler ← liftM (context.resolve entry.entry.toNat entry.entry.toNat)
      return ({ start, stop, entry := handler, catchType } : Body.Handler)) := by
    intro stop
    dsimp only
    split
    · exact hrest stop none
    · exact (straight_classAt entry.catchType).map.bind (hrest stop)
  unfold lowerHandler
  dsimp only
  split
  · exact hcatch _
  · exact .except harmless_resolve fun stop _ => hcatch stop

end Lowering

section Methods

variable (constants : ConstantPool)

theorem straight_lower (settings : Settings) (code : ClassFile.Code) :
    Straight constants (lower settings constants code) := by
  refine .file fun lines _ => .file fun decoded _ => ?_
  refine (Straight.mapM fun entry _ => straight_lowerDecoded ⟨settings, constants, _⟩ entry).bind
    fun instructions => ?_
  refine (Straight.mapM fun entry _ => straight_lowerHandler ⟨settings, constants, _⟩ _ entry).bind
    fun handlers => ?_
  exact .except (Body.harmless_validate _) fun _ _ => .pure _

theorem straight_convertCode (settings : Settings) (className : String) (code : ClassFile.Code) :
    Straight constants (convertCode settings constants className code) := by
  have hrest : ∀ body : Body, Straight constants (do
      report (.lowered className body)
      let assembly ← liftM (body.assemble settings)
      report (.assembled body.instructions.length assembly.records.length assembly.code.length)
      return (body, assembly)) := fun body =>
    (Straight.report _).bind fun _ => .except (Body.harmless_assemble settings body) fun _ _ =>
      (Straight.report _).bind fun _ => .pure _
  refine (straight_lower constants settings code).bind fun lowered => ?_
  split
  · exact (Straight.report _).bind fun _ => hrest _
  · exact hrest lowered

theorem straight_convertMethod (settings : Settings) (className : String)
    (method : ClassFile.Method) :
    Straight constants (convertMethod settings constants className method) := by
  refine .text fun name => .text fun descriptor => .file fun code _ => ?_
  cases code with
  | none => exact .pure _
  | some code =>
    exact (straight_convertCode constants settings className code).bind fun _ => .pure _

end Methods

/-! ### Classes -/

/-- Numbers the class itself, the class above and the interfaces, in this order. -/
def enterNames (className : String) (classFile : ClassFile) :
    Convert (ClassId × Option ClassId × List ClassId) := do
  let thisClass ← internClass className
  let superClass ← (← ofFile classFile.superName).mapM internClass
  let interfaces ← classFile.interfaces.mapM fun index => do
    internClass (← ofFile (classFile.constants.className index))
  return (thisClass, superClass, interfaces)

/-- What is known of a class when its methods are about to be converted. -/
structure Head where
  thisClass : ClassId
  superClass : Option ClassId
  interfaces : List ClassId
  sourceFile : Option NameIndex
  fields : List Image.Field

/-- Converts all of a class that comes before its methods. -/
def convertHead (className : String) (classFile : ClassFile) : Convert Head := do
  let (thisClass, superClass, interfaces) ← enterNames className classFile
  let sourceFile ← (← ofFile classFile.sourceFile).mapM internName
  let fields ← classFile.fields.mapM (convertField classFile.constants)
  return { thisClass, superClass, interfaces, sourceFile, fields }

/-- The image of a class, put together from its parts. -/
def Head.image (head : Head) (accessFlags : UInt16) (outcomes : List (Option Image.Method))
    (names : List String) (constants : List Constant) (members : List Member) : Image where
  accessFlags
  thisClass := head.thisClass
  superClass := head.superClass
  sourceFile := head.sourceFile
  interfaces := head.interfaces
  names
  constants
  members
  fields := head.fields
  methods := outcomes.reduceOption

/-- Completes an image with the tables of the class as they are in the end. -/
def complete {α : Type} (f : List String → List Constant → List Member → α) : Convert α := do
  let pool := (← get).pool
  return f pool.names.toList pool.constants.toList pool.members.toList

/-- **A class is converted in three parts**: what comes before the methods, the methods one by one,
and the image of it all. -/
theorem convertFile_eq (settings : Settings) (className : String) (classFile : ClassFile) :
    convertFile settings className classFile = (do
      let head ← convertHead className classFile
      let outcomes ← classFile.methods.mapM (convertOrSkip settings classFile.constants className)
      complete (head.image classFile.accessFlags outcomes)) := by
  simp only [convertHead, enterNames, bind_assoc, pure_bind]
  rfl

/-- Conversions that leave out what fails: straight steps may be attempted, and a failure that is
passed on may be reported first. -/
inductive Forgiving (constants : ConstantPool) : {α : Type} → Convert α → Prop where
  | straight {α : Type} {step : Convert α} (h : Straight constants step) : Forgiving constants step
  | attempt {α : Type} {step : Convert α} (h : Straight constants step)
    {diagnostic : Error → Diagnostic} (herror : ∀ e, (diagnostic e).error = e) :
    Forgiving constants (attempt step diagnostic)
  | reported {α : Type} {step : Convert α} (h : Forgiving constants step)
    {diagnostic : Error → Diagnostic} (herror : ∀ e, (diagnostic e).error = e) :
    Forgiving constants (tryCatch step fun e => leaveOut (diagnostic e) >>= fun _ => throw e)
  | complete {α : Type} (f : List String → List Constant → List Member → α) :
    Forgiving constants (complete f)
  | bind {α β : Type} {step : Convert α} {next : α → Convert β} (h : Forgiving constants step)
    (h' : ∀ a, Forgiving constants (next a)) : Forgiving constants (step >>= next)

theorem Forgiving.mapM {α β : Type} {constants : ConstantPool} {f : α → Convert β} {as : List α}
    (h : ∀ a ∈ as, Forgiving constants (f a)) : Forgiving constants (as.mapM f) := by
  induction as with
  | nil => exact .straight (.pure [])
  | cons a as ih =>
    rw [List.mapM_cons]
    refine (h a List.mem_cons_self).bind fun b => ?_
    exact (ih fun a' ha' => h a' (List.mem_cons_of_mem a ha')).bind fun bs => .straight (.pure _)

section Classes

variable {className : String} {classFile : ClassFile}

theorem namesClass_superName {name : String} (h : classFile.superName = .ok (some name)) :
    NamesClass classFile.constants name := by
  rw [ClassFile.superName] at h
  split at h
  · exact absurd h (by simp)
  · cases hname : classFile.constants.className classFile.superClass with
    | error fault => rw [hname] at h; exact absurd h (by simp [Except.map])
    | ok name' =>
      rw [hname] at h
      obtain rfl : name' = name := Option.some.inj (Except.ok.inj h)
      exact ⟨_, hname⟩

theorem hasText_sourceFile {text : String} (h : classFile.sourceFile = .ok (some text)) :
    HasText classFile.constants text := by
  obtain ⟨index, -, h⟩ := bind_eq_ok_iff.mp h
  cases index with
  | none => exact absurd (Except.ok.inj h) (by simp)
  | some index =>
    obtain ⟨text', htext, h⟩ := bind_eq_ok_iff.mp h
    obtain rfl : text' = text := Option.some.inj (Except.ok.inj h)
    exact ⟨index, htext⟩

theorem straight_enterNames (hname : classFile.name = .ok className) :
    Straight classFile.constants (enterNames className classFile) := by
  refine (Straight.internClass ⟨_, hname⟩).bind fun _ => .file fun superName hsuper => ?_
  refine (Straight.optionMapM ?_).bind fun _ =>
    (Straight.mapM fun index _ => ?_).bind fun _ => .pure _
  · rintro name rfl
    exact .internClass (namesClass_superName hsuper)
  · exact .file fun name hname => .internClass ⟨index, hname⟩

theorem straight_fieldConstant {constants : ConstantPool} (index : UInt16) :
    Straight constants (fieldConstant constants index) := by
  refine .file fun constant hget => ?_
  split
  case h_5 slot =>
    exact .file fun text htext => (Straight.internName ⟨slot, htext⟩).bind fun _ => .pure _
  case h_6 => exact .throw rfl
  all_goals exact .pure _

theorem straight_convertField {constants : ConstantPool} (field : ClassFile.Field) :
    Straight constants (convertField constants field) := by
  refine .file fun slot _ => (Straight.optionMapM fun index _ => ?_).bind fun _ =>
    .text fun _ => .text fun _ => .pure _
  exact (straight_fieldConstant index).bind fun constant => .internConstant constant

theorem straight_convertHead (hname : classFile.name = .ok className) :
    Straight classFile.constants (convertHead className classFile) := by
  refine (straight_enterNames hname).bind fun _ => .file fun sourceFile hsource => ?_
  refine (Straight.optionMapM ?_).bind fun _ =>
    (Straight.mapM fun field _ => straight_convertField field).bind fun _ => .pure _
  rintro text rfl
  exact .internName (hasText_sourceFile hsource)

theorem forgiving_convertOrSkip (settings : Settings) (constants : ConstantPool)
    (className : String) (method : ClassFile.Method) :
    Forgiving constants (convertOrSkip settings constants className method) := by
  rw [convertOrSkip_eq]
  cases method.signature constants with
  | error fault => exact .straight (.throw (isOwn_ofFault fault))
  | ok signature =>
    refine .bind (.straight (.pure signature)) fun _ => .bind (.straight (.report _)) fun _ => ?_
    exact .attempt (straight_convertMethod constants settings className method) fun _ => rfl

/-- **Converting a class is made of steps on its own constants**, of which methods are attempted. -/
theorem forgiving_convertFile (settings : Settings) (hname : classFile.name = .ok className) :
    Forgiving classFile.constants (convertFile settings className classFile) := by
  rw [convertFile_eq]
  refine .bind (.straight (straight_convertHead hname)) fun head => ?_
  exact (Forgiving.mapM fun method _ => forgiving_convertOrSkip settings _ className method).bind
    fun outcomes =>
    .complete _

theorem forgiving_classSteps (settings : Settings) (hname : classFile.name = .ok className) :
    Forgiving classFile.constants (classSteps settings className classFile) := by
  refine .bind (.straight (.report _)) fun _ => ?_
  exact .reported (forgiving_convertFile settings hname) fun _ => rfl

end Classes

end Conversion

end ClassImage
