import Mathlib.Data.List.Forall2
import ClassImage.Conversion.Workspace
import ClassImage.Proofs.Interned
import ClassImage.Proofs.Meaning

/-!
# What the steps of a conversion add to the tables

A conversion enters classes, names, constants and members on its way. `Adds pre step post` says what
may be relied on about one step of it: in a sound state it only lets the tables grow and leaves them
sound, even if it fails; and if it returns `a`, then `post a T` holds for the tables `T` that it
leaves *and for all that they can grow into*. So what was established about an index stays true
until the image is written, and a rule for `>>=` is all that is needed to follow a conversion line
by line.
-/

namespace ClassImage

/-! ### Keys tell values apart -/

namespace Image

theorem Constant.key_injective {a b : Constant} (h : a.key = b.key) : a = b := by
  cases a <;> cases b <;> simp only [key] at h
  case int.int v w =>
    have hword : v.toUInt32 = w.toUInt32 := UInt32.toNat_inj.mp (by omega)
    rw [← v.toInt32_toUInt32, hword, w.toInt32_toUInt32]
  case float.float v w => rw [UInt32.toNat_inj.mp (show v.toNat = w.toNat by omega)]
  case long.long v w =>
    have hword : v.toUInt64 = w.toUInt64 := UInt64.toNat_inj.mp (by omega)
    rw [← v.toInt64_toUInt64, hword, w.toInt64_toUInt64]
  case double.double v w => rw [UInt64.toNat_inj.mp (show v.toNat = w.toNat by omega)]
  case string.string v w => rw [UInt16.toNat_inj.mp (show v.toNat = w.toNat by omega)]
  all_goals omega

theorem Member.key_injective {a b : Member} (h : a.key = b.key) : a = b := by
  obtain ⟨name, descriptor⟩ := a
  obtain ⟨name', descriptor'⟩ := b
  have hlt := descriptor.toNat_lt
  have hlt' := descriptor'.toNat_lt
  simp only [key] at h
  have hname : name = name' := UInt16.toNat_inj.mp (by omega)
  have hdescriptor : descriptor = descriptor' := UInt16.toNat_inj.mp (by omega)
  rw [hname, hdescriptor]

instance : Std.TransOrd Constant := inferInstanceAs (Std.TransCmp (compareOn Constant.key))

instance : Std.TransOrd Member := inferInstanceAs (Std.TransCmp (compareOn Member.key))

instance : Std.LawfulEqOrd Constant where
  eq_of_compare h := Constant.key_injective (Std.LawfulEqOrd.eq_of_compare h)

instance : Std.LawfulEqOrd Member where
  eq_of_compare h := Member.key_injective (Std.LawfulEqOrd.eq_of_compare h)

end Image

/-! ### Tables grow -/

namespace Tables

instance : LE Tables where
  le a b := a.classes <+: b.classes ∧ a.names <+: b.names ∧ a.constants <+: b.constants ∧
    a.members <+: b.members

protected theorem le_refl (tables : Tables) : tables ≤ tables :=
  ⟨List.prefix_rfl, List.prefix_rfl, List.prefix_rfl, List.prefix_rfl⟩

protected theorem le_trans {a b c : Tables} (hab : a ≤ b) (hbc : b ≤ c) : a ≤ c :=
  ⟨hab.1.trans hbc.1, hab.2.1.trans hbc.2.1, hab.2.2.1.trans hbc.2.2.1, hab.2.2.2.trans hbc.2.2.2⟩

/-- The names that string constants and members refer to exist. -/
structure Closed (tables : Tables) : Prop where
  strings : ∀ name, .string name ∈ tables.constants → name.toNat < tables.names.length
  members : ∀ member ∈ tables.members,
    member.name.toNat < tables.names.length ∧ member.descriptor.toNat < tables.names.length

end Tables

theorem getElem?_extends {α : Type} {as bs : List α} (h : as <+: bs) {i : Nat} {a : α}
    (ha : as[i]? = some a) : bs[i]? = some a := by
  obtain ⟨rest, rfl⟩ := h
  rw [List.getElem?_append_left (List.getElem?_eq_some_iff.mp ha).1]
  exact ha

namespace Conversion

/-- The tables of the state. -/
def Workspace.tables (work : Workspace) : Tables :=
  ⟨work.symbols.toList, work.pool.names.toList, work.pool.constants.toList,
    work.pool.members.toList⟩

/-- The invariant of conversions: all four tables are well formed, and what they refer to exists. -/
structure Workspace.Sound (work : Workspace) : Prop where
  classes : work.symbols.names.WellFormed
  names : work.pool.names.WellFormed
  constants : work.pool.constants.WellFormed
  members : work.pool.members.WellFormed
  closed : work.tables.Closed

theorem Workspace.sound_start {symbols : SymbolTable} (h : symbols.names.WellFormed) :
    (Workspace.start symbols).Sound where
  classes := h
  names := Interned.wellFormed_empty
  constants := Interned.wellFormed_empty
  members := Interned.wellFormed_empty
  closed := ⟨fun _ h => absurd h List.not_mem_nil, fun _ h => absurd h List.not_mem_nil⟩

/-- The result of a step and the state after it. -/
def runFrom {α : Type} (step : Convert α) (work : Workspace) : Except Error α × Workspace :=
  step.run.run work

section Run

variable {α β : Type} (work : Workspace)

@[simp] theorem runFrom_pure (a : α) : runFrom (pure a) work = (.ok a, work) := rfl

@[simp] theorem runFrom_throw (e : Error) : runFrom (throw e : Convert α) work = (.error e, work) :=
  rfl

theorem runFrom_bind (step : Convert α) (next : α → Convert β) : runFrom (step >>= next) work =
    match runFrom step work with
    | (.ok a, work) => runFrom (next a) work
    | (.error e, work) => (.error e, work) := by
  show (ExceptT.bindCont next (runFrom step work).1 : StateM Workspace _) (runFrom step work).2 = _
  rcases runFrom step work with ⟨e | a, work'⟩ <;> rfl

end Run

/-! ### The rules -/

/-- What a step relies on and what it establishes about the tables. -/
def Adds {α : Type} (pre : Tables → Prop) (step : Convert α) (post : α → Tables → Prop) : Prop :=
  ∀ work : Workspace, work.Sound → (∀ T, work.tables ≤ T → pre T) →
    work.tables ≤ (runFrom step work).2.tables ∧ (runFrom step work).2.Sound ∧
      ∀ a, (runFrom step work).1 = .ok a → ∀ T, (runFrom step work).2.tables ≤ T → post a T

namespace Adds

variable {α β : Type} {pre pre' : Tables → Prop} {step : Convert α} {post post' : α → Tables → Prop}

theorem pure {a : α} (h : ∀ T, pre T → post a T) : Adds pre (Pure.pure a) post := by
  intro work hsound hpre
  refine ⟨Tables.le_refl _, hsound, fun b hb T hT => ?_⟩
  obtain rfl := Except.ok.inj hb
  exact h T (hpre T hT)

theorem throw (e : Error) : Adds pre (MonadExcept.throw e) post := by
  intro work hsound _
  exact ⟨Tables.le_refl _, hsound, fun b hb => absurd hb (by simp)⟩

/-- **One step after the other.** What the first one established still holds when the second one
starts, and ever after. -/
theorem bind {next : α → Convert β} {mid : α → Tables → Prop} {post : β → Tables → Prop}
    (h : Adds pre step mid) (h' : ∀ a, Adds (fun T => pre T ∧ mid a T) (next a) post) :
    Adds pre (step >>= next) post := by
  intro work hsound hpre
  obtain ⟨hle, hsound', hmid⟩ := h work hsound hpre
  rw [runFrom_bind]
  rcases hrun : runFrom step work with ⟨e | a, work'⟩ <;> rw [hrun] at hle hsound' hmid
  · exact ⟨hle, hsound', fun b hb => absurd hb (by simp)⟩
  · obtain ⟨hle', hsound'', hpost⟩ := h' a work' hsound' fun T hT =>
      ⟨hpre T (Tables.le_trans hle hT), hmid a rfl T hT⟩
    exact ⟨Tables.le_trans hle hle', hsound'', hpost⟩

theorem map {f : α → β} {post : β → Tables → Prop} (h : Adds pre step fun a => post (f a)) :
    Adds pre (f <$> step) post := by
  rw [map_eq_pure_bind]
  exact h.bind fun _ => pure fun _ hT => hT.2

theorem mono (h : Adds pre step post) (hpre : ∀ T, pre' T → pre T)
    (hpost : ∀ a T, pre' T → post a T → post' a T) : Adds pre' step post' := by
  intro work hsound hpre'
  obtain ⟨hle, hsound', h⟩ := h work hsound fun T hT => hpre T (hpre' T hT)
  exact ⟨hle, hsound', fun a ha T hT => hpost a T (hpre' T (Tables.le_trans hle hT)) (h a ha T hT)⟩

/-- A value that is there or fails; nothing changes. -/
theorem except {x : Except Error α} {next : α → Convert β} {post : β → Tables → Prop}
    (h : ∀ a, x = .ok a → Adds pre (next a) post) : Adds pre (liftM x >>= next) post := by
  cases x with
  | error e => exact throw e
  | ok a => exact h a rfl

/-- A query on the class file. -/
theorem file {x : Except ClassFile.Fault α} {next : α → Convert β} {post : β → Tables → Prop}
    (h : ∀ a, x = .ok a → Adds pre (next a) post) : Adds pre (ofFile x >>= next) post := by
  cases x with
  | error fault => exact throw _
  | ok a => exact h a rfl

theorem mapM {f : α → Convert β} {post : α → β → Tables → Prop} {as : List α}
    (h : ∀ a ∈ as, Adds pre (f a) (post a)) :
    Adds pre (as.mapM f) (fun bs T => List.Forall₂ (fun a b => post a b T) as bs) := by
  induction as with
  | nil => exact pure fun _ _ => List.Forall₂.nil
  | cons a as ih =>
    rw [List.mapM_cons]
    refine (h a List.mem_cons_self).bind fun b => ?_
    refine ((ih fun a' ha' => h a' (List.mem_cons_of_mem a ha')).mono (fun _ hT => hT.1)
      (fun _ _ _ hT => hT)).bind fun bs => pure fun T hT => ?_
    exact List.Forall₂.cons hT.1.2 hT.2

theorem optionMapM {f : α → Convert β} {post : β → Tables → Prop} (h : ∀ a, Adds pre (f a) post)
    (a : Option α) : Adds pre (a.mapM f) (fun b T => ∀ i, b = some i → post i T) := by
  cases a with
  | none => exact pure fun _ _ _ h => absurd h (by simp)
  | some a =>
    refine map ((h a).mono (fun _ h => h) ?_)
    rintro b T - hb i hi
    exact Option.some.inj hi ▸ hb

/-- Steps that leave the tables alone. -/
theorem of_tables_eq (hstep : ∀ work, (runFrom step work).2.symbols = work.symbols ∧
    (runFrom step work).2.pool = work.pool) : Adds pre step (fun _ _ => True) := by
  intro work hsound _
  obtain ⟨hsymbols, hpool⟩ := hstep work
  have htables : (runFrom step work).2.tables = work.tables := by
    rw [Workspace.tables, hsymbols, hpool]
    rfl
  refine ⟨by rw [htables]; exact Tables.le_refl _, ?_, fun _ _ _ _ => trivial⟩
  refine ⟨?_, ?_, ?_, ?_, by rw [htables]; exact hsound.closed⟩
  · rw [hsymbols]; exact hsound.classes
  · rw [hpool]; exact hsound.names
  · rw [hpool]; exact hsound.constants
  · rw [hpool]; exact hsound.members

theorem report (event : Event) : Adds pre (report event) (fun _ _ => True) :=
  of_tables_eq fun _ => ⟨rfl, rfl⟩

end Adds

/-! ### Interning -/

open Image (Constant Member Pool absent)

/-- The result of looking for a place in a table that may be full. -/
def found (full : Error) : Option UInt16 → Except Error UInt16
  | some i => .ok i
  | none => .error full

theorem eq_some_of_found {full : Error} {index : Option UInt16} {i : UInt16}
    (h : found full index = .ok i) : index = some i := by
  cases index with
  | none => exact absurd h (by simp [found])
  | some j => rw [Except.ok.inj h]

theorem eq_of_found_eq_error {full e : Error} {index : Option UInt16}
    (h : found full index = .error e) :
    index = none ∧ full = e := by
  cases index with
  | none => exact ⟨rfl, Except.error.inj h⟩
  | some i => exact absurd h (by simp [found])

/-- An index below the capacity of a table is not the one that stands for an absent index. -/
theorem ne_absent {i : UInt16} (h : i.toNat < Interned.capacity) : i ≠ absent := by
  rintro rfl
  exact absurd h (by decide)

theorem runFrom_onPool {α : Type} (f : Pool → Except Error α × Pool) (work : Workspace) :
    runFrom (onPool f) work = ((f work.pool).1, { work with pool := (f work.pool).2 }) := rfl

section Intern

variable {pre : Tables → Prop} (work : Workspace)

theorem runFrom_internClass (name : String) : runFrom (internClass name) work =
    (found (.unsupported .classLimit) (work.symbols.names.intern name).1,
      { work with symbols := ⟨(work.symbols.names.intern name).2⟩ }) := by
  show ((work.symbols.intern name).1, { work with symbols := (work.symbols.intern name).2 }) = _
  rw [SymbolTable.intern]
  rcases work.symbols.names.intern name with ⟨_ | i, names⟩ <;> rfl

theorem runFrom_internName (name : String) : runFrom (internName name) work =
    (found (Pool.overflow .name) (work.pool.names.intern name).1,
      { work with pool := { work.pool with names := (work.pool.names.intern name).2 } }) := by
  rw [internName, runFrom_onPool, Pool.internName]
  rcases work.pool.names.intern name with ⟨_ | i, names⟩ <;> rfl

theorem runFrom_internConstant (constant : Constant) : runFrom (internConstant constant) work =
    (found (Pool.overflow .constant) (work.pool.constants.intern constant).1,
      { work with
        pool := { work.pool with constants := (work.pool.constants.intern constant).2 } }) := by
  rw [internConstant, runFrom_onPool, Pool.internConstant]
  rcases work.pool.constants.intern constant with ⟨_ | i, constants⟩ <;> rfl

/-- Adding a member of interned names, as a step. -/
def addMember (member : Member) : Convert MemberIndex := onPool (·.addMember member)

theorem runFrom_addMember (member : Member) : runFrom (addMember member) work =
    (found (Pool.overflow .member) (work.pool.members.intern member).1,
      { work with pool := { work.pool with members := (work.pool.members.intern member).2 } }) := by
  rw [addMember, runFrom_onPool, Pool.addMember]
  rcases work.pool.members.intern member with ⟨_ | i, members⟩ <;> rfl

end Intern

theorem ext_runFrom {α : Type} {a b : Convert α} (h : ∀ work, runFrom a work = runFrom b work) :
    a = b :=
  funext h

theorem internString_eq (text : String) : internString text =
    internName text >>= fun name => internConstant (.string name) := by
  refine ext_runFrom fun work => ?_
  rw [runFrom_bind, internString, internName, runFrom_onPool, runFrom_onPool, Pool.internString]
  rcases work.pool.internName text with ⟨e | name, pool⟩ <;> rfl

theorem internMember_eq (name descriptor : String) : internMember name descriptor =
    internName name >>= fun name => internName descriptor >>= fun descriptor =>
      addMember { name, descriptor } := by
  refine ext_runFrom fun work => ?_
  rw [runFrom_bind, internMember, internName, runFrom_onPool, runFrom_onPool, Pool.internMember]
  rcases work.pool.internName name with ⟨e | name, pool⟩
  · rfl
  · simp only [runFrom_bind, internName, runFrom_onPool]
    rcases pool.internName descriptor with ⟨e | descriptor, pool⟩ <;> rfl

namespace Adds

variable {pre : Tables → Prop}

theorem internClass (name : String) : Adds pre (internClass name)
    (fun id T => T.classes[id.toNat]? = some name ∧ id ≠ absent) := by
  intro work hsound _
  have hspec := Interned.intern_spec hsound.classes name
  rw [runFrom_internClass]
  refine ⟨⟨hspec.prefix_toList, List.prefix_rfl, List.prefix_rfl, List.prefix_rfl⟩,
    ⟨hspec.wellFormed, hsound.names, hsound.constants, hsound.members,
      hsound.closed.strings, hsound.closed.members⟩, fun id hid T hT => ?_⟩
  obtain ⟨hat, hlt⟩ := hspec.at_index id (eq_some_of_found hid)
  exact ⟨getElem?_extends hT.1 hat, ne_absent hlt⟩

theorem internName (name : String) : Adds pre (internName name)
    (fun i T => T.names[i.toNat]? = some name ∧ i ≠ absent) := by
  intro work hsound _
  have hspec := Interned.intern_spec hsound.names name
  have hlen := hspec.prefix_toList.length_le
  rw [runFrom_internName]
  refine ⟨⟨List.prefix_rfl, hspec.prefix_toList, List.prefix_rfl, List.prefix_rfl⟩,
    ⟨hsound.classes, hspec.wellFormed, hsound.constants, hsound.members, ?_, ?_⟩,
    fun i hi T hT => ?_⟩
  · intro n hn
    exact Nat.lt_of_lt_of_le (hsound.closed.strings n hn) hlen
  · intro member hmember
    obtain ⟨hname, hdescriptor⟩ := hsound.closed.members member hmember
    exact ⟨Nat.lt_of_lt_of_le hname hlen, Nat.lt_of_lt_of_le hdescriptor hlen⟩
  · obtain ⟨hat, hlt⟩ := hspec.at_index i (eq_some_of_found hi)
    exact ⟨getElem?_extends hT.2.1 hat, ne_absent hlt⟩

/-- The text of a string constant must have been interned before. -/
theorem internConstant {constant : Constant}
    (htext : ∀ T name, pre T → constant = .string name → name.toNat < T.names.length) :
    Adds pre (internConstant constant) (fun i T => T.constants[i.toNat]? =
      some constant ∧ i ≠ absent) := by
  intro work hsound hpre
  have hspec := Interned.intern_spec hsound.constants constant
  rw [runFrom_internConstant]
  refine ⟨⟨List.prefix_rfl, List.prefix_rfl, hspec.prefix_toList, List.prefix_rfl⟩,
    ⟨hsound.classes, hsound.names, hspec.wellFormed, hsound.members, ?_, hsound.closed.members⟩,
    fun i hi T hT => ?_⟩
  · intro name hname
    rcases hspec.mem hname with hold | hnew
    · exact hsound.closed.strings name hold
    · exact htext work.tables name (hpre _ (Tables.le_refl _)) hnew.symm
  · obtain ⟨hat, hlt⟩ := hspec.at_index i (eq_some_of_found hi)
    exact ⟨getElem?_extends hT.2.2.1 hat, ne_absent hlt⟩

theorem internString (text : String) : Adds pre (internString text)
    (fun i T => ∃ name, T.constants[i.toNat]? = some (.string name) ∧
      T.names[name.toNat]? = some text) := by
  rw [internString_eq]
  refine (internName text).bind fun name => (internConstant ?_).mono (fun _ h => h) ?_
  · rintro T _ ⟨-, hname, -⟩ heq
    obtain rfl := Constant.string.inj heq
    exact (List.getElem?_eq_some_iff.mp hname).1
  · rintro i T ⟨-, hname, -⟩ ⟨hconstant, -⟩
    exact ⟨name, hconstant, hname⟩

theorem addMember {member : Member} (hnames : ∀ T, pre T →
      member.name.toNat < T.names.length ∧ member.descriptor.toNat < T.names.length) :
    Adds pre (addMember member) (fun i T => T.members[i.toNat]? = some member) := by
  intro work hsound hpre
  have hspec := Interned.intern_spec hsound.members member
  rw [runFrom_addMember]
  refine ⟨⟨List.prefix_rfl, List.prefix_rfl, List.prefix_rfl, hspec.prefix_toList⟩,
    ⟨hsound.classes, hsound.names, hsound.constants, hspec.wellFormed, hsound.closed.strings, ?_⟩,
    fun i hi T hT => ?_⟩
  · intro other hother
    rcases hspec.mem hother with hold | rfl
    · exact hsound.closed.members other hold
    · exact hnames work.tables (hpre _ (Tables.le_refl _))
  · exact getElem?_extends hT.2.2.2 (hspec.at_index i (eq_some_of_found hi)).1

theorem internMember (name descriptor : String) : Adds pre (internMember name descriptor)
    (fun i T => ∃ member, T.members[i.toNat]? = some member ∧
      T.names[member.name.toNat]? = some name ∧ T.names[member.descriptor.toNat]? =
        some descriptor) := by
  rw [internMember_eq]
  refine (internName name).bind fun n => (internName descriptor).bind fun d =>
    (addMember ?_).mono (fun _ h => h) ?_
  · rintro T ⟨⟨-, hname, -⟩, hdescriptor, -⟩
    exact ⟨(List.getElem?_eq_some_iff.mp hname).1, (List.getElem?_eq_some_iff.mp hdescriptor).1⟩
  · rintro i T ⟨⟨-, hname, -⟩, hdescriptor, -⟩ hmember
    exact ⟨_, hmember, hname, hdescriptor⟩

end Adds

end Conversion

end ClassImage
