import ClassImage.Proofs.FormatExact
import ClassImage.Proofs.Lookup

/-!
# The slots of a constant pool

A pool that is read fills the slots from 1 up to its count without a gap (`Fills`), and every index
names the constant that the list of all constants has at that slot, or is refused: zero, the second
half of a wide constant, and whatever is not below the count. The queries follow indices from there,
so each of them finds texts just where every index on the way names a constant of the right kind.
The only pools that are refused for an index are the one without a slot and those whose last
constant is wide and has room for its first half only (`read_eq_badIndex_iff`).
-/

namespace ClassImage

namespace ClassFile

/-! ### Slots -/

/-- Long and double constants. -/
def Constant.IsWide (constant : Constant) : Prop :=
  (∃ value, constant = .long value) ∨ ∃ bits, constant = .double bits

theorem Constant.width_of_isWide {constant : Constant} (h : constant.IsWide) :
    width constant = 2 := by
  rcases h with ⟨value, rfl⟩ | ⟨bits, rfl⟩ <;> rfl

theorem Constant.width_of_not_isWide {constant : Constant} (h : ¬ constant.IsWide) :
    width constant = 1 := by
  cases constant with
  | long value => exact absurd (Or.inl ⟨value, rfl⟩) h
  | double bits => exact absurd (Or.inr ⟨bits, rfl⟩) h
  | _ => rfl

theorem Constant.width_pos (constant : Constant) : 0 < width constant := by
  by_cases h : constant.IsWide
  · rw [width_of_isWide h]
    decide
  · rw [width_of_not_isWide h]
    decide

/-- Constants with their slots that fill the slots from one number up to another: each stands in the
next free slot, and the wide ones take two. -/
inductive Fills : Nat → List (Nat × Constant) → Nat → Prop where
  | full (slot : Nat) : Fills slot [] slot
  | narrow {slot stop : Nat} {constant : Constant} {placed : List (Nat × Constant)}
    (hnarrow : ¬ constant.IsWide) (h : Fills (slot + 1) placed stop) :
    Fills slot ((slot, constant) :: placed) stop
  | wide {slot stop : Nat} {constant : Constant} {placed : List (Nat × Constant)}
    (hwide : constant.IsWide) (h : Fills (slot + 2) placed stop) :
    Fills slot ((slot, constant) :: placed) stop

theorem fills_zip_offsetsFrom (slot : Nat) (constants : List Constant) :
    Fills slot ((offsetsFrom width slot constants).zip constants)
      (slot + totalSize width constants) := by
  induction constants generalizing slot with
  | nil => exact .full slot
  | cons constant constants ih =>
    have hrest := ih (slot + width constant)
    rw [Nat.add_assoc] at hrest
    rw [offsetsFrom, List.zip_cons_cons, totalSize_cons]
    by_cases hwide : constant.IsWide
    · rw [Constant.width_of_isWide hwide] at hrest ⊢
      exact .wide hwide hrest
    · rw [Constant.width_of_not_isWide hwide] at hrest ⊢
      exact .narrow hwide hrest

theorem Fills.start_le_of_mem {slot stop : Nat} {placed : List (Nat × Constant)}
    (h : Fills slot placed stop) :
    ∀ entry ∈ placed, slot ≤ entry.1 := by
  induction h with
  | full slot => exact fun entry hentry => absurd hentry List.not_mem_nil
  | narrow _ _ ih | wide _ _ ih =>
    refine List.forall_mem_cons.mpr ⟨Nat.le_refl _, fun entry hentry => ?_⟩
    have hle := ih entry hentry
    omega

/-- **Constants that fill slots stand in ascending order.** -/
theorem Fills.pairwise {slot stop : Nat} {placed : List (Nat × Constant)}
    (h : Fills slot placed stop) :
    (placed.map Prod.fst).Pairwise (· < ·) := by
  induction h with
  | full slot => exact List.Pairwise.nil
  | narrow _ hrest ih | wide _ hrest ih =>
    refine List.Pairwise.cons (fun other hother => ?_) ih
    obtain ⟨entry, hentry, rfl⟩ := List.mem_map.mp hother
    have hle := hrest.start_le_of_mem entry hentry
    dsimp only
    omega

namespace ConstantPool

/-! ### What an index names -/

/-- An index names a constant. -/
def Names (pool : ConstantPool) (index : UInt16) (constant : Constant) : Prop :=
  (index.toNat, constant) ∈ pool.toList

instance (pool : ConstantPool) (index : UInt16) (constant : Constant) :
    Decidable (pool.Names index constant) :=
  inferInstanceAs (Decidable ((index.toNat, constant) ∈ pool.toList))

/-- An index is the second half of a wide constant. -/
def SecondHalf (pool : ConstantPool) (index : UInt16) : Prop :=
  ∃ slot constant, (slot, constant) ∈ pool.toList ∧ constant.IsWide ∧ index.toNat = slot + 1

theorem get_eq_ok_iff {pool : ConstantPool} {index : UInt16} {constant : Constant} :
    pool.get index = .ok constant ↔ (pool.slots.lookup index.toNat).found? = some constant := by
  unfold get
  cases (pool.slots.lookup index.toNat).found? <;> simp

theorem get_eq_error_iff {pool : ConstantPool} {index : UInt16} :
    pool.get index = .error (.badIndex index) ↔ (pool.slots.lookup index.toNat).found? = none := by
  unfold get
  cases (pool.slots.lookup index.toNat).found? <;> simp

section OfList

variable {constants : List Constant} {index : UInt16}

theorem get_ofList_eq_ok_iff {constant : Constant} :
    (⟨Layout.ofList 1 constants⟩ : ConstantPool).get index = .ok constant ↔
      Names ⟨Layout.ofList 1 constants⟩ index constant := by
  rw [get_eq_ok_iff]
  exact Layout.found?_lookup_eq_some_iff fun constant _ => constant.width_pos

/-- **The indices that name nothing.** -/
theorem get_ofList_eq_error_iff :
    (⟨Layout.ofList 1 constants⟩ : ConstantPool).get index = .error (.badIndex index) ↔
      index = 0 ∨ SecondHalf ⟨Layout.ofList 1 constants⟩ index ∨
        1 + totalSize width constants ≤ index.toNat := by
  have hpos : ∀ constant ∈ constants, 0 < width constant := fun constant _ => constant.width_pos
  have hzero : index.toNat < 1 ↔ index = 0 := by
    rw [Nat.lt_one_iff]
    exact UInt16.toNat_inj (b := 0)
  rw [get_eq_error_iff]
  dsimp only
  constructor
  · intro h
    rcases Layout.lookup_cases hpos 1 index.toNat with
      ⟨hout, -⟩ | ⟨before, constant, behind, -, -, hfound⟩ |
      ⟨before, constant, behind, heq, hlow, hhigh, -⟩
    · rcases hout with hout | hout
      · exact Or.inl (hzero.mp hout)
      · exact Or.inr (Or.inr hout)
    · rw [hfound] at h
      exact absurd h (by simp [Lookup.found?])
    · -- Only a wide constant has room for an index behind its own.
      have hwide : constant.IsWide := by
        by_contra hnarrow
        rw [Constant.width_of_not_isWide hnarrow] at hhigh
        omega
      rw [Constant.width_of_isWide hwide] at hhigh
      refine Or.inr (Or.inl ⟨1 + totalSize width before, constant, ?_, hwide, by omega⟩)
      show _ ∈ (Layout.ofList 1 constants).toList
      rw [Layout.toList_ofList]
      exact (mem_zip_offsetsFrom_iff width).mpr ⟨before, behind, heq, rfl⟩
  · rintro (h | ⟨slot, constant, hmem, hwide, hindex⟩ | h)
    · rw [Layout.lookup_of_outside (Or.inl (hzero.mpr h))]
      rfl
    · replace hmem : _ ∈ (Layout.ofList 1 constants).toList := hmem
      rw [Layout.toList_ofList] at hmem
      obtain ⟨before, behind, rfl, rfl⟩ := (mem_zip_offsetsFrom_iff width).mp hmem
      rw [Layout.lookup_of_inside hpos (by omega) (by rw [Constant.width_of_isWide hwide]; omega)]
      rfl
    · rw [Layout.lookup_of_outside (Or.inr h)]
      rfl

end OfList

/-! ### Following indices -/

/-- An index names a text. -/
def NamesText (pool : ConstantPool) (index : UInt16) (text : String) : Prop :=
  pool.Names index (.utf8 text)

instance (pool : ConstantPool) (index : UInt16) (text : String) :
    Decidable (pool.NamesText index text) :=
  inferInstanceAs (Decidable (pool.Names index (.utf8 text)))

/-- An index names a class, and what that refers to is its name. -/
def NamesClassOf (pool : ConstantPool) (index : UInt16) (name : String) : Prop :=
  ∃ text, pool.Names index (.classRef text) ∧ pool.NamesText text name

/-- An index names a pair of references to a name and to a descriptor. -/
def NamesSignature (pool : ConstantPool) (index : UInt16) (name descriptor : String) : Prop :=
  ∃ first second, pool.Names index (.nameAndType first second) ∧ pool.NamesText first name ∧
    pool.NamesText second descriptor

/-- Two indices name the owner and the signature of a member. -/
def NamesMember (pool : ConstantPool) (owner signature : UInt16) (ref : MemberRef) : Prop :=
  pool.NamesClassOf owner ref.owner ∧ pool.NamesSignature signature ref.name ref.descriptor

def NamesField (pool : ConstantPool) (index : UInt16) (ref : MemberRef) : Prop :=
  ∃ owner signature, pool.Names index (.fieldRef owner signature) ∧
    pool.NamesMember owner signature ref

/-- Methods of classes and of interfaces alike. -/
def NamesMethod (pool : ConstantPool) (index : UInt16) (ref : MemberRef) : Prop :=
  ∃ owner signature ofInterface, pool.Names index (.methodRef owner signature ofInterface) ∧
    pool.NamesMember owner signature ref

section Queries

variable {pool : ConstantPool} {index : UInt16}

theorem utf8_eq_ok_iff {text : String} :
    pool.utf8 index = .ok text ↔ pool.get index = .ok (.utf8 text) := by
  rw [utf8, bind_eq_ok_iff]
  constructor
  · rintro ⟨constant, hconstant, h⟩
    cases constant with
    | utf8 text' =>
      obtain rfl := Except.ok.inj h
      exact hconstant
    | _ => exact absurd h (by simp [throw, throwThe, MonadExceptOf.throw])
  · intro h
    exact ⟨_, h, rfl⟩

theorem className_eq_ok_iff {name : String} : pool.className index = .ok name ↔
    ∃ text, pool.get index = .ok (.classRef text) ∧ pool.utf8 text = .ok name := by
  rw [className, bind_eq_ok_iff]
  constructor
  · rintro ⟨constant, hconstant, h⟩
    cases constant with
    | classRef text => exact ⟨text, hconstant, h⟩
    | _ => exact absurd h (by simp [throw, throwThe, MonadExceptOf.throw])
  · rintro ⟨text, hconstant, h⟩
    exact ⟨_, hconstant, h⟩

theorem nameAndType_eq_ok_iff {name descriptor : String} :
    pool.nameAndType index = .ok (name, descriptor) ↔
    ∃ first second, pool.get index = .ok (.nameAndType first second) ∧ pool.utf8 first = .ok name ∧
      pool.utf8 second = .ok descriptor := by
  rw [nameAndType, bind_eq_ok_iff]
  constructor
  · rintro ⟨constant, hconstant, h⟩
    cases constant with
    | nameAndType first second =>
      obtain ⟨name', hname, h⟩ := bind_eq_ok_iff.mp h
      obtain ⟨descriptor', hdescriptor, h⟩ := bind_eq_ok_iff.mp h
      obtain ⟨rfl, rfl⟩ := Prod.mk.inj (Except.ok.inj h)
      exact ⟨first, second, hconstant, hname, hdescriptor⟩
    | _ => exact absurd h (by simp [throw, throwThe, MonadExceptOf.throw])
  · rintro ⟨first, second, hconstant, hname, hdescriptor⟩
    exact ⟨_, hconstant, bind_eq_ok_iff.mpr ⟨_, hname, bind_eq_ok_iff.mpr ⟨_, hdescriptor, rfl⟩⟩⟩

theorem memberRef_eq_ok_iff {owner signature : UInt16} {ref : MemberRef} :
    pool.memberRef owner signature = .ok ref ↔
      pool.className owner = .ok ref.owner ∧ pool.nameAndType signature =
        .ok (ref.name, ref.descriptor) := by
  rw [memberRef, bind_eq_ok_iff]
  constructor
  · rintro ⟨⟨name, descriptor⟩, hsignature, h⟩
    obtain ⟨owner', howner, h⟩ := bind_eq_ok_iff.mp h
    obtain rfl := Except.ok.inj h
    exact ⟨howner, hsignature⟩
  · rintro ⟨howner, hsignature⟩
    exact ⟨_, hsignature, bind_eq_ok_iff.mpr ⟨_, howner, rfl⟩⟩

theorem fieldRef_eq_ok_iff {ref : MemberRef} : pool.fieldRef index = .ok ref ↔
    ∃ owner signature, pool.get index = .ok (.fieldRef owner signature) ∧
      pool.memberRef owner signature = .ok ref := by
  rw [fieldRef, bind_eq_ok_iff]
  constructor
  · rintro ⟨constant, hconstant, h⟩
    cases constant with
    | fieldRef owner signature => exact ⟨owner, signature, hconstant, h⟩
    | _ => exact absurd h (by simp [throw, throwThe, MonadExceptOf.throw])
  · rintro ⟨owner, signature, hconstant, h⟩
    exact ⟨_, hconstant, h⟩

theorem methodRef_eq_ok_iff {ref : MemberRef} : pool.methodRef index = .ok ref ↔
    ∃ owner signature ofInterface, pool.get index = .ok (.methodRef owner signature ofInterface) ∧
      pool.memberRef owner signature = .ok ref := by
  rw [methodRef, bind_eq_ok_iff]
  constructor
  · rintro ⟨constant, hconstant, h⟩
    cases constant with
    | methodRef owner signature ofInterface => exact ⟨owner, signature, ofInterface, hconstant, h⟩
    | _ => exact absurd h (by simp [throw, throwThe, MonadExceptOf.throw])
  · rintro ⟨owner, signature, ofInterface, hconstant, h⟩
    exact ⟨_, hconstant, h⟩

end Queries

/-- **The queries of a pool find the texts at the ends of its references**, and they find them
always. -/
structure Resolves (pool : ConstantPool) : Prop where
  utf8 : ∀ index text, pool.utf8 index = .ok text ↔ pool.NamesText index text
  className : ∀ index name, pool.className index = .ok name ↔ pool.NamesClassOf index name
  nameAndType : ∀ index name descriptor,
    pool.nameAndType index = .ok (name, descriptor) ↔ pool.NamesSignature index name descriptor
  fieldRef : ∀ index ref, pool.fieldRef index = .ok ref ↔ pool.NamesField index ref
  methodRef : ∀ index ref, pool.methodRef index = .ok ref ↔ pool.NamesMethod index ref

theorem resolves_of_get {pool : ConstantPool}
    (hget : ∀ index constant, pool.get index = .ok constant ↔ pool.Names index constant) :
    pool.Resolves := by
  have hutf8 : ∀ index text, pool.utf8 index = .ok text ↔ pool.NamesText index text := by
    intro index text
    rw [utf8_eq_ok_iff, hget, NamesText]
  have hclassName : ∀ index name, pool.className index = .ok name ↔
      pool.NamesClassOf index name := by
    intro index name
    simp only [className_eq_ok_iff, hget, hutf8, NamesClassOf]
  have hnameAndType : ∀ index name descriptor,
      pool.nameAndType index = .ok (name, descriptor) ↔
        pool.NamesSignature index name descriptor := by
    intro index name descriptor
    simp only [nameAndType_eq_ok_iff, hget, hutf8, NamesSignature]
  have hmemberRef : ∀ owner signature ref,
      pool.memberRef owner signature = .ok ref ↔ pool.NamesMember owner signature ref := by
    intro owner signature ref
    rw [memberRef_eq_ok_iff, hclassName, hnameAndType, NamesMember]
  refine ⟨hutf8, hclassName, hnameAndType, fun index ref => ?_, fun index ref => ?_⟩
  · simp only [fieldRef_eq_ok_iff, hget, hmemberRef, NamesField]
  · simp only [methodRef_eq_ok_iff, hget, hmemberRef, NamesMethod]

/-! ### Pools that are refused for an index -/

/-- A fault that blames no index. -/
def BlamesNoIndex (fault : Fault) : Prop := ∀ index, fault ≠ .badIndex index

theorem blamesNoIndex_endOfInput : BlamesNoIndex EndOfInput.endOfInput := by
  intro index h
  cases h

theorem faults_index : Faults readIndex BlamesNoIndex := Faults.word16 blamesNoIndex_endOfInput .big

theorem faults_utf8 : Faults readUtf8 BlamesNoIndex := by
  refine faults_index.bind fun length =>
    (Faults.take blamesNoIndex_endOfInput _).bind fun bytes => ?_
  cases Text.ModifiedUtf8.decode? bytes with
  | some text => exact .pure text
  | none => exact .throw fun index h => by cases h

theorem faults_constant (slot : Nat) : Faults (Constant.read slot) BlamesNoIndex := by
  have hbyte : Faults Reader.byte BlamesNoIndex := Faults.byte blamesNoIndex_endOfInput
  have h32 : Faults (Reader.word32 .big) BlamesNoIndex :=
    Faults.word32 blamesNoIndex_endOfInput .big
  have h64 : Faults (Reader.word64 .big) BlamesNoIndex :=
    Faults.word64 blamesNoIndex_endOfInput .big
  refine hbyte.bind fun tag => ?_
  unfold Constant.readBody
  split
  · exact faults_utf8.bind fun _ => .pure _
  · exact h32.bind fun _ => .pure _
  · exact h32.bind fun _ => .pure _
  · exact h64.bind fun _ => .pure _
  · exact h64.bind fun _ => .pure _
  all_goals first
    | exact faults_index.bind fun _ => .pure _
    | exact faults_index.bind fun _ => faults_index.bind fun _ => .pure _
    | exact hbyte.bind fun _ => faults_index.bind fun _ => .pure _
    | exact .throw fun index h => by cases h

theorem faults_readSlots (count bound : Nat) (layout : Layout Constant) :
    Faults (readSlots count bound layout) BlamesNoIndex := by
  induction bound generalizing layout with
  | zero => exact .pure layout
  | succ bound ih =>
    rw [readSlots_succ]
    by_cases hroom : layout.stop < count
    · rw [if_pos hroom]
      exact (faults_constant layout.stop).bind fun constant => ih _
    · rw [if_neg hroom]
      exact .pure layout

open Format

/-- The entries that cover the slots of a pool all begin below its count. -/
theorem lt_count_of_covers {count slot : Nat} {before behind : List Entry} {entry : Entry}
    (h : Covers count slot (before ++ entry :: behind)) :
    slot + totalSize Entry.slots before < count := by
  induction before generalizing slot with
  | nil =>
    cases h with
    | more h _ => exact h
  | cons first before ih =>
    cases h with
    | more _ hrest =>
      have hlt := ih hrest
      rw [totalSize_cons]
      omega

/-- The last of the entries that cover slots begins below the count and ends at it or behind it. -/
theorem covers_concat {count slot : Nat} {entries : List Entry} {last : Entry}
    (hlow : slot + totalSize Entry.slots entries < count)
    (hhigh : count ≤ slot + totalSize Entry.slots (entries ++ [last])) :
    Covers count slot (entries ++ [last]) := by
  induction entries generalizing slot with
  | nil => exact .more hlow (.full (by simpa using hhigh))
  | cons entry entries ih =>
    rw [List.cons_append, totalSize_cons] at hhigh
    rw [totalSize_cons] at hlow
    exact .more (by omega) (ih (by omega) (by omega))

/-- The count is zero, or all constants that begin below it are there, and the last of them ends
behind it. -/
def Overflows (count : UInt16) (bs : Bytes) : Prop :=
  (count = 0 ∧ ∃ rest, bs = word16 count ++ rest) ∨
  ∃ entries last rest, bs = word16 count ++ ((entries ++ [last]).flatMap Entry.encode ++ rest) ∧
    1 + totalSize Entry.slots entries < count.toNat ∧
    count.toNat < 1 + totalSize Entry.slots (entries ++ [last])

/-- Reading constants that cover the slots turns on where the last one ends. -/
theorem read_of_covers {count : UInt16} {entries : List Entry} (h : Covers count.toNat 1 entries)
    (rest : Bytes) :
    read (word16 count ++ (entries.flatMap Entry.encode ++ rest)) =
      if count.toNat < 1 + totalSize Entry.slots entries then .error (.badIndex count)
      else .ok (⟨Layout.ofList 1 (entries.map Entry.constant)⟩, rest) := by
  have hslots : readSlots count.toNat count.toNat (Layout.startingAt 1)
      (entries.flatMap Entry.encode ++ rest) =
      .ok (Layout.ofList 1 (entries.map Entry.constant), rest) :=
    readSlots_of_covers (Nat.le_of_lt_succ count.toNat_lt) h (Nat.le_add_left _ _)
  rw [read, Reader.bind_of_ok ((reads_index count).whole _), Reader.bind_of_ok hslots]
  dsimp only
  rw [stop_ofList]
  by_cases hspill : count.toNat < 1 + totalSize Entry.slots entries
  · rw [if_pos hspill, if_pos hspill]
    rfl
  · rw [if_neg hspill, if_neg hspill]
    rfl

/-- **Either a constant cannot be read, or all of them are there that cover the slots.** -/
theorem read_cases (bs : Bytes) : (∃ fault, read bs = .error fault ∧ BlamesNoIndex fault) ∨
    ∃ (count : UInt16) (entries : List Entry) (rest : Bytes),
      bs = word16 count ++ (entries.flatMap Entry.encode ++ rest) ∧
        Covers count.toNat 1 entries := by
  cases hcount : readIndex bs with
  | error fault =>
    refine Or.inl ⟨fault, ?_, faults_index bs fault hcount⟩
    rw [read, Reader.bind_of_error hcount]
  | ok found =>
    obtain ⟨count, middle⟩ := found
    obtain ⟨s, rfl, rfl⟩ := returns_index bs count middle hcount
    cases hslots : readSlots count.toNat count.toNat (Layout.startingAt 1) middle with
    | error fault =>
      refine Or.inl ⟨fault, ?_, faults_readSlots _ _ _ _ fault hslots⟩
      rw [read, Reader.bind_of_ok hcount, Reader.bind_of_error hslots]
    | ok slots =>
      obtain ⟨layout, rest⟩ := slots
      obtain ⟨entries, hcovers, rfl, -⟩ :=
        exists_covers_of_readSlots (Nat.le_of_lt_succ count.toNat_lt) hslots (Nat.le_add_left _ _)
      exact Or.inr ⟨count, entries, rest, rfl, hcovers⟩

/-- **A pool is refused for an index just when its last constant does not end where its count
says.** -/
theorem read_eq_badIndex_iff {bs : Bytes} {count : UInt16} :
    read bs = .error (.badIndex count) ↔ Overflows count bs := by
  constructor
  · intro h
    rcases read_cases bs with ⟨fault, hfault, hblames⟩ | ⟨count', entries, rest, rfl, hcovers⟩
    · rw [hfault] at h
      exact absurd (Except.error.inj h) (hblames count)
    · rw [read_of_covers hcovers] at h
      by_cases hspill : count'.toNat < 1 + totalSize Entry.slots entries
      · rw [if_pos hspill] at h
        obtain rfl := Fault.badIndex.inj (Except.error.inj h)
        rcases List.eq_nil_or_concat' entries with rfl | ⟨front, last, rfl⟩
        · -- Without a constant, the first slot is already behind the end.
          have hzero : count'.toNat = 0 := by
            rw [totalSize_nil] at hspill
            omega
          exact Or.inl ⟨UInt16.toNat_inj.mp hzero, rest, rfl⟩
        · exact Or.inr ⟨front, last, rest, rfl, lt_count_of_covers hcovers, hspill⟩
      · rw [if_neg hspill] at h
        exact absurd h (by simp)
  · rintro (⟨rfl, rest, rfl⟩ | ⟨entries, last, rest, rfl, hlow, hhigh⟩)
    · -- A count of zero leaves no slot, but a pool ends at slot 1 at the earliest.
      have hnone : Covers (0 : UInt16).toNat 1 [] := .full (by decide)
      exact read_of_covers hnone rest
    · rw [read_of_covers (covers_concat hlow (Nat.le_of_lt hhigh)), if_pos hhigh]

/-- The constants of a pool that is read end where its count says. -/
theorem exists_entries_of_read {bs rest : Bytes} {pool : ConstantPool}
    (h : read bs = .ok (pool, rest)) :
    ∃ (count : UInt16) (entries : List Entry), bs =
      word16 count ++ (entries.flatMap Entry.encode ++ rest) ∧
      count.toNat = 1 + totalSize width (entries.map Entry.constant) ∧
      pool = ⟨Layout.ofList 1 (entries.map Entry.constant)⟩ := by
  obtain ⟨s, rfl, entries, hle, rfl, rfl⟩ := returns_constants bs pool rest h
  refine ⟨UInt16.ofNat (totalSize Entry.slots entries + 1), entries, ?_, ?_, rfl⟩
  · rw [File.encodeConstants, List.append_assoc]
  · rw [UInt16.toNat_ofNat', Nat.mod_eq_of_lt (by omega), Entry.totalSize_constants, Nat.add_comm]

/-- **The slots of a constant pool are exact.** A pool that is read has at least the count of one,
and its constants fill the slots from 1 up to the count. An index gets the constant that is listed
for it; it is refused as a bad index if it is zero, if it is the second half of a wide constant, and
if it is not below the count. Queries find just the texts that are reached through constants of the
right kinds. A pool is refused for an index just when all constants below its count are there, but
the last one reaches past it, or the count is zero. -/
theorem slots_exact (bs : Bytes) :
    (∀ pool rest, read bs = .ok (pool, rest) → ∃ (count : UInt16) (entries : List Entry),
      bs = word16 count ++ (entries.flatMap Entry.encode ++ rest) ∧
      pool.toList.map Prod.snd = entries.map Entry.constant ∧
      1 ≤ count.toNat ∧ Fills 1 pool.toList count.toNat ∧
        (pool.toList.map Prod.fst).Pairwise (· < ·) ∧
      (∀ index constant, pool.get index = .ok constant ↔ pool.Names index constant) ∧
      (∀ index, pool.get index = .error (.badIndex index) ↔
        index = 0 ∨ pool.SecondHalf index ∨ count.toNat ≤ index.toNat) ∧
      pool.Resolves) ∧
    ∀ count, read bs = .error (.badIndex count) ↔ Overflows count bs := by
  refine ⟨fun pool rest h => ?_, fun count => read_eq_badIndex_iff⟩
  obtain ⟨count, entries, hbs, hcount, rfl⟩ := exists_entries_of_read h
  have hfills :
      Fills 1 (⟨Layout.ofList 1 (entries.map Entry.constant)⟩ : ConstantPool).toList
        count.toNat := by
    rw [hcount, toList, Layout.toList_ofList]
    exact fills_zip_offsetsFrom 1 _
  refine ⟨count, entries, hbs, ?_, by omega, hfills, hfills.pairwise,
    fun index constant => get_ofList_eq_ok_iff, fun index => ?_,
    resolves_of_get fun index constant => get_ofList_eq_ok_iff⟩
  · rw [toList, Layout.toList_ofList, List.map_snd_zip (by simp)]
  · rw [hcount]
    exact get_ofList_eq_error_iff

/-- The constants of the sample file have the long one at slot 3. With a count of 7 they are a pool,
in which slot 5 refers to a method; with a count of 4 there is room for the first half of the long
one only. -/
theorem sampleConstants_slots_exact : ∃ pool,
    read (File.encodeConstants sampleFile.constants ++ [9]) = .ok (pool, [9]) ∧
      Fills 1 pool.toList 7 ∧
    pool.get 4 = .error (.badIndex 4) ∧ pool.get 7 = .error (.badIndex 7) ∧
    pool.methodRef 5 = .ok ⟨"A", "A", "A"⟩ ∧
    read (word16 4 ++ sampleFile.constants.flatMap Entry.encode) = .error (.badIndex 4) := by
  have hread := (reads_constants sampleFile.slots_le).whole [9]
  obtain ⟨count, entries, hbs, -, -, hfills, -, -, hbad, hresolves⟩ := (slots_exact _).1 _ _ hread
  have hcount : count = 7 := by
    have hfirst := (reads_index count).whole (entries.flatMap Entry.encode ++ [9])
    rw [← hbs] at hfirst
    exact (Prod.mk.inj (Except.ok.inj (hfirst.symm.trans ((reads_index 7).whole _)))).1
  subst hcount
  refine ⟨_, hread, hfills, (hbad 4).mpr ?_, (hbad 7).mpr ?_, (hresolves.methodRef 5 _).mpr ?_, ?_⟩
  · exact Or.inr (Or.inl ⟨3, .long 42, by decide, Or.inl ⟨42, rfl⟩, rfl⟩)
  · exact Or.inr (Or.inr (by decide))
  · exact ⟨2, 6, true, by decide, ⟨1, by decide, by decide⟩, 1, 1, by decide, by decide, by decide⟩
  · refine ((slots_exact _).2 4).mpr (Or.inr ⟨sampleFile.constants.take 2, .long 42, ?_, ?_,
      by decide, by decide⟩)
    · exact (sampleFile.constants.drop 3).flatMap Entry.encode
    · rfl

end ConstantPool

end ClassFile

end ClassImage
