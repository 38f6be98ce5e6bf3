import ClassImage.Interned
import ClassImage.Image.Basic
import ClassImage.Conversion.Error

/-!
# The tables of an image under construction

Names, constants and members are interned while a class is converted. A checkpoint remembers the
sizes of the three tables; rolling back to it forgets all that was added since.
-/

namespace ClassImage.Image

/-- A number that tells constants apart; floating point numbers count by their bits. -/
def Constant.key : Constant → Nat
  | int value => 5 * value.toUInt32.toNat
  | float bits => 5 * bits.toNat + 1
  | long value => 5 * value.toUInt64.toNat + 2
  | double bits => 5 * bits.toNat + 3
  | string name => 5 * name.toNat + 4

instance : Ord Constant := ⟨compareOn Constant.key⟩

/-- A number that tells members apart. -/
def Member.key (member : Member) : Nat := 0x10000 * member.name.toNat + member.descriptor.toNat

instance : Ord Member := ⟨compareOn Member.key⟩

/-- The names, constants and members of an image. -/
structure Pool where
  names : Interned String
  constants : Interned Constant
  members : Interned Member

/-- The sizes of the tables at some point. -/
structure Checkpoint where
  names : Nat
  constants : Nat
  members : Nat
deriving DecidableEq, Repr

namespace Pool

open Conversion (Error TableName)

/-- The tables without entries. -/
def empty : Pool := ⟨.empty, .empty, .empty⟩

/-- The error of a full table. -/
def overflow (table : TableName) : Error := .unsupported (.tableOverflow table)

/-- Interns a name. -/
def internName (pool : Pool) (name : String) : Except Error NameIndex × Pool :=
  match pool with
  | ⟨names, constants, members⟩ =>
    match names.intern name with
    | (some i, names) => (.ok i, ⟨names, constants, members⟩)
    | (none, names) => (.error (overflow .name), ⟨names, constants, members⟩)

/-- Interns a constant. -/
def internConstant (pool : Pool) (constant : Constant) : Except Error ConstantIndex × Pool :=
  match pool with
  | ⟨names, constants, members⟩ =>
    match constants.intern constant with
    | (some i, constants) => (.ok i, ⟨names, constants, members⟩)
    | (none, constants) => (.error (overflow .constant), ⟨names, constants, members⟩)

/-- Adds a member that is made of interned names. -/
def addMember (pool : Pool) (member : Member) : Except Error MemberIndex × Pool :=
  match pool with
  | ⟨names, constants, members⟩ =>
    match members.intern member with
    | (some i, members) => (.ok i, ⟨names, constants, members⟩)
    | (none, members) => (.error (overflow .member), ⟨names, constants, members⟩)

/-- Interns a text as a name and then the string constant of it. -/
def internString (pool : Pool) (text : String) : Except Error ConstantIndex × Pool :=
  match pool.internName text with
  | (.error e, pool) => (.error e, pool)
  | (.ok name, pool) => pool.internConstant (.string name)

/-- Interns a name, a descriptor and then the member of both. -/
def internMember (pool : Pool) (name descriptor : String) : Except Error MemberIndex × Pool :=
  match pool.internName name with
  | (.error e, pool) => (.error e, pool)
  | (.ok name, pool) =>
    match pool.internName descriptor with
    | (.error e, pool) => (.error e, pool)
    | (.ok descriptor, pool) => pool.addMember { name, descriptor }

/-- The sizes of the tables. -/
def checkpoint (pool : Pool) : Checkpoint :=
  ⟨pool.names.size, pool.constants.size, pool.members.size⟩

/-- Forgets the entries that were added after a checkpoint. -/
def rollback (pool : Pool) (mark : Checkpoint) : Pool :=
  ⟨pool.names.truncate mark.names, pool.constants.truncate mark.constants,
    pool.members.truncate mark.members⟩

end Pool

end ClassImage.Image
