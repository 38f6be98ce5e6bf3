import ClassImage.Proofs.Rollback

/-!
# What the tables of a class hold

The tables are followed through all commands, whatever they are: their values stay distinct and
their search trees stay their inverses (`Reached.wellFormed`), a request is refused exactly if it
needs a place in a table that is full (`fails_run_iff`), and an entry stays until it is rolled back
(`WellFormed.retains`).

Strings and members refer to names by their indices, and nothing in the tables keeps such an index
from leading nowhere: a string constant can be asked for with any index, and rolling back to a
checkpoint that was closed cuts the tables at lengths that they never had at the same time. The two
are what `Referring` and `Nested` exclude. Otherwise every open checkpoint is one at which no
reference led beyond it (`Orderly`), so no reference is cut off.
-/

namespace ClassImage

/-! ### Single tables -/

namespace Interned

variable {α : Type}

/-- A value needs a new place in a table that has none left. -/
def NeedsRoom (values : List α) (a : α) : Prop := a ∉ values ∧ values.length = 65535

/-- The values and one more, if it is not among them. -/
def withValue [DecidableEq α] (values : List α) (a : α) : List α :=
  if a ∈ values then values else values ++ [a]

/-- The index that a value has, or that it is given when it is added at the end. -/
def numberIn [DecidableEq α] (values : List α) (a : α) : UInt16 := UInt16.ofNat (values.idxOf a)

variable [Ord α]

/-- A table holds distinct values, no more than there are indices for, and its search tree is its
inverse. -/
structure Faithful (table : Interned α) : Prop where
  nodup : table.toList.Nodup
  length_le : table.toList.length ≤ 65535
  inverse : ∀ (a : α) (i : UInt16), table.indexOf? a = some i ↔ table.toList[i.toNat]? = some a

namespace WellFormed

variable {table : Interned α} {a : α}

theorem faithful (h : table.WellFormed) : table.Faithful where
  nodup := h.nodup
  length_le := by
    rw [length_toList]
    exact h.size_le
  inverse a i := by
    rw [getElem?_toList]
    exact h.index_iff a i

theorem mem_of_index (h : table.WellFormed) {i : UInt16} (hi : table.index[a]? = some i) :
    table.toList[i.toNat]? = some a := by
  rw [getElem?_toList]
  exact (h.index_iff a i).mp hi

theorem not_mem_of_index (h : table.WellFormed) (hnone : table.index[a]? = none) :
    a ∉ table.toList := by
  intro hmem
  obtain ⟨i, hi⟩ := List.mem_iff_getElem?.mp hmem
  have hfound := h.indexOf?_eq hi
  rw [indexOf?, hnone] at hfound
  simp at hfound

/-- **A value is refused exactly if it is new and the table is full.** -/
theorem intern_eq_none_iff (h : table.WellFormed) (a : α) :
    (table.intern a).1 = none ↔ NeedsRoom table.toList a := by
  have hle := h.size_le
  rw [NeedsRoom, length_toList]
  cases hfind : table.index[a]? with
  | some i =>
    have hmem := List.mem_of_getElem? (h.mem_of_index hfind)
    rw [intern_of_known hfind]
    simp [hmem]
  | none =>
    have hnew := h.not_mem_of_index hfind
    by_cases hroom : table.size < capacity
    · have hne : table.size ≠ 65535 := Nat.ne_of_lt hroom
      rw [intern_of_new hfind hroom]
      simp [hne]
    · have hfull : table.size = 65535 := Nat.le_antisymm hle (Nat.le_of_not_lt hroom)
      rw [intern_of_full hfind (Nat.le_of_not_lt hroom)]
      simp [hnew, hfull]

/-- A value that is not refused gets the index of its place, and is then in the table. -/
theorem eq_of_intern [DecidableEq α] (h : table.WellFormed) {i : UInt16}
    (hi : (table.intern a).1 = some i) :
    i = numberIn table.toList a ∧ (table.intern a).2.toList = withValue table.toList a := by
  cases hfind : table.index[a]? with
  | some j =>
    rw [intern_of_known hfind] at hi ⊢
    obtain rfl := Option.some.inj hi
    have hget := h.mem_of_index hfind
    obtain ⟨hlt, hat⟩ := List.getElem?_eq_some_iff.mp hget
    have hplace := h.nodup.idxOf_getElem j.toNat hlt
    rw [hat] at hplace
    rw [numberIn, hplace, UInt16.ofNat_toNat, withValue, if_pos (List.mem_of_getElem? hget)]
    exact ⟨rfl, rfl⟩
  | none =>
    have hnew := h.not_mem_of_index hfind
    by_cases hroom : table.size < capacity
    · rw [intern_of_new hfind hroom] at hi ⊢
      obtain rfl := Option.some.inj hi
      rw [numberIn, List.idxOf_eq_length hnew, length_toList, withValue, if_neg hnew]
      exact ⟨rfl, Array.toList_push ..⟩
    · rw [intern_of_full hfind (Nat.le_of_not_lt hroom)] at hi
      simp at hi

end WellFormed

end Interned

namespace Image.Pool

open Conversion (Error found eq_some_of_found)
open Interned (withValue numberIn)

variable {α β : Type} {pool pool' : Pool}

/-! ### Requests that are refused -/

/-- Some request in the sequence that a request is made of needs a place in a table that is full. -/
def Request.NeedsRoom (pool : Pool) : Request → Prop
  | .name text => Interned.NeedsRoom pool.names.toList text
  | .constant value => Interned.NeedsRoom pool.constants.toList value
  | .string text => Interned.NeedsRoom pool.names.toList text ∨
    Interned.NeedsRoom pool.constants.toList (.string (numberIn pool.names.toList text))
  | .member text descriptor => Interned.NeedsRoom pool.names.toList text ∨
    Interned.NeedsRoom (withValue pool.names.toList text) descriptor ∨
    Interned.NeedsRoom pool.members.toList
      ⟨numberIn pool.names.toList text, numberIn (withValue pool.names.toList text) descriptor⟩

def Fails (result : Except Error α × Pool) : Prop := ∃ e, result.1 = .error e

theorem fails_found_iff {full : Error} {index : Option UInt16} {pool : Pool} :
    Fails (found full index, pool) ↔ index = none := by
  cases index <;> simp [Fails, found]

/-- Two requests in a row fail if the first one does, or the second one where the first has
succeeded. -/
theorem fails_andThen_iff {result : Except Error α × Pool} {next : α → Pool → Except Error β × Pool}
    {P Q : Prop} (hfirst : Fails result ↔ P)
    (hnext : ∀ a, result.1 = .ok a → (Fails (next a result.2) ↔ Q)) :
    Fails (andThen result next) ↔ P ∨ Q := by
  obtain ⟨answer, pool⟩ := result
  cases answer with
  | error e =>
    have hfails : Fails ((.error e : Except Error α), pool) := ⟨e, rfl⟩
    exact iff_of_true ⟨e, rfl⟩ (Or.inl (hfirst.mp hfails))
  | ok a =>
    have hokay : ¬ P := by
      intro hp
      obtain ⟨e, he⟩ := hfirst.mpr hp
      simp at he
    rw [or_iff_right hokay]
    exact hnext a rfl

namespace WellFormed

theorem fails_internName_iff (h : pool.WellFormed) (text : String) :
    Fails (pool.internName text) ↔ Interned.NeedsRoom pool.names.toList text := by
  rw [internName_eq, fails_found_iff, h.names.intern_eq_none_iff]

theorem fails_internConstant_iff (h : pool.WellFormed) (constant : Constant) :
    Fails (pool.internConstant constant) ↔ Interned.NeedsRoom pool.constants.toList constant := by
  rw [internConstant_eq, fails_found_iff, h.constants.intern_eq_none_iff]

theorem fails_addMember_iff (h : pool.WellFormed) (member : Member) :
    Fails (pool.addMember member) ↔ Interned.NeedsRoom pool.members.toList member := by
  rw [addMember_eq, fails_found_iff, h.members.intern_eq_none_iff]

/-- What a name that was interned is told by, and the tables after it. -/
theorem eq_of_internName (h : pool.WellFormed) {text : String} {name : UInt16}
    (hok : (pool.internName text).1 = .ok name) : name = numberIn pool.names.toList text ∧
      (pool.internName text).2.names.toList = withValue pool.names.toList text ∧
      (pool.internName text).2.constants = pool.constants ∧
      (pool.internName text).2.members = pool.members := by
  rw [internName_eq] at hok ⊢
  obtain ⟨hname, hnames⟩ := h.names.eq_of_intern (eq_some_of_found hok)
  exact ⟨hname, hnames, rfl, rfl⟩

/-- **A request fails exactly if it needs a place in a full table.** -/
theorem fails_run_iff (h : pool.WellFormed) (request : Request) :
    Fails (request.run pool) ↔ request.NeedsRoom pool := by
  cases request with
  | name text => exact h.fails_internName_iff text
  | constant value => exact h.fails_internConstant_iff value
  | string text =>
    rw [Request.run, internString_eq]
    refine fails_andThen_iff (h.fails_internName_iff text) fun name hname => ?_
    obtain ⟨rfl, -, hconstants, -⟩ := h.eq_of_internName hname
    rw [(h.enters_internName text).1.fails_internConstant_iff, hconstants]
  | member text descriptor =>
    rw [Request.run, internMember_eq]
    refine fails_andThen_iff (h.fails_internName_iff text) fun name hname => ?_
    have hformed := (h.enters_internName text).1
    obtain ⟨rfl, hnames, -, hmembers⟩ := h.eq_of_internName hname
    refine fails_andThen_iff ?_ fun second hsecond => ?_
    · rw [hformed.fails_internName_iff, hnames]
    · obtain ⟨rfl, -, -, hmembers'⟩ := hformed.eq_of_internName hsecond
      rw [(hformed.enters_internName descriptor).1.fails_addMember_iff, hmembers', hmembers, hnames]

end WellFormed

/-! ### What is found -/

/-- What was asked for stands at an index. -/
def Request.Holds (pool : Pool) (i : UInt16) : Request → Prop
  | .name text => pool.names.get? i = some text
  | .constant value => pool.constants.get? i = some value
  | .string text => ∃ name, pool.constants.get? i = some (.string name) ∧
      pool.names.get? name = some text
  | .member text descriptor => ∃ member, pool.members.get? i = some member ∧
    pool.names.get? member.name = some text ∧ pool.names.get? member.descriptor = some descriptor

theorem get?_of_prefix {α : Type} [Ord α] {table table' : Interned α}
    (h : table.toList <+: table'.toList) {i : UInt16} {a : α} (hi : table.get? i = some a) :
    table'.get? i = some a := by
  rw [Interned.get?, ← Interned.getElem?_toList] at hi ⊢
  exact getElem?_extends h hi

theorem ok_of_andThen {result : Except Error α × Pool} {next : α → Pool → Except Error β × Pool}
    {b : β} (h : (andThen result next).1 = .ok b) :
    ∃ a, result.1 = .ok a ∧ andThen result next = next a result.2 := by
  obtain ⟨answer, pool⟩ := result
  cases answer with
  | error e => exact absurd h (by simp [andThen])
  | ok a => exact ⟨a, rfl, rfl⟩

namespace WellFormed

theorem get?_internName (h : pool.WellFormed) {text : String} {i : UInt16}
    (hok : (pool.internName text).1 = .ok i) :
    (pool.internName text).2.names.get? i = some text ∧ i.toNat < 0xFFFF := by
  rw [internName_eq] at hok ⊢
  obtain ⟨hat, hlt⟩ := (Interned.intern_spec h.names text).at_index i (eq_some_of_found hok)
  exact ⟨by rwa [Interned.getElem?_toList] at hat, hlt⟩

theorem get?_internConstant (h : pool.WellFormed) {constant : Constant} {i : UInt16}
    (hok : (pool.internConstant constant).1 = .ok i) :
    (pool.internConstant constant).2.constants.get? i = some constant ∧ i.toNat < 0xFFFF := by
  rw [internConstant_eq] at hok ⊢
  obtain ⟨hat, hlt⟩ := (Interned.intern_spec h.constants constant).at_index i (eq_some_of_found hok)
  exact ⟨by rwa [Interned.getElem?_toList] at hat, hlt⟩

theorem get?_addMember (h : pool.WellFormed) {member : Member} {i : UInt16}
    (hok : (pool.addMember member).1 = .ok i) :
    (pool.addMember member).2.members.get? i = some member ∧ i.toNat < 0xFFFF := by
  rw [addMember_eq] at hok ⊢
  obtain ⟨hat, hlt⟩ := (Interned.intern_spec h.members member).at_index i (eq_some_of_found hok)
  exact ⟨by rwa [Interned.getElem?_toList] at hat, hlt⟩

/-- **A request that succeeds returns where the value stands**, and never the index that is
reserved. -/
theorem holds_run (h : pool.WellFormed) {request : Request} {i : UInt16}
    (hok : (request.run pool).1 = .ok i) :
    request.Holds (request.run pool).2 i ∧ i.toNat < 0xFFFF := by
  cases request with
  | name text => exact h.get?_internName hok
  | constant value => exact h.get?_internConstant hok
  | string text =>
    rw [Request.run, internString_eq] at hok ⊢
    obtain ⟨name, hname, hrun⟩ := ok_of_andThen hok
    rw [hrun] at hok ⊢
    have hformed := (h.enters_internName text).1
    obtain ⟨hconstant, hlt⟩ := hformed.get?_internConstant hok
    have hgrows := (hformed.enters_internConstant (.string name)).2
    exact ⟨⟨name, hconstant, get?_of_prefix hgrows.names (h.get?_internName hname).1⟩, hlt⟩
  | member text descriptor =>
    rw [Request.run, internMember_eq] at hok ⊢
    obtain ⟨name, hname, hrun⟩ := ok_of_andThen hok
    rw [hrun] at hok ⊢
    obtain ⟨second, hsecond, hrun⟩ := ok_of_andThen hok
    rw [hrun] at hok ⊢
    have hformed := (h.enters_internName text).1
    have hformed' := (hformed.enters_internName descriptor).1
    obtain ⟨hmember, hlt⟩ := hformed'.get?_addMember hok
    have hgrows := (hformed.enters_internName descriptor).2
    have hgrows' := (hformed'.enters_addMember ⟨name, second⟩).2
    have htext := get?_of_prefix (hgrows.trans hgrows').names (h.get?_internName hname).1
    have hdescriptor := get?_of_prefix hgrows'.names (hformed.get?_internName hsecond).1
    exact ⟨⟨_, hmember, htext, hdescriptor⟩, hlt⟩

end WellFormed

theorem get?_truncate {α : Type} [Ord α] {table : Interned α} {n : Nat} {i : UInt16} {a : α} :
    (table.truncate n).get? i = some a ↔ i.toNat < n ∧ table.get? i = some a := by
  rw [Interned.get?, ← Interned.getElem?_toList, Interned.toList_truncate,
    List.getElem?_take, Interned.get?, ← Interned.getElem?_toList]
  by_cases hi : i.toNat < n <;> simp [hi]

/-- The entries that no rollback among the commands takes away stay where they are. -/
structure Retains (pool : Pool) (commands : List Command) : Prop where
  names : ∀ i text, (∀ mark, .rollback mark ∈ commands → i.toNat < mark.names) →
    pool.names.get? i = some text → (pool.after commands).names.get? i = some text
  constants : ∀ i value, (∀ mark, .rollback mark ∈ commands → i.toNat < mark.constants) →
    pool.constants.get? i = some value → (pool.after commands).constants.get? i = some value
  members : ∀ i member, (∀ mark, .rollback mark ∈ commands → i.toNat < mark.members) →
    pool.members.get? i = some member → (pool.after commands).members.get? i = some member

/-- A table whose entries requests keep, and rollbacks cut off from some length on. -/
theorem WellFormed.get?_after {α : Type} [Ord α] (h : pool.WellFormed) {table : Pool → Interned α}
    {length : Checkpoint → Nat}
    (hgrows : ∀ pool pool' : Pool, pool.Extends pool' →
      (table pool).toList <+: (table pool').toList)
    (hcut : ∀ (pool : Pool) mark, table (pool.rollback mark) = (table pool).truncate (length mark))
    {commands : List Command} {i : UInt16} {a : α}
    (hkept : ∀ mark, .rollback mark ∈ commands → i.toNat < length mark)
    (hi : (table pool).get? i = some a) :
    (table (pool.after commands)).get? i = some a := by
  induction commands generalizing pool with
  | nil => exact hi
  | cons command rest ih =>
    refine ih (h.command command) (fun mark hmark => hkept mark (List.mem_cons_of_mem _ hmark)) ?_
    cases command with
    | request request => exact get?_of_prefix (hgrows _ _ (h.enters request).2) hi
    | checkpoint => exact hi
    | rollback mark =>
      rw [Command.run, hcut, get?_truncate]
      exact ⟨hkept mark List.mem_cons_self, hi⟩

/-- **Entries stay until they are rolled back.** -/
theorem WellFormed.retains (h : pool.WellFormed) (commands : List Command) :
    pool.Retains commands where
  names _ _ := h.get?_after (fun _ _ hextends => hextends.names) fun _ _ => rfl
  constants _ _ := h.get?_after (fun _ _ hextends => hextends.constants) fun _ _ => rfl
  members _ _ := h.get?_after (fun _ _ hextends => hextends.members) fun _ _ => rfl

/-! ### References -/

/-- Strings and members refer to names that there are. -/
structure Closed (pool : Pool) : Prop where
  strings : ∀ name, Constant.string name ∈ pool.constants.toList →
    name.toNat < pool.names.toList.length
  members : ∀ member ∈ pool.members.toList, member.name.toNat < pool.names.toList.length ∧
    member.descriptor.toNat < pool.names.toList.length

/-- No reference leads beyond a checkpoint from before it. -/
structure ClosedAt (pool : Pool) (mark : Checkpoint) : Prop where
  strings : ∀ i < mark.constants, ∀ name, pool.constants.toList[i]? = some (.string name) →
    name.toNat < mark.names
  members : ∀ i < mark.members, ∀ member, pool.members.toList[i]? = some member →
    member.name.toNat < mark.names ∧ member.descriptor.toNat < mark.names

theorem Closed.closedAt (h : pool.Closed) : pool.ClosedAt pool.checkpoint := by
  refine ⟨fun i _ name hi => ?_, fun i _ member hi => ?_⟩
  · have hlt := h.strings name (List.mem_of_getElem? hi)
    rwa [Interned.length_toList] at hlt
  · have hlt := h.members member (List.mem_of_getElem? hi)
    rwa [Interned.length_toList] at hlt

theorem ClosedAt.closed (h : pool.ClosedAt pool.checkpoint) : pool.Closed := by
  refine ⟨fun name hmem => ?_, fun member hmem => ?_⟩ <;> rw [Interned.length_toList]
  · obtain ⟨i, hi⟩ := List.mem_iff_getElem?.mp hmem
    have hlt := (List.getElem?_eq_some_iff.mp hi).1
    rw [Interned.length_toList] at hlt
    exact h.strings i hlt name hi
  · obtain ⟨i, hi⟩ := List.mem_iff_getElem?.mp hmem
    have hlt := (List.getElem?_eq_some_iff.mp hi).1
    rw [Interned.length_toList] at hlt
    exact h.members i hlt member hi

/-- What there was at a checkpoint stays closed when the tables grow. -/
theorem ClosedAt.mono {mark : Checkpoint} (h : pool.ClosedAt mark) (hmark : mark ≤ pool.checkpoint)
    (hextends : pool.Extends pool') : pool'.ClosedAt mark := by
  have hold : ∀ {α : Type} {as bs : List α} {i : Nat}, as <+: bs → i < as.length →
      bs[i]? = as[i]? := by
    intro α as bs i hprefix hi
    obtain ⟨rest, rfl⟩ := hprefix
    exact List.getElem?_append_left hi
  obtain ⟨-, hconstants, hmembers⟩ := hmark
  rw [Pool.checkpoint, ← Interned.length_toList] at hconstants hmembers
  refine ⟨fun i hi name hname => ?_, fun i hi member hmember => ?_⟩
  · rw [hold hextends.constants (Nat.lt_of_lt_of_le hi hconstants)] at hname
    exact h.strings i hi name hname
  · rw [hold hextends.members (Nat.lt_of_lt_of_le hi hmembers)] at hmember
    exact h.members i hi member hmember

/-- What there was at a checkpoint stays closed when a later one is rolled back to. -/
theorem ClosedAt.rollback {mark mark' : Checkpoint} (h : pool.ClosedAt mark) (hle : mark ≤ mark') :
    (pool.rollback mark').ClosedAt mark := by
  obtain ⟨-, hconstants, hmembers⟩ := hle
  refine ⟨fun i hi name hname => ?_, fun i hi member hmember => ?_⟩
  · rw [Pool.rollback, Interned.toList_truncate,
      List.getElem?_take_of_lt (Nat.lt_of_lt_of_le hi hconstants)] at hname
    exact h.strings i hi name hname
  · rw [Pool.rollback, Interned.toList_truncate,
      List.getElem?_take_of_lt (Nat.lt_of_lt_of_le hi hmembers)] at hmember
    exact h.members i hi member hmember

/-- The name that a command refers to by its index. -/
def Command.reference? : Command → Option NameIndex
  | .request (.constant (.string name)) => some name
  | _ => none

/-- A string constant that is asked for as such refers to one of the names. -/
def Command.Refers (pool : Pool) (command : Command) : Prop :=
  ∀ name ∈ command.reference?, name.toNat < pool.names.toList.length

instance (pool : Pool) (command : Command) : Decidable (command.Refers pool) :=
  Option.decidableForallMem command.reference?

/-- All string constants that are asked for as such refer to one of the names of that moment. -/
def Referring (pool : Pool) : List Command → Prop
  | [] => True
  | command :: rest => command.Refers pool ∧ Referring (command.run pool).2 rest

instance decidableReferring :
    ∀ (pool : Pool) (commands : List Command), Decidable (Referring pool commands)
  | _, [] => isTrue trivial
  | pool, command :: rest =>
    have := decidableReferring (command.run pool).2 rest
    inferInstanceAs (Decidable (_ ∧ _))

namespace Closed

theorem internName (h : pool.Closed) (hformed : pool.WellFormed) (text : String) :
    (pool.internName text).2.Closed := by
  have hle := (hformed.enters_internName text).2.names.length_le
  rw [internName_eq] at hle ⊢
  refine ⟨fun name hname => Nat.lt_of_lt_of_le (h.strings name hname) hle, fun member hmember => ?_⟩
  obtain ⟨hlt, hlt'⟩ := h.members member hmember
  exact ⟨Nat.lt_of_lt_of_le hlt hle, Nat.lt_of_lt_of_le hlt' hle⟩

theorem internConstant (h : pool.Closed) (hformed : pool.WellFormed) {constant : Constant}
    (hrefers : ∀ name, constant = .string name → name.toNat < pool.names.toList.length) :
    (pool.internConstant constant).2.Closed := by
  rw [internConstant_eq]
  refine ⟨fun name hname => ?_, h.members⟩
  rcases (Interned.intern_spec hformed.constants constant).mem hname with hold | hnew
  · exact h.strings name hold
  · exact hrefers name hnew.symm

theorem addMember (h : pool.Closed) (hformed : pool.WellFormed) {member : Member}
    (hname : member.name.toNat < pool.names.toList.length)
    (hdescriptor : member.descriptor.toNat < pool.names.toList.length) :
    (pool.addMember member).2.Closed := by
  rw [addMember_eq]
  refine ⟨h.strings, fun other hother => ?_⟩
  rcases (Interned.intern_spec hformed.members member).mem hother with hold | rfl
  · exact h.members other hold
  · exact ⟨hname, hdescriptor⟩

theorem andThen {result : Except Error α × Pool} {next : α → Pool → Except Error β × Pool}
    (h : result.2.Closed) (hnext : ∀ a, result.1 = .ok a → (next a result.2).2.Closed) :
    (andThen result next).2.Closed := by
  obtain ⟨answer, pool⟩ := result
  cases answer with
  | error e => exact h
  | ok a => exact hnext a rfl

end Closed

/-- A name that was found is one of the names. -/
theorem WellFormed.lt_of_internName (h : pool.WellFormed) {text : String} {name : UInt16}
    (hok : (pool.internName text).1 = .ok name) :
    name.toNat < (pool.internName text).2.names.toList.length := by
  have hat := (h.get?_internName hok).1
  rw [Interned.get?, ← Interned.getElem?_toList] at hat
  exact (List.getElem?_eq_some_iff.mp hat).1

/-- **No request leaves a reference that leads nowhere**, even if it fails after its first half. -/
theorem Closed.run (h : pool.Closed) (hformed : pool.WellFormed) {request : Request}
    (hrefers : (Command.request request).Refers pool) : (request.run pool).2.Closed := by
  cases request with
  | name text => exact h.internName hformed text
  | constant value =>
    refine h.internConstant hformed fun name hname => hrefers name ?_
    rw [hname]
    rfl
  | string text =>
    rw [Request.run, internString_eq]
    refine (h.internName hformed text).andThen fun name hname => ?_
    refine (h.internName hformed text).internConstant (hformed.enters_internName text).1
      fun other hother => ?_
    obtain rfl := Constant.string.inj hother
    exact hformed.lt_of_internName hname
  | member text descriptor =>
    rw [Request.run, internMember_eq]
    have hfirst := h.internName hformed text
    have hformed' := (hformed.enters_internName text).1
    refine hfirst.andThen fun name hname => ?_
    refine (hfirst.internName hformed' descriptor).andThen fun second hsecond => ?_
    have hextends := hformed'.enters_internName descriptor
    have hlt := Nat.lt_of_lt_of_le (hformed.lt_of_internName hname) hextends.2.names.length_le
    exact (hfirst.internName hformed' descriptor).addMember hextends.1 hlt
      (hformed'.lt_of_internName hsecond)

/-! ### Open checkpoints -/

theorem checkpoint_le_trans {mark mark' mark'' : Checkpoint} (h : mark ≤ mark')
    (h' : mark' ≤ mark'') :
    mark ≤ mark'' :=
  ⟨Nat.le_trans h.1 h'.1, Nat.le_trans h.2.1 h'.2.1, Nat.le_trans h.2.2 h'.2.2⟩

/-- The checkpoints that a rollback leaves open are not newer than the one that it goes to. -/
theorem le_of_mem_dropWhile {marks : List Checkpoint} {mark : Checkpoint}
    (hmarks : marks.Pairwise fun newer older => older ≤ newer) :
    ∀ older ∈ marks.dropWhile (· ≠ mark), older ≤ mark := by
  induction marks with
  | nil => simp
  | cons newest rest ih =>
    obtain ⟨hnewest, hrest⟩ := List.pairwise_cons.mp hmarks
    by_cases heq : newest = mark
    · subst heq
      rw [List.dropWhile_cons_of_neg (by simp)]
      exact List.forall_mem_cons.mpr ⟨⟨Nat.le_refl _, Nat.le_refl _, Nat.le_refl _⟩, hnewest⟩
    · rw [List.dropWhile_cons_of_pos (by simpa using heq)]
      exact ih hrest

/-- Tables that are rolled back to a checkpoint are as long as they were then. -/
theorem checkpoint_rollback {mark : Checkpoint} (h : mark ≤ pool.checkpoint) :
    (pool.rollback mark).checkpoint = mark := by
  have hsize : ∀ {α : Type} [Ord α] (table : Interned α) {n : Nat}, n ≤ table.size →
      (table.truncate n).size = n := by
    intro α _ table n hn
    rw [← Interned.length_toList, Interned.toList_truncate, List.length_take,
      Interned.length_toList]
    exact Nat.min_eq_left hn
  obtain ⟨hnames, hconstants, hmembers⟩ := h
  rw [Pool.checkpoint, Pool.rollback, hsize _ hnames, hsize _ hconstants, hsize _ hmembers]

/-- The checkpoints that are open are older and older, and no reference crosses one of them. -/
structure Orderly (marks : List Checkpoint) (pool : Pool) : Prop where
  wellFormed : pool.WellFormed
  closed : pool.Closed
  le_checkpoint : ∀ mark ∈ marks, mark ≤ pool.checkpoint
  pairwise : marks.Pairwise fun newer older => older ≤ newer
  closedAt : ∀ mark ∈ marks, pool.ClosedAt mark

theorem orderly_empty : Orderly [] empty := by
  refine ⟨wellFormed_empty, ⟨fun name hname => ?_, fun member hmember => ?_⟩, ?_,
    List.Pairwise.nil, ?_⟩
  · exact absurd hname List.not_mem_nil
  · exact absurd hmember List.not_mem_nil
  · simp
  · simp

namespace Orderly

variable {marks : List Checkpoint}

theorem request (h : Orderly marks pool) {request : Request}
    (hrefers : (Command.request request).Refers pool) : Orderly marks (request.run pool).2 := by
  obtain ⟨hformed, hextends⟩ := h.wellFormed.enters request
  refine ⟨hformed, h.closed.run h.wellFormed hrefers, fun mark hmark => ?_, h.pairwise,
    fun mark hmark => ?_⟩
  · exact checkpoint_le_trans (h.le_checkpoint mark hmark) hextends.checkpoint_le
  · exact (h.closedAt mark hmark).mono (h.le_checkpoint mark hmark) hextends

theorem checkpoint (h : Orderly marks pool) : Orderly (pool.checkpoint :: marks) pool := by
  have hself : pool.checkpoint ≤ pool.checkpoint := (Extends.refl pool).checkpoint_le
  refine ⟨h.wellFormed, h.closed, ?_, List.pairwise_cons.mpr ⟨h.le_checkpoint, h.pairwise⟩, ?_⟩
  · exact List.forall_mem_cons.mpr ⟨hself, h.le_checkpoint⟩
  · exact List.forall_mem_cons.mpr ⟨h.closed.closedAt, h.closedAt⟩

theorem rollback (h : Orderly marks pool) {mark : Checkpoint} (hmark : mark ∈ marks) :
    Orderly (marks.dropWhile (· ≠ mark)) (pool.rollback mark) := by
  have hcheckpoint := checkpoint_rollback (h.le_checkpoint mark hmark)
  have hsub : (marks.dropWhile (· ≠ mark)).Sublist marks := List.dropWhile_sublist _
  have holder : ∀ older ∈ marks.dropWhile (· ≠ mark), older ≤ mark := le_of_mem_dropWhile h.pairwise
  have hself : (pool.rollback mark).ClosedAt mark :=
    (h.closedAt mark hmark).rollback ⟨Nat.le_refl _, Nat.le_refl _, Nat.le_refl _⟩
  refine ⟨h.wellFormed.rollback mark, ?_, ?_, h.pairwise.sublist hsub, fun older hmem => ?_⟩
  · refine ClosedAt.closed ?_
    rwa [hcheckpoint]
  · rwa [hcheckpoint]
  · exact (h.closedAt older (hsub.mem hmem)).rollback (holder older hmem)

/-- **One command keeps the open checkpoints in order.** -/
theorem step (h : Orderly marks pool) {command : Command} {rest : List Command}
    (hnested : Nested marks pool (command :: rest)) (hrefers : command.Refers pool) :
    ∃ marks', Orderly marks' (command.run pool).2 ∧ Nested marks' (command.run pool).2 rest := by
  cases command with
  | request request => exact ⟨marks, h.request hrefers, hnested⟩
  | checkpoint => exact ⟨pool.checkpoint :: marks, h.checkpoint, hnested⟩
  | rollback mark => exact ⟨_, h.rollback hnested.1, hnested.2⟩

/-- **All commands leave the references closed**, as long as rollbacks go to open checkpoints. -/
theorem closed_after (h : Orderly marks pool) {commands : List Command}
    (hnested : Nested marks pool commands) (hrefers : Referring pool commands) :
    (pool.after commands).Closed := by
  induction commands generalizing marks pool with
  | nil => exact h.closed
  | cons command rest ih =>
    obtain ⟨marks', horderly, hrest⟩ := h.step hnested hrefers.1
    exact ih horderly hrest hrefers.2

end Orderly

/-- The length that a checkpoint has for the table in which a request is answered. -/
def Request.lengthAt (mark : Checkpoint) : Request → Nat
  | .name _ => mark.names
  | .constant _ => mark.constants
  | .string _ => mark.constants
  | .member _ _ => mark.members

namespace Request.Holds

variable {request : Request} {i : UInt16}

theorem mono (h : request.Holds pool i) (hextends : pool.Extends pool') :
    request.Holds pool' i := by
  cases request with
  | name text => exact get?_of_prefix hextends.names h
  | constant value => exact get?_of_prefix hextends.constants h
  | string text =>
    obtain ⟨name, hconstant, hname⟩ := h
    exact ⟨name, get?_of_prefix hextends.constants hconstant, get?_of_prefix hextends.names hname⟩
  | member text descriptor =>
    obtain ⟨member, hmember, hname, hdescriptor⟩ := h
    exact ⟨member, get?_of_prefix hextends.members hmember, get?_of_prefix hextends.names hname,
      get?_of_prefix hextends.names hdescriptor⟩

/-- An entry that a rollback keeps refers to names that it keeps too. -/
theorem rollback (h : request.Holds pool i) {mark : Checkpoint} (hclosed : pool.ClosedAt mark)
    (hi : i.toNat < request.lengthAt mark) : request.Holds (pool.rollback mark) i := by
  cases request with
  | name text => exact get?_truncate.mpr ⟨hi, h⟩
  | constant value => exact get?_truncate.mpr ⟨hi, h⟩
  | string text =>
    obtain ⟨name, hconstant, hname⟩ := h
    have hlt := hclosed.strings i.toNat hi name (by rwa [Interned.getElem?_toList])
    exact ⟨name, get?_truncate.mpr ⟨hi, hconstant⟩, get?_truncate.mpr ⟨hlt, hname⟩⟩
  | member text descriptor =>
    obtain ⟨member, hmember, hname, hdescriptor⟩ := h
    have hlt := hclosed.members i.toNat hi member (by rwa [Interned.getElem?_toList])
    exact ⟨member, get?_truncate.mpr ⟨hi, hmember⟩, get?_truncate.mpr ⟨hlt.1, hname⟩,
      get?_truncate.mpr ⟨hlt.2, hdescriptor⟩⟩

/-- **What was found is found later**, as long as its own entry is not rolled back. -/
theorem after {marks : List Checkpoint} {commands : List Command} (h : request.Holds pool i)
    (horderly : Orderly marks pool) (hnested : Nested marks pool commands)
    (hrefers : Referring pool commands)
    (hkept : ∀ mark, .rollback mark ∈ commands → i.toNat < request.lengthAt mark) :
    request.Holds (pool.after commands) i := by
  induction commands generalizing marks pool with
  | nil => exact h
  | cons command rest ih =>
    obtain ⟨marks', hnext, hrest⟩ := horderly.step hnested hrefers.1
    refine ih ?_ hnext hrest hrefers.2 fun mark hmark => hkept mark (List.mem_cons_of_mem _ hmark)
    cases command with
    | request other => exact h.mono (horderly.wellFormed.enters other).2
    | checkpoint => exact h
    | rollback mark =>
      exact h.rollback (horderly.closedAt mark hnested.1) (hkept mark List.mem_cons_self)

end Request.Holds

/-- A request in the middle of a sequence of commands. -/
theorem Orderly.holds_after {marks : List Checkpoint} {request : Request} {i : UInt16}
    {before later : List Command} (h : Orderly marks pool)
    (hnested : Nested marks pool (before ++ .request request :: later))
    (hrefers : Referring pool (before ++ .request request :: later))
    (hok : (request.run (pool.after before)).1 = .ok i)
    (hkept : ∀ mark, .rollback mark ∈ later → i.toNat < request.lengthAt mark) :
    request.Holds (pool.after (before ++ .request request :: later)) i := by
  induction before generalizing marks pool with
  | nil =>
    obtain ⟨marks', hnext, hrest⟩ := h.step hnested hrefers.1
    exact (h.wellFormed.holds_run hok).1.after hnext hrest hrefers.2 hkept
  | cons command rest ih =>
    obtain ⟨marks', hnext, hrest⟩ := h.step hnested hrefers.1
    exact ih hnext hrest hrefers.2 hok

/-- **The tables hold what was asked for.** After any commands the values of each table are
distinct, there are at most 65535 of them, and its search tree is their inverse; a request fails
exactly if it needs a place in a full table; and one that succeeds returns an index below 0xFFFF at
which the value then stands, and at which the entry stays until it is rolled back. If string
constants are asked for only with names that there are, and rollbacks go only to open checkpoints,
then no reference leads nowhere, and what was asked for can be read back from an entry that was not
rolled back. -/
theorem tables_exact (before : List Command) (request : Request) :
    (empty.after before).names.Faithful ∧ (empty.after before).constants.Faithful ∧
    (empty.after before).members.Faithful ∧
    (Nested [] empty before → Referring empty before → (empty.after before).Closed) ∧
    ((∃ e, (request.run (empty.after before)).1 = .error e) ↔
      request.NeedsRoom (empty.after before)) ∧
    ∀ i, (request.run (empty.after before)).1 = .ok i →
      i.toNat < 0xFFFF ∧ request.Holds (request.run (empty.after before)).2 i ∧
      ∀ later, (request.run (empty.after before)).2.Retains later ∧
        (Nested [] empty (before ++ .request request :: later) →
          Referring empty (before ++ .request request :: later) →
          (∀ mark, .rollback mark ∈ later → i.toNat < request.lengthAt mark) →
          request.Holds (empty.after (before ++ .request request :: later)) i) := by
  have hformed := wellFormed_empty.after before
  refine ⟨hformed.names.faithful, hformed.constants.faithful, hformed.members.faithful, ?_,
    hformed.fails_run_iff request, fun i hok => ?_⟩
  · intro hnested hrefers
    exact orderly_empty.closed_after hnested hrefers
  · obtain ⟨hholds, hlt⟩ := hformed.holds_run hok
    refine ⟨hlt, hholds, fun later => ⟨(hformed.enters request).1.retains later, ?_⟩⟩
    intro hnested hrefers hkept
    exact orderly_empty.holds_after hnested hrefers hok hkept

/-- Two zeros that differ by their signs, and a member that is rolled back. -/
def sampleBefore : List Command :=
  [.request (.constant (.float 0)), .request (.constant (.float 0x80000000)), .checkpoint,
    .request (.member "x" "I"), .rollback ⟨0, 2, 0⟩, .request (.name "y")]

/-- Another string that is rolled back, and a constant that refers to a name directly. -/
def sampleLater : List Command :=
  [.checkpoint, .request (.string "z"), .rollback ⟨2, 3, 0⟩, .request (.constant (.string 0))]

theorem sampleBefore_tables :
    Nested [] empty (sampleBefore ++ .request (.string "run") :: sampleLater) ∧
    Referring empty (sampleBefore ++ .request (.string "run") :: sampleLater) ∧
    (empty.after sampleBefore).constants.toList = [.float 0, .float 0x80000000] ∧
    (empty.after sampleBefore).Closed ∧
    ((Request.string "run").run (empty.after sampleBefore)).1 = .ok 2 ∧
    (Request.string "run").Holds
      (empty.after (sampleBefore ++ .request (.string "run") :: sampleLater)) 2 := by
  obtain ⟨-, -, -, hclosed, -, hfound⟩ := tables_exact sampleBefore (.string "run")
  have hnested : Nested [] empty (sampleBefore ++ .request (.string "run") :: sampleLater) := by
    decide +kernel
  have hrefers : Referring empty (sampleBefore ++ .request (.string "run") :: sampleLater) := by
    decide +kernel
  have hok : ((Request.string "run").run (empty.after sampleBefore)).1 = .ok 2 := by decide +kernel
  obtain ⟨-, -, hlater⟩ := hfound 2 hok
  refine ⟨hnested, hrefers, by decide +kernel, ?_, hok, ?_⟩
  · exact hclosed (by decide +kernel) (by decide +kernel)
  · refine (hlater sampleLater).2 hnested hrefers fun mark hmark => ?_
    obtain rfl : mark = ⟨2, 3, 0⟩ := by simpa [sampleLater] using hmark
    decide

/-- A checkpoint that an earlier one has closed is used after names have taken the place of those
that there were. -/
def sampleStale : List Command :=
  [.checkpoint, .request (.member "a" "b"), .checkpoint, .rollback ⟨0, 0, 0⟩, .request (.name "p"),
    .request (.name "q"), .request (.name "r"), .request (.member "r" "r"), .rollback ⟨2, 0, 1⟩]

/-- **References can lead nowhere**: a string constant may be asked for with any index, and rolling
back to a checkpoint that is no longer open may keep a member without its names. -/
theorem dangling_references :
    ¬ (empty.after [.request (.constant (.string 5))]).Closed ∧
    (empty.after (sampleStale.take 2)).checkpoint = ⟨2, 0, 1⟩ ∧
    (empty.after sampleStale).names.toList = ["p", "q"] ∧
    (empty.after sampleStale).members.toList = [⟨2, 2⟩] ∧ ¬ (empty.after sampleStale).Closed := by
  have hnames : (empty.after sampleStale).names.toList = ["p", "q"] := by decide +kernel
  have hmembers : (empty.after sampleStale).members.toList = [⟨2, 2⟩] := by decide +kernel
  refine ⟨fun hclosed => ?_, by decide +kernel, hnames, hmembers, fun hclosed => ?_⟩
  · exact absurd (hclosed.strings 5 (by decide +kernel)) (by decide +kernel)
  · have hlt := (hclosed.members ⟨2, 2⟩ (by rw [hmembers]; exact List.mem_singleton_self _)).1
    rw [hnames] at hlt
    exact absurd hlt (by decide)

end Image.Pool

end ClassImage
