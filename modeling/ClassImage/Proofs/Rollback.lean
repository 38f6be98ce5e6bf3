import ClassImage.Proofs.Workspace

/-!
# Forgetting what was entered

The tables of a class are asked for names, constants, strings and members, and between the requests
a checkpoint may be taken or rolled back to. A sequence of such commands is `Nested` if it only
rolls back to checkpoints that are still open: to roll back to one closes all that were taken after
it.

* `Interned.Agrees`, `Pool.Agrees`: the same entries, and search trees with the same content. What
  agrees gives the same answers ever after (`Agrees.answers`), whatever the commands.
* `Nested.extends_after`: as long as a checkpoint is open, the tables it was taken of are a front
  part of the tables. A table that has only grown is truncated to what it was
  (`WellFormed.agrees_truncate`), so rolling back leaves no trace (`rollback_exact`).
-/

namespace ClassImage

/-! ### Tables that agree -/

namespace Interned

variable {α : Type} [Ord α]

/-- Two tables have the same entries, and their search trees the same content. -/
structure Agrees (table table' : Interned α) : Prop where
  entries : table.entries = table'.entries
  index : table.index.Equiv table'.index

namespace Agrees

variable {table table' : Interned α}

theorem size_eq (h : table.Agrees table') : table.size = table'.size := by
  rw [size, h.entries, size]

/-- **Tables that agree give the same index and agree again.** -/
theorem intern [Std.TransOrd α] (h : table.Agrees table') (a : α) :
    (table.intern a).1 = (table'.intern a).1 ∧ (table.intern a).2.Agrees (table'.intern a).2 := by
  have hindex : table.index[a]? = table'.index[a]? := h.index.getElem?_eq
  cases hfind : table.index[a]? with
  | some i =>
    rw [intern_of_known hfind, intern_of_known (hindex ▸ hfind)]
    exact ⟨rfl, h⟩
  | none =>
    have hfind' : table'.index[a]? = none := hindex ▸ hfind
    by_cases hroom : table.size < capacity
    · rw [intern_of_new hfind hroom, intern_of_new hfind' (h.size_eq ▸ hroom), h.size_eq]
      exact ⟨rfl, congrArg (Array.push · a) h.entries, h.index.insert a _⟩
    · have hfull := Nat.le_of_not_lt hroom
      rw [intern_of_full hfind hfull, intern_of_full hfind' (h.size_eq ▸ hfull)]
      exact ⟨rfl, h⟩

theorem truncate (h : table.Agrees table') (n : Nat) :
    (table.truncate n).Agrees (table'.truncate n) :=
  ⟨congrArg (Array.take · n) h.entries, h.index.filter _⟩

end Agrees

/-- **Truncating undoes growth**, in the entries and in the search tree. -/
theorem WellFormed.agrees_truncate [Std.TransOrd α] [Std.LawfulEqOrd α] {table table' : Interned α}
    (h : table.WellFormed) (h' : table'.WellFormed) (hle : table.toList <+: table'.toList) :
    (table'.truncate table.size).Agrees table := by
  have hentries := toList_truncate_size hle
  refine ⟨Array.toList_inj.mp hentries, Std.TreeMap.Equiv.of_forall_constGet?_eq fun a => ?_⟩
  exact (wellFormed_truncate h' table.size).index_congr h hentries a

end Interned

namespace Image.Pool

open Conversion (Error TableName found)

/-- The tables agree. -/
structure Agrees (pool pool' : Pool) : Prop where
  names : pool.names.Agrees pool'.names
  constants : pool.constants.Agrees pool'.constants
  members : pool.members.Agrees pool'.members

/-- The tables are the inverses of their search trees. -/
structure WellFormed (pool : Pool) : Prop where
  names : pool.names.WellFormed
  constants : pool.constants.WellFormed
  members : pool.members.WellFormed

theorem wellFormed_empty : empty.WellFormed :=
  ⟨Interned.wellFormed_empty, Interned.wellFormed_empty, Interned.wellFormed_empty⟩

/-- The tables have grown into others. -/
structure Extends (pool pool' : Pool) : Prop where
  names : pool.names.toList <+: pool'.names.toList
  constants : pool.constants.toList <+: pool'.constants.toList
  members : pool.members.toList <+: pool'.members.toList

theorem Extends.refl (pool : Pool) : pool.Extends pool :=
  ⟨List.prefix_rfl, List.prefix_rfl, List.prefix_rfl⟩

theorem Extends.trans {pool middle pool' : Pool} (h : pool.Extends middle)
    (h' : middle.Extends pool') :
    pool.Extends pool' :=
  ⟨h.names.trans h'.names, h.constants.trans h'.constants, h.members.trans h'.members⟩

/-! ### Requests -/

/-- What the tables of a class are asked for. -/
inductive Request where
  | name (text : String)
  | constant (value : Constant)
  | string (text : String)
  | member (name descriptor : String)
deriving DecidableEq, Repr

/-- The answer to a request, and the tables after it. -/
def Request.run (pool : Pool) : Request → Except Error UInt16 × Pool
  | .name text => pool.internName text
  | .constant value => pool.internConstant value
  | .string text => pool.internString text
  | .member text descriptor => pool.internMember text descriptor

section Requests

variable {α β : Type}

/-- Goes on with a result, unless there is none. -/
def andThen (result : Except Error α × Pool) (next : α → Pool → Except Error β × Pool) :
    Except Error β × Pool :=
  match result with
  | (.ok a, pool) => next a pool
  | (.error e, pool) => (.error e, pool)

theorem internName_eq (pool : Pool) (text : String) : pool.internName text =
    (found (overflow .name) (pool.names.intern text).1,
      { pool with names := (pool.names.intern text).2 }) := by
  rw [internName]
  rcases pool.names.intern text with ⟨_ | i, names⟩ <;> rfl

theorem internConstant_eq (pool : Pool) (constant : Constant) : pool.internConstant constant =
    (found (overflow .constant) (pool.constants.intern constant).1,
      { pool with constants := (pool.constants.intern constant).2 }) := by
  rw [internConstant]
  rcases pool.constants.intern constant with ⟨_ | i, constants⟩ <;> rfl

theorem addMember_eq (pool : Pool) (member : Member) : pool.addMember member =
    (found (overflow .member) (pool.members.intern member).1,
      { pool with members := (pool.members.intern member).2 }) := by
  rw [addMember]
  rcases pool.members.intern member with ⟨_ | i, members⟩ <;> rfl

theorem internString_eq (pool : Pool) (text : String) : pool.internString text =
    andThen (pool.internName text) fun name pool => pool.internConstant (.string name) := by
  unfold internString andThen
  rcases pool.internName text with ⟨e | name, pool⟩ <;> rfl

theorem internMember_eq (pool : Pool) (name descriptor : String) :
    pool.internMember name descriptor = andThen (pool.internName name) fun name pool =>
      andThen (pool.internName descriptor) fun descriptor pool =>
        pool.addMember { name, descriptor } := by
  unfold internMember andThen
  rcases pool.internName name with ⟨e | name, pool⟩
  · rfl
  · dsimp only
    rcases pool.internName descriptor with ⟨e | descriptor, pool⟩ <;> rfl

/-- Two requests were answered alike, and left tables that agree. -/
def Alike (result result' : Except Error α × Pool) : Prop :=
  result.1 = result'.1 ∧ result.2.Agrees result'.2

theorem Alike.andThen {result result' : Except Error α × Pool}
    {next : α → Pool → Except Error β × Pool} (h : Alike result result')
    (hnext : ∀ a pool pool', pool.Agrees pool' → Alike (next a pool) (next a pool')) :
    Alike (andThen result next) (andThen result' next) := by
  obtain ⟨answer, pool⟩ := result
  obtain ⟨answer', pool'⟩ := result'
  obtain ⟨rfl, hpool⟩ : answer = answer' ∧ pool.Agrees pool' := h
  cases answer with
  | error e => exact ⟨rfl, hpool⟩
  | ok a => exact hnext a pool pool' hpool

namespace Agrees

variable {pool pool' : Pool}

theorem internName (h : pool.Agrees pool') (text : String) :
    Alike (pool.internName text) (pool'.internName text) := by
  obtain ⟨hanswer, hnames⟩ := h.names.intern text
  rw [internName_eq, internName_eq, hanswer]
  exact ⟨rfl, hnames, h.constants, h.members⟩

theorem internConstant (h : pool.Agrees pool') (constant : Constant) :
    Alike (pool.internConstant constant) (pool'.internConstant constant) := by
  obtain ⟨hanswer, hconstants⟩ := h.constants.intern constant
  rw [internConstant_eq, internConstant_eq, hanswer]
  exact ⟨rfl, h.names, hconstants, h.members⟩

theorem addMember (h : pool.Agrees pool') (member : Member) :
    Alike (pool.addMember member) (pool'.addMember member) := by
  obtain ⟨hanswer, hmembers⟩ := h.members.intern member
  rw [addMember_eq, addMember_eq, hanswer]
  exact ⟨rfl, h.names, h.constants, hmembers⟩

theorem run (h : pool.Agrees pool') (request : Request) :
    Alike (request.run pool) (request.run pool') := by
  cases request with
  | name text => exact h.internName text
  | constant value => exact h.internConstant value
  | string text =>
    rw [Request.run, Request.run, internString_eq, internString_eq]
    exact (h.internName text).andThen fun name _ _ h => h.internConstant (.string name)
  | member name descriptor =>
    rw [Request.run, Request.run, internMember_eq, internMember_eq]
    exact (h.internName name).andThen fun name _ _ h => (h.internName descriptor).andThen
      fun descriptor _ _ h => h.addMember { name, descriptor }

end Agrees

/-- What a request leaves is well formed and has only grown, even if the request failed. -/
def Enters (pool : Pool) (result : Except Error α × Pool) : Prop :=
  result.2.WellFormed ∧ pool.Extends result.2

theorem Enters.andThen {pool : Pool} {result : Except Error α × Pool}
    {next : α → Pool → Except Error β × Pool} (h : pool.Enters result)
    (hnext : ∀ a (pool : Pool), pool.WellFormed → pool.Enters (next a pool)) :
    pool.Enters (andThen result next) := by
  obtain ⟨answer, middle⟩ := result
  obtain ⟨hformed, hextends⟩ := h
  cases answer with
  | error e => exact ⟨hformed, hextends⟩
  | ok a =>
    obtain ⟨hformed', hextends'⟩ := hnext a middle hformed
    exact ⟨hformed', hextends.trans hextends'⟩

namespace WellFormed

variable {pool : Pool}

theorem enters_internName (h : pool.WellFormed) (text : String) :
    pool.Enters (pool.internName text) := by
  have hspec := Interned.intern_spec h.names text
  rw [internName_eq]
  exact ⟨⟨hspec.wellFormed, h.constants, h.members⟩, hspec.prefix_toList,
    List.prefix_rfl, List.prefix_rfl⟩

theorem enters_internConstant (h : pool.WellFormed) (constant : Constant) :
    pool.Enters (pool.internConstant constant) := by
  have hspec := Interned.intern_spec h.constants constant
  rw [internConstant_eq]
  exact ⟨⟨h.names, hspec.wellFormed, h.members⟩, List.prefix_rfl,
    hspec.prefix_toList, List.prefix_rfl⟩

theorem enters_addMember (h : pool.WellFormed) (member : Member) :
    pool.Enters (pool.addMember member) := by
  have hspec := Interned.intern_spec h.members member
  rw [addMember_eq]
  exact ⟨⟨h.names, h.constants, hspec.wellFormed⟩, List.prefix_rfl, List.prefix_rfl,
    hspec.prefix_toList⟩

/-- **Requests only let the tables grow.** -/
theorem enters (h : pool.WellFormed) (request : Request) : pool.Enters (request.run pool) := by
  cases request with
  | name text => exact h.enters_internName text
  | constant value => exact h.enters_internConstant value
  | string text =>
    rw [Request.run, internString_eq]
    exact (h.enters_internName text).andThen fun name _ h => h.enters_internConstant (.string name)
  | member name descriptor =>
    rw [Request.run, internMember_eq]
    exact (h.enters_internName name).andThen fun name _ h =>
      (h.enters_internName descriptor).andThen fun descriptor _ h =>
        h.enters_addMember { name, descriptor }

end WellFormed

end Requests

/-! ### Commands -/

/-- A request, or the use of a checkpoint. -/
inductive Command where
  | request (wanted : Request)
  | checkpoint
  | rollback (mark : Checkpoint)
deriving DecidableEq, Repr

/-- What a command returns. -/
inductive Answer where
  | found (index : Except Error UInt16)
  | taken (mark : Checkpoint)
  | done

/-- The answer to a command, and the tables after it. -/
def Command.run (pool : Pool) : Command → Answer × Pool
  | .request wanted => (.found (wanted.run pool).1, (wanted.run pool).2)
  | .checkpoint => (.taken pool.checkpoint, pool)
  | .rollback mark => (.done, pool.rollback mark)

/-- The tables after a sequence of commands. -/
def after (pool : Pool) : List Command → Pool
  | [] => pool
  | command :: rest => after (command.run pool).2 rest

/-- The answers to a sequence of commands. -/
def answers (pool : Pool) : List Command → List Answer
  | [] => []
  | command :: rest => (command.run pool).1 :: answers (command.run pool).2 rest

/-- Every rollback goes to a checkpoint that is open, one of `marks` or one that was taken since; it
closes those that were taken after this one. -/
def Nested (marks : List Checkpoint) (pool : Pool) : List Command → Prop
  | [] => True
  | .request request :: rest => Nested marks (request.run pool).2 rest
  | .checkpoint :: rest => Nested (pool.checkpoint :: marks) pool rest
  | .rollback mark :: rest =>
    mark ∈ marks ∧ Nested (marks.dropWhile (· ≠ mark)) (pool.rollback mark) rest

instance decidableNested : ∀ (marks : List Checkpoint) (pool : Pool) (commands : List Command),
    Decidable (Nested marks pool commands)
  | _, _, [] => isTrue trivial
  | marks, pool, .request request :: rest => decidableNested marks (request.run pool).2 rest
  | marks, pool, .checkpoint :: rest => decidableNested (pool.checkpoint :: marks) pool rest
  | marks, pool, .rollback mark :: rest =>
    have := decidableNested (marks.dropWhile (· ≠ mark)) (pool.rollback mark) rest
    inferInstanceAs (Decidable (_ ∧ _))

theorem Agrees.rollback {pool pool' : Pool} (h : pool.Agrees pool') (mark : Checkpoint) :
    (pool.rollback mark).Agrees (pool'.rollback mark) :=
  ⟨h.names.truncate _, h.constants.truncate _, h.members.truncate _⟩

/-- One command at tables that agree. -/
theorem Agrees.command {pool pool' : Pool} (h : pool.Agrees pool') (command : Command) :
    (command.run pool).1 = (command.run pool').1 ∧ (command.run pool).2.Agrees
      (command.run pool').2 := by
  cases command with
  | request request =>
    obtain ⟨hanswer, hagrees⟩ := h.run request
    exact ⟨congrArg Answer.found hanswer, hagrees⟩
  | checkpoint =>
    refine ⟨congrArg Answer.taken ?_, h⟩
    rw [Pool.checkpoint, h.names.size_eq, h.constants.size_eq, h.members.size_eq]
    rfl
  | rollback mark => exact ⟨rfl, h.rollback mark⟩

/-- **Tables that agree cannot be told apart.** -/
theorem Agrees.answers {pool pool' : Pool} (h : pool.Agrees pool') (commands : List Command) :
    pool.answers commands = pool'.answers commands ∧
      (pool.after commands).Agrees (pool'.after commands) := by
  induction commands generalizing pool pool' with
  | nil => exact ⟨rfl, h⟩
  | cons command rest ih =>
    obtain ⟨hanswer, hagrees⟩ := h.command command
    obtain ⟨hanswers, hafter⟩ := ih hagrees
    refine ⟨?_, hafter⟩
    rw [Pool.answers, Pool.answers, hanswer, hanswers]

/-! ### Checkpoints that are open -/

theorem WellFormed.rollback {pool : Pool} (h : pool.WellFormed) (mark : Checkpoint) :
    (pool.rollback mark).WellFormed :=
  ⟨Interned.wellFormed_truncate h.names _, Interned.wellFormed_truncate h.constants _,
    Interned.wellFormed_truncate h.members _⟩

theorem WellFormed.command {pool : Pool} (h : pool.WellFormed) (command : Command) :
    (command.run pool).2.WellFormed := by
  cases command with
  | request request => exact (h.enters request).1
  | checkpoint => exact h
  | rollback mark => exact h.rollback mark

/-- **Whatever the commands, the tables stay the inverses of their search trees.** -/
theorem WellFormed.after {pool : Pool} (h : pool.WellFormed) (commands : List Command) :
    (pool.after commands).WellFormed := by
  induction commands generalizing pool with
  | nil => exact h
  | cons command rest ih => exact ih (h.command command)

/-- No table is longer at the first checkpoint. -/
instance : LE Checkpoint where
  le mark mark' :=
    mark.names ≤ mark'.names ∧ mark.constants ≤ mark'.constants ∧ mark.members ≤ mark'.members

theorem Extends.checkpoint_le {pool pool' : Pool} (h : pool.Extends pool') :
    pool.checkpoint ≤ pool'.checkpoint := by
  have hnames := h.names.length_le
  have hconstants := h.constants.length_le
  have hmembers := h.members.length_le
  simp only [Interned.length_toList] at hnames hconstants hmembers
  exact ⟨hnames, hconstants, hmembers⟩

/-- Tables that were there at a checkpoint outlast a rollback to a later one. -/
theorem Extends.rollback {pool pool' : Pool} {mark : Checkpoint} (h : pool.Extends pool')
    (hle : pool.checkpoint ≤ mark) : pool.Extends (pool'.rollback mark) := by
  have htake : ∀ {α : Type} {as bs : List α} {n : Nat}, as <+: bs → as.length ≤ n →
      as <+: bs.take n := by
    intro α as bs n hstart hn
    rw [List.prefix_take_iff]
    exact ⟨hstart, hn⟩
  obtain ⟨hnames, hconstants, hmembers⟩ := hle
  rw [Pool.checkpoint] at hnames hconstants hmembers
  refine ⟨?_, ?_, ?_⟩ <;> rw [Pool.rollback, Interned.toList_truncate]
  · exact htake h.names (by rwa [Interned.length_toList])
  · exact htake h.constants (by rwa [Interned.length_toList])
  · exact htake h.members (by rwa [Interned.length_toList])

/-- **As long as a checkpoint is open, nothing that was there is lost.** The invariant is that every
open checkpoint is at or behind `base`. -/
theorem Nested.extends_after {base pool : Pool} {marks : List Checkpoint} {commands : List Command}
    (h : Nested marks pool commands) (hpool : pool.WellFormed) (hbase : base.Extends pool)
    (hmarks : ∀ mark ∈ marks, base.checkpoint ≤ mark) : base.Extends (pool.after commands) := by
  induction commands generalizing marks pool with
  | nil => exact hbase
  | cons command rest ih =>
    cases command with
    | request request =>
      obtain ⟨hformed, hextends⟩ := hpool.enters request
      exact ih h hformed (hbase.trans hextends) hmarks
    | checkpoint =>
      refine ih h hpool hbase fun mark hmark => ?_
      rcases List.mem_cons.mp hmark with rfl | hmark
      · exact hbase.checkpoint_le
      · exact hmarks mark hmark
    | rollback mark =>
      obtain ⟨hmark, hrest⟩ := h
      refine ih hrest (hpool.rollback mark) (hbase.rollback (hmarks mark hmark)) ?_
      intro mark' hmark'
      exact hmarks mark' ((List.dropWhile_sublist _).mem hmark')

/-- The tables that some sequence of commands leads to. -/
def Reached (pool : Pool) : Prop := ∃ commands, pool = empty.after commands

theorem Reached.wellFormed {pool : Pool} (h : pool.Reached) : pool.WellFormed := by
  obtain ⟨commands, rfl⟩ := h
  exact wellFormed_empty.after commands

/-- **Rolling back leaves no trace.** Whatever is entered after a checkpoint, found or refused, with
further checkpoints and rollbacks inside: rolling back to it gives the tables and search trees of
that moment, and every sequence of commands has the answers from there on, and leads to the tables,
that it would have had then. -/
theorem rollback_exact {pool : Pool} (hpool : pool.Reached) {between : List Command}
    (h : Nested [pool.checkpoint] pool between) :
    ((pool.after between).rollback pool.checkpoint).Agrees pool ∧
      ∀ later, ((pool.after between).rollback pool.checkpoint).answers later = pool.answers later ∧
        (((pool.after between).rollback pool.checkpoint).after later).Agrees
          (pool.after later) := by
  have hformed := hpool.wellFormed
  have hformed' := hformed.after between
  have hextends : pool.Extends (pool.after between) := by
    refine h.extends_after hformed (.refl pool) fun mark hmark => ?_
    rw [List.mem_singleton.mp hmark]
    exact (Extends.refl pool).checkpoint_le
  have hagrees : ((pool.after between).rollback pool.checkpoint).Agrees pool :=
    ⟨hformed.names.agrees_truncate hformed'.names hextends.names,
      hformed.constants.agrees_truncate hformed'.constants hextends.constants,
      hformed.members.agrees_truncate hformed'.members hextends.members⟩
  exact ⟨hagrees, hagrees.answers⟩

/-- The tables of a class that has a member and a string. -/
def samplePool : Pool := empty.after [.request (.member "run" "()V"), .request (.string "run")]

/-- An old string, a member that is rolled back by itself, and a new string. -/
def sampleBetween : List Command :=
  [.request (.string "run"), .checkpoint, .request (.member "run" "()I"), .rollback ⟨2, 1, 1⟩,
    .request (.string "()I")]

theorem samplePool_rollback :
    samplePool.Reached ∧ Nested [samplePool.checkpoint] samplePool sampleBetween ∧
    (samplePool.after sampleBetween).names.toList = ["run", "()V", "()I"] ∧
    ((samplePool.after sampleBetween).rollback samplePool.checkpoint).Agrees samplePool ∧
    (((samplePool.after sampleBetween).rollback samplePool.checkpoint).after
      [.request (.name "x"), .request (.string "()I")]).names.toList =
        ["run", "()V", "x", "()I"] := by
  have hreached : samplePool.Reached := ⟨_, rfl⟩
  have hnested : Nested [samplePool.checkpoint] samplePool sampleBetween := by decide +kernel
  obtain ⟨hagrees, hlater⟩ := rollback_exact hreached hnested
  refine ⟨hreached, hnested, by decide +kernel, hagrees, ?_⟩
  have hnames :=
    congrArg Array.toList (hlater [.request (.name "x"), .request (.string "()I")]).2.names.entries
  exact hnames.trans (by decide +kernel)

end Image.Pool

end ClassImage
