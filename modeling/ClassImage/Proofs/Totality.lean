import ClassImage.Proofs.Lowering
import ClassImage.Proofs.Regular

/-!
# Lowered bodies can be laid out

What lowering returns and how it fails is followed without regard to the tables: `Ends step post
blame` says that in every state the step returns a result with `post` or fails with an error with
`blame`. Each operation becomes a regular instruction that refers to operations of the method
(`endsPlainly_lowerOp`), because the decoder only reads ints of 16 bits to push and constants are
folded only if they fit. So lowered bodies are laid out unless they are too long or a `goto` leads
too far, and a reference is refused by lowering only if the range of an exception table entry ends
before it starts (`lower_outcomes`).
-/

namespace ClassImage

/-! ### Ints that are pushed -/

namespace Bytecode

open ClassFile (Fault LineNumber)

/-- Whether a number has 16 bits. -/
def isWord (number : Int32) : Bool := -0x8000 ≤ number.toInt && number.toInt ≤ 0x7FFF

/-- The int that an operation pushes has 16 bits. -/
def Op.PushesWord : Op → Prop
  | .pushInt _ value => isWord value = true
  | _ => True

/-- The int that is part of an opcode has 16 bits. -/
def Form.pushesWord : Form → Bool
  | intConst value => isWord value
  | _ => true

theorem pushesWord_of_ofOpcode? {opcode : UInt8} {form : Form}
    (h : Form.ofOpcode? opcode = some form) :
    form.pushesWord = true := by
  have htable : table.all fun row => row.2.pushesWord := by decide +kernel
  rw [Form.ofOpcode?, Option.map_eq_some_iff] at h
  obtain ⟨row, hrow, rfl⟩ := h
  exact Array.all_eq_true_iff_forall_mem.mp htable row (Array.mem_of_getElem? hrow)

theorem yields_pushesWord {offset : Nat} {form : Form} (hform : form.pushesWord = true) :
    Yields (form.read offset) fun result => result.1.PushesWord := by
  cases form with
  | intConst value => exact Yields.pure hform
  | bytePush =>
    refine Yields.after fun number => Yields.pure ?_
    have hle := number.le_toInt
    have hlt := number.toInt_lt
    simp only [Op.PushesWord, isWord, Int8.toInt_toInt32, Bool.and_eq_true, decide_eq_true_eq]
    omega
  | shortPush =>
    refine Yields.after fun number => Yields.pure ?_
    have hle := number.le_toInt
    have hlt := number.toInt_lt
    simp only [Op.PushesWord, isWord, Int16.toInt_toInt32, Bool.and_eq_true, decide_eq_true_eq]
    omega
  | plain | implicitLocal => exact Yields.pure trivial
  | loadNear | load | localVar | field | onClass | newArray | wideBranch =>
    exact Yields.after fun _ => Yields.pure trivial
  | increment | branch | invokeDynamic | newMultiArray =>
    exact Yields.after fun _ => Yields.after fun _ => Yields.pure trivial
  | tableSwitch =>
    refine Yields.after fun _ => Yields.after fun _ => Yields.after fun _ =>
      Yields.after fun _ => ?_
    split
    · exact Yields.after fun _ => Yields.after fun _ => Yields.pure trivial
    · exact Yields.after fun _ => Yields.pure trivial
  | lookupSwitch =>
    refine Yields.after fun _ => Yields.after fun _ => Yields.after fun _ => ?_
    split
    · exact Yields.after fun _ => Yields.after fun _ => Yields.pure trivial
    · exact Yields.after fun _ => Yields.pure trivial
  | wide =>
    refine Yields.after fun _ => ?_
    split
    · exact Yields.after fun _ => Yields.pure trivial
    · exact Yields.after fun _ => Yields.after fun _ => Yields.pure trivial
    · exact Yields.throw _
  | invoke invocation =>
    cases invocation with
    | virtual | special | static => exact Yields.after fun _ => Yields.pure trivial
    | interface =>
      exact Yields.after fun _ => Yields.after fun _ => Yields.after fun _ => Yields.pure trivial

/-- **The decoder reads only ints of 16 bits to push.** -/
theorem decode_pushesWord {code : Bytes} {lines : List LineNumber} {decoded : List Decoded}
    (h : decode code lines = .ok decoded) : ∀ entry ∈ decoded, entry.op.PushesWord := by
  have hitem : ∀ offset, Yields (readChecked code.length offset) fun result =>
      result.1.PushesWord ∧ 0 < result.2 := by
    intro offset bs result rest hr
    refine ⟨?_, (yields_readChecked code.length offset bs result rest hr).2⟩
    have hread : Yields (readOp offset) fun result => result.1.PushesWord := by
      refine Yields.after fun opcode => ?_
      split
      · rename_i form hform
        exact yields_pushesWord (pushesWord_of_ofOpcode? hform)
      · exact Yields.throw _
    have hchecked : Yields (readChecked code.length offset) fun result => result.1.PushesWord := by
      refine hread.mapError.bind fun result h => ?_
      obtain ⟨op, size⟩ := result
      dsimp only
      split
      · exact Yields.throw _
      · exact Yields.pure h
    exact hchecked bs result rest hr
  rw [decode] at h
  obtain ⟨ops, hcut, h⟩ := bind_eq_ok_iff.mp h
  obtain rfl := Except.ok.inj h
  obtain ⟨items, rfl, -, hitems⟩ := exists_of_cutOnto_eq_ok hitem _ _ _ _ _ hcut
  intro entry hentry
  obtain ⟨item, hmem, rfl⟩ := List.mem_map.mp hentry
  exact (hitems item hmem).2

end Bytecode

namespace Conversion

open ClassFile (ConstantPool)
open Bytecode (Op Decoded)
open Body (Instruction Operands Parameter Register Regular)
open Image (Opcode Constant Member)

/-! ### Results and errors -/

/-- A result with `post`, or an error with `blame`. -/
def Comes {α : Type} (post : α → Prop) (blame : Error → Prop) : Except Error α → Prop
  | .ok a => post a
  | .error e => blame e

/-- What comes out of a step, whatever the state before it. -/
def Ends {α : Type} (step : Convert α) (post : α → Prop) (blame : Error → Prop) : Prop :=
  ∀ work, Comes post blame (runFrom step work).1

section Rules

variable {α β : Type} {post : α → Prop} {blame : Error → Prop}

theorem Comes.bind {x : Except Error α} {f : α → Except Error β} {post' : β → Prop}
    (h : Comes post blame x) (h' : ∀ a, post a → Comes post' blame (f a)) :
    Comes post' blame (x >>= f) := by
  cases x with
  | error e => exact h
  | ok a => exact h' a h

theorem Comes.mapM {f : α → Except Error β} {post : α → β → Prop} {as : List α}
    (h : ∀ a ∈ as, Comes (post a) blame (f a)) :
    Comes (fun bs => List.Forall₂ post as bs) blame (as.mapM f) := by
  induction as with
  | nil => exact List.Forall₂.nil
  | cons a as ih =>
    rw [List.mapM_cons]
    refine (h a List.mem_cons_self).bind fun b hb => ?_
    refine (ih fun a' ha' => h a' (List.mem_cons_of_mem a ha')).bind fun bs hbs => ?_
    exact List.Forall₂.cons hb hbs

namespace Ends

variable {step : Convert α}

theorem pure {a : α} (h : post a) : Ends (Pure.pure a) post blame := fun _ => h

theorem throw {e : Error} (h : blame e) : Ends (MonadExcept.throw e) post blame := fun _ => h

theorem bind {next : α → Convert β} {post' : β → Prop} (h : Ends step post blame)
    (h' : ∀ a, post a → Ends (next a) post' blame) : Ends (step >>= next) post' blame := by
  intro work
  have hstep := h work
  rw [runFrom_bind]
  rcases hrun : runFrom step work with ⟨e | a, work'⟩ <;> rw [hrun] at hstep
  · exact hstep
  · exact h' a hstep work'

theorem mono {post' : α → Prop} {blame' : Error → Prop} (h : Ends step post blame)
    (hpost : ∀ a, post a → post' a) (hblame : ∀ e, blame e → blame' e) :
    Ends step post' blame' := by
  intro work
  have hstep := h work
  cases hrun : (runFrom step work).1 with
  | error e => rw [hrun] at hstep; exact hblame e hstep
  | ok a => rw [hrun] at hstep; exact hpost a hstep

theorem except {x : Except Error α} {next : α → Convert β} {post' : β → Prop}
    (hx : Comes post blame x) (h : ∀ a, x = .ok a → post a → Ends (next a) post' blame) :
    Ends (liftM x >>= next) post' blame := by
  cases x with
  | error e => exact throw hx
  | ok a => exact h a rfl hx

theorem file {x : Except ClassFile.Fault α} {next : α → Convert β} {post' : β → Prop}
    (hblame : ∀ fault, blame (.ofFault fault)) (h : ∀ a, x = .ok a → Ends (next a) post' blame) :
    Ends (ofFile x >>= next) post' blame := by
  cases x with
  | error fault => exact throw (hblame fault)
  | ok a => exact h a rfl

theorem mapM {f : α → Convert β} {post : α → β → Prop} {as : List α}
    (h : ∀ a ∈ as, Ends (f a) (post a) blame) :
    Ends (as.mapM f) (fun bs => List.Forall₂ post as bs) blame := by
  induction as with
  | nil => exact pure List.Forall₂.nil
  | cons a as ih =>
    rw [List.mapM_cons]
    refine (h a List.mem_cons_self).bind fun b hb => ?_
    refine (ih fun a' ha' => h a' (List.mem_cons_of_mem a ha')).bind fun bs hbs => ?_
    exact pure (List.Forall₂.cons hb hbs)

end Ends

end Rules

/-! ### Operations -/

/-- Whether an error is about a reference to an instruction that does not exist. -/
def Error.isReference : Error → Bool
  | .missingInstruction .. => true
  | _ => false

theorem isReference_ofFault (fault : ClassFile.Fault) :
    (Error.ofFault fault).isReference = false := by
  cases fault <;> rfl

/-- What comes out of a step whose errors are not about references. -/
def EndsPlainly {α : Type} (step : Convert α) (post : α → Prop) : Prop :=
  Ends step post fun e => e.isReference = false

theorem endsPlainly_of_found {step : Convert UInt16} {full : Error}
    (hfull : full.isReference = false) (h : ∀ work, ∃ index, (runFrom step work).1 =
      found full index) : EndsPlainly step fun _ => True := by
  intro work
  obtain ⟨index, hindex⟩ := h work
  rw [hindex]
  cases index with
  | none => exact hfull
  | some i => trivial

section Interning

theorem endsPlainly_internClass (name : String) : EndsPlainly (internClass name) fun _ => True :=
  endsPlainly_of_found rfl fun work => ⟨_, by rw [runFrom_internClass]⟩

theorem endsPlainly_internName (name : String) : EndsPlainly (internName name) fun _ => True :=
  endsPlainly_of_found rfl fun work => ⟨_, by rw [runFrom_internName]⟩

theorem endsPlainly_internConstant (constant : Constant) :
    EndsPlainly (internConstant constant) fun _ => True :=
  endsPlainly_of_found rfl fun work => ⟨_, by rw [runFrom_internConstant]⟩

theorem endsPlainly_addMember (member : Member) : EndsPlainly (addMember member) fun _ => True :=
  endsPlainly_of_found rfl fun work => ⟨_, by rw [runFrom_addMember]⟩

theorem endsPlainly_internString (text : String) :
    EndsPlainly (internString text) fun _ => True := by
  rw [internString_eq]
  exact (endsPlainly_internName text).bind fun name _ => endsPlainly_internConstant (.string name)

theorem endsPlainly_internMember (name descriptor : String) :
    EndsPlainly (internMember name descriptor) fun _ => True := by
  rw [internMember_eq]
  exact (endsPlainly_internName name).bind fun _ _ =>
    (endsPlainly_internName descriptor).bind fun _ _ =>
    endsPlainly_addMember _

end Interning

/-- Regular operands that refer to the first `size` instructions. -/
def Places (size : Nat) (lowered : Opcode × Operands) : Prop :=
  Regular lowered.1 lowered.2 ∧ ∀ target ∈ lowered.2.targets, target < size

/-- Operands of two halves refer to nothing. -/
theorem places_two16 (size : Nat) {opcode : Opcode} (hop : opcode.format = .two16)
    (hi lo : UInt16) :
    Places size (opcode, .two16 hi lo) :=
  ⟨.two16 hop hi lo, by simp [Operands.targets]⟩

section Operations

variable {context : Context}

theorem comes_resolve (offset target : Nat) :
    Comes (fun position => context.starts[position]? = some target) (fun e => e.isReference = false)
      (context.resolve offset target) := by
  unfold Context.resolve
  dsimp only
  split
  · assumption
  · exact rfl

theorem lt_size_of_start {position target : Nat} (h : context.starts[position]? = some target) :
    position < context.starts.size := (Array.getElem?_eq_some_iff.mp h).1

theorem comes_localRegister (slot : UInt16) :
    Comes (fun _ => True) (fun e => e.isReference = false) (localRegister slot) := by
  rw [localRegister]
  split
  · trivial
  · exact rfl

theorem places_tableSwitch {size first : Nat} {low high : Int32} {rest : List Nat}
    (hfirst : first < size) (hrest : ∀ position ∈ rest, position < size) :
    Places size (.tableSwitch, .switch .stack
      (.ofInt low :: .ofInt high :: .target first :: rest.map .target)) := by
  refine ⟨.switch rfl .stack fun i param hparam => ?_, fun target htarget => ?_⟩
  · rcases i with _ | _ | _ | i
    · obtain rfl := Option.some.inj hparam
      rfl
    · obtain rfl := Option.some.inj hparam
      rfl
    · obtain rfl := Option.some.inj hparam
      rfl
    · have hrest : (rest.map Parameter.target)[i]? = some param := hparam
      rw [List.getElem?_map, Option.map_eq_some_iff] at hrest
      obtain ⟨position, -, rfl⟩ := hrest
      simp [Parameter.target?, Opcode.isTargetParameter]
  · have hmap : (rest.map Parameter.target).filterMap Parameter.target? = rest := by
      rw [List.filterMap_map]
      exact List.filterMap_some
    have hmem : target ∈ first :: (rest.map Parameter.target).filterMap Parameter.target? := htarget
    rw [hmap] at hmem
    rcases List.mem_cons.mp hmem with rfl | hmem
    · exact hfirst
    · exact hrest target hmem

/-- The parameters of a lookup switch after the default, in turn keys and targets. -/
theorem lookup_parameters {size : Nat} {rest : List (List Parameter)}
    (hrest : ∀ pair ∈ rest, ∃ key position,
      pair = [.ofInt key, .target position] ∧ position < size) (first :
    Nat) (hfirst : first < size) :
    (∀ (i : Nat) (param : Parameter), (Parameter.target first :: rest.flatten)[i]? = some param →
      param.target?.isSome = (i % 2 == 0)) ∧
    ∀ target ∈ (Parameter.target first :: rest.flatten).filterMap Parameter.target?,
      target < size := by
  induction rest generalizing first with
  | nil =>
    refine ⟨fun i param hparam => ?_, by simpa [Parameter.target?] using hfirst⟩
    cases i with
    | zero =>
      obtain rfl := Option.some.inj hparam
      rfl
    | succ i => simp at hparam
  | cons pair rest ih =>
    obtain ⟨key, position, rfl, hposition⟩ := hrest pair List.mem_cons_self
    obtain ⟨hkinds, htargets⟩ :=
      ih (fun pair hmem => hrest pair (List.mem_cons_of_mem _ hmem)) position hposition
    refine ⟨fun i param hparam => ?_, fun target htarget => ?_⟩
    · rcases i with _ | _ | i
      · obtain rfl := Option.some.inj hparam
        rfl
      · obtain rfl := Option.some.inj hparam
        rfl
      · rw [hkinds i param hparam, Nat.add_assoc, Nat.add_mod_right]
    · have hmem : target ∈ first :: (Parameter.target position :: rest.flatten).filterMap
          Parameter.target? :=
        htarget
      rcases List.mem_cons.mp hmem with rfl | hmem
      · exact hfirst
      · exact htargets target hmem

theorem endsPlainly_classAt (index : UInt16) : EndsPlainly (context.classAt index) fun _ => True :=
  Ends.file isReference_ofFault fun name _ => endsPlainly_internClass name

theorem endsPlainly_lowerLoad (size : Nat) (isWide : Bool) (index : UInt16) :
    EndsPlainly (lowerLoad context isWide index) (Places size) := by
  refine Ends.file isReference_ofFault fun constant _ => ?_
  split
  case h_1 value =>
    split
    · rename_i hfold
      simp only [isShort, Bool.and_eq_true, decide_eq_true_eq] at hfold
      refine Ends.pure ⟨.push rfl hfold.2.1 hfold.2.2,
        by simp [pushShort, Operands.targets, Body.Displacement.targets]⟩
    · exact Ends.pure (places_two16 size rfl _ _)
  case h_2 => exact Ends.pure (places_two16 size rfl _ _)
  case h_3 =>
    exact Ends.file isReference_ofFault fun text _ =>
      (endsPlainly_internString text).bind fun _ _ =>
      Ends.pure (places_two16 size rfl _ _)
  case h_4 =>
    exact (endsPlainly_classAt index).bind fun _ _ => Ends.pure (places_two16 size rfl _ _)
  case h_5 | h_6 =>
    exact (endsPlainly_internConstant _).bind fun _ _ => Ends.pure (places_two16 size rfl _ _)
  all_goals exact Ends.throw rfl

theorem endsPlainly_lowerMember (size : Nat) {opcode : Opcode} (hop : opcode.format = .two16)
    (ref : ClassFile.MemberRef) :
    EndsPlainly (lowerMember ref) fun operands => Places size (opcode, operands) :=
  (endsPlainly_internClass ref.owner).bind fun _ _ =>
    (endsPlainly_internMember ref.name ref.descriptor).bind fun _ _ =>
      Ends.pure (places_two16 size hop _ _)

/-- **Every operation becomes a regular instruction that refers to operations of the method.** -/
theorem endsPlainly_lowerOp (offset : Nat) {op : Op} (hop : op.PushesWord) :
    EndsPlainly (lowerOp context offset op) (Places context.starts.size) := by
  cases op with
  | plain op => exact Ends.pure ⟨.bare rfl, by simp [Operands.targets]⟩
  | pushInt form value =>
    simp only [Op.PushesWord, Bytecode.isWord, Bool.and_eq_true, decide_eq_true_eq] at hop
    refine Ends.pure ⟨.push rfl ?_ ?_,
      by simp [pushShort, Operands.targets, Body.Displacement.targets]⟩
    · rw [Image.Record.shortMin]
      omega
    · rw [Image.Record.shortMax]
      omega
  | load isWide index => exact endsPlainly_lowerLoad _ isWide index
  | localVar op slot =>
    cases op with
    | load kind | store kind =>
      exact Ends.except (comes_localRegister slot) fun reg _ _ =>
        Ends.pure ⟨.value rfl reg (by decide) (by decide),
          by simp [Operands.targets, Body.Displacement.targets]⟩
    | ret => exact Ends.throw rfl
  | increment slot amount =>
    refine Ends.except (comes_localRegister slot) fun reg _ _ =>
      Ends.pure ⟨.value rfl reg ?_ ?_, by simp [Operands.targets, Body.Displacement.targets]⟩
    · rw [Int16.toInt_toInt32]
      exact amount.le_toInt
    · rw [Int16.toInt_toInt32]
      exact Int.le_of_lt_add_one amount.toInt_lt
  | branch jump target =>
    cases jump with
    | when condition =>
      refine Ends.except (comes_resolve offset target) fun position _ hposition =>
        Ends.pure ⟨.branch rfl position, ?_⟩
      simpa [Operands.targets, Body.Displacement.targets] using lt_size_of_start hposition
    | goto =>
      refine Ends.except (comes_resolve offset target) fun position _ hposition =>
        Ends.pure ⟨.goto .pc position, ?_⟩
      simpa [Operands.targets, Body.Displacement.targets] using lt_size_of_start hposition
    | jsr => exact Ends.throw rfl
  | tableSwitch default low targets =>
    have hparameters :
        Comes (fun parameters => Places context.starts.size (.tableSwitch,
          .switch .stack parameters)) (fun e => e.isReference = false)
            (tableParameters context offset default low targets) := by
      refine (comes_resolve offset default).bind fun first hfirst => ?_
      refine (Comes.mapM fun target _ => comes_resolve offset target).bind fun rest hrest => ?_
      refine places_tableSwitch (lt_size_of_start hfirst) fun position hmem => ?_
      obtain ⟨target, -, hstart⟩ := exists_mem_of_forall₂ hrest hmem
      exact lt_size_of_start hstart
    exact Ends.except hparameters fun parameters _ hplaces => Ends.pure hplaces
  | lookupSwitch default cases =>
    have hparameters :
        Comes (fun parameters => Places context.starts.size (.lookupSwitch,
          .switch .stack parameters)) (fun e => e.isReference = false)
            (lookupParameters context offset default cases) := by
      refine (comes_resolve offset default).bind fun first hfirst => ?_
      have hpair : ∀ entry ∈ cases, Comes (fun pair => ∃ key position,
          pair = [Parameter.ofInt key, .target position] ∧ position < context.starts.size)
          (fun e => e.isReference = false) (do
            let position ← context.resolve offset entry.2
            return [Parameter.ofInt entry.1, .target position]) := by
        intro entry _
        refine (comes_resolve offset entry.2).bind fun position hposition => ?_
        exact ⟨entry.1, position, rfl, lt_size_of_start hposition⟩
      refine (Comes.mapM hpair).bind fun rest hrest => ?_
      have hpairs : ∀ pair ∈ rest, ∃ key position,
          pair = [Parameter.ofInt key, .target position] ∧ position < context.starts.size := by
        intro pair hmem
        obtain ⟨entry, -, h⟩ := exists_mem_of_forall₂ hrest hmem
        exact h
      obtain ⟨hkinds, htargets⟩ := lookup_parameters hpairs first (lt_size_of_start hfirst)
      exact ⟨.switch rfl .stack hkinds, htargets⟩
    exact Ends.except hparameters fun parameters _ hplaces => Ends.pure hplaces
  | field access index =>
    exact Ends.file isReference_ofFault fun ref _ =>
      (endsPlainly_lowerMember _ rfl ref).bind fun _ hplaces => Ends.pure hplaces
  | invoke call index =>
    exact Ends.file isReference_ofFault fun ref _ =>
      (endsPlainly_lowerMember _ rfl ref).bind fun _ hplaces => Ends.pure hplaces
  | invokeDynamic => exact Ends.throw rfl
  | onClass op index =>
    exact (endsPlainly_classAt index).bind fun _ _ => Ends.pure (places_two16 _ rfl _ _)
  | newArray elementType => exact Ends.pure (places_two16 _ rfl _ _)
  | newMultiArray index dimensions =>
    exact (endsPlainly_classAt index).bind fun _ _ => Ends.pure (places_two16 _ rfl _ _)

end Operations

/-! ### Bodies -/

/-- The positions of a handler are those of the operations at the offsets of an exception table
entry. -/
structure Spans (starts : List Nat) (length : Nat) (source : ClassFile.ExceptionEntry)
    (handler : Body.Handler) :
    Prop where
  start : starts[handler.start]? = some source.start.toNat
  stop : StopsAt starts length source.stop handler.stop
  entry : starts[handler.entry]? = some source.entry.toNat

theorem endsPlainly_lowerHandler (context : Context) (length : Nat)
    (source : ClassFile.ExceptionEntry) :
    EndsPlainly (lowerHandler context length source)
      (Spans context.starts.toList length source) := by
  have hrest : ∀ (stop : Nat) (catchType : Option ClassId),
      StopsAt context.starts.toList length source.stop stop →
      EndsPlainly (do
        let start ← liftM (context.resolve source.entry.toNat source.start.toNat)
        let handler ← liftM (context.resolve source.entry.toNat source.entry.toNat)
        return ({ start, stop, entry := handler, catchType } : Body.Handler))
        (Spans context.starts.toList length source) := by
    intro stop catchType hstop
    refine Ends.except (comes_resolve _ _) fun start _ hstart => ?_
    refine Ends.except (comes_resolve _ _) fun handler _ hentry => Ends.pure ⟨?_, hstop, ?_⟩
    · rw [Array.getElem?_toList, hstart]
    · rw [Array.getElem?_toList, hentry]
  have hcatch : ∀ stop : Nat, StopsAt context.starts.toList length source.stop stop →
      EndsPlainly (do
        let catchType ←
          if source.catchType = 0 then pure none else some <$> context.classAt source.catchType
        let start ← liftM (context.resolve source.entry.toNat source.start.toNat)
        let handler ← liftM (context.resolve source.entry.toNat source.entry.toNat)
        return ({ start, stop, entry := handler, catchType } : Body.Handler))
        (Spans context.starts.toList length source) := by
    intro stop hstop
    dsimp only
    split
    · exact hrest stop none hstop
    · rw [map_eq_pure_bind, bind_assoc]
      exact (endsPlainly_classAt source.catchType).bind fun id _ => hrest stop (some id) hstop
  unfold lowerHandler
  dsimp only
  split
  · rename_i hlength
    exact hcatch _ (Or.inl ⟨hlength, rfl⟩)
  · refine Ends.except (comes_resolve _ _) fun stop _ hstop => hcatch stop (Or.inr ?_)
    rw [Array.getElem?_toList, hstop]

/-- A body whose references all lead to instructions is refused only for a range that ends before it
starts. -/
theorem exists_reversed_of_validate {body : Body} {e : Error} (h : body.validate = .error e)
    (hinsns : ∀ insn ∈ body.instructions, ∀ target ∈ insn.targets,
      target < body.instructions.length)
    (hhandlers : ∀ handler ∈ body.handlers, handler.start < body.instructions.length ∧
      handler.stop ≤ body.instructions.length ∧ handler.entry < body.instructions.length) :
    ∃ handler ∈ body.handlers, handler.stop < handler.start := by
  by_contra hnone
  have hok : body.validate = .ok () := by
    refine (Body.validate_eq_ok_iff body).mpr ⟨hinsns, fun handler hmem => ?_⟩
    obtain ⟨hstart, hstop, hentry⟩ := hhandlers handler hmem
    have hle : ¬ handler.stop < handler.start := fun hlt => hnone ⟨handler, hmem, hlt⟩
    exact ⟨hstart, Nat.le_of_not_lt hle, hstop, hentry⟩
  rw [hok] at h
  simp at h

/-- The code has an exception table entry whose start and end are operations, or the end of the
code, with the end before the start. -/
def Reversed (constants : ConstantPool) (code : ClassFile.Code) : Prop :=
  ∃ decoded, Decodes constants code decoded ∧ ∃ entry ∈ code.exceptions, ∃ start stop,
    (decoded.map Decoded.offset)[start]? = some entry.start.toNat ∧
    StopsAt (decoded.map Decoded.offset) code.bytes.length entry.stop stop ∧ stop < start

theorem ends_lower (settings : Settings) (constants : ConstantPool) (code : ClassFile.Code) :
    Ends (lower settings constants code) Body.IsRegular fun e => e.isReference = true →
      Reversed constants code := by
  have hplain : ∀ e : Error, e.isReference = false → e.isReference = true →
      Reversed constants code := by
    intro e hfalse htrue
    rw [hfalse] at htrue
    simp at htrue
  refine Ends.file (fun fault => hplain _ (isReference_ofFault fault)) fun lines hlines => ?_
  refine Ends.file (fun fault => hplain _ (isReference_ofFault fault)) fun decoded hdecoded => ?_
  have hsize : (decoded.map Decoded.offset).toArray.size = decoded.length := by simp
  have hops : ∀ entry ∈ decoded,
      Ends (lowerDecoded ⟨settings, constants, (decoded.map Decoded.offset).toArray⟩ entry)
      (fun insn => Places decoded.length (insn.opcode, insn.operands)) fun e =>
        e.isReference = true → Reversed constants code := by
    intro entry hentry
    refine ((endsPlainly_lowerOp entry.offset
      (Bytecode.decode_pushesWord hdecoded entry hentry)).bind fun lowered hplaces =>
        Ends.pure ?_).mono (fun _ h => h) hplain
    rwa [hsize] at hplaces
  refine (Ends.mapM hops).bind fun instructions hinstructions => ?_
  refine (Ends.mapM fun entry _ => (endsPlainly_lowerHandler _ _ entry).mono
    (fun _ h => h) hplain).bind fun handlers hhandlers => ?_
  have hlength : instructions.length = decoded.length := hinstructions.length_eq.symm
  have hplaces : ∀ insn ∈ instructions, Places decoded.length (insn.opcode, insn.operands) := by
    intro insn hmem
    obtain ⟨entry, -, h⟩ := exists_mem_of_forall₂ hinstructions hmem
    exact h
  have hpositions : ∀ handler ∈ handlers, handler.start < instructions.length ∧
      handler.stop ≤ instructions.length ∧ handler.entry < instructions.length := by
    intro handler hmem
    obtain ⟨entry, -, hspans⟩ := exists_mem_of_forall₂ hhandlers hmem
    have hstart := (List.getElem?_eq_some_iff.mp hspans.start).1
    have hentry := (List.getElem?_eq_some_iff.mp hspans.entry).1
    have hstop : handler.stop ≤ (decoded.map Decoded.offset).length := by
      rcases hspans.stop with ⟨-, hend⟩ | hat
      · exact Nat.le_of_eq hend
      · exact Nat.le_of_lt (List.getElem?_eq_some_iff.mp hat).1
    simp only [List.length_map] at hstart hentry hstop
    omega
  have hvalid : Comes (fun _ => True) (fun e => e.isReference = true → Reversed constants code)
      (Body.validate ⟨instructions, handlers, code.maxStack, code.maxLocals⟩) := by
    cases hcheck : Body.validate ⟨instructions, handlers, code.maxStack, code.maxLocals⟩ with
    | ok _ => trivial
    | error e =>
      intro _
      have htargets : ∀ insn ∈ instructions, ∀ target ∈ insn.targets,
          target < instructions.length := by
        intro insn hmem target htarget
        rw [hlength]
        exact (hplaces insn hmem).2 target htarget
      obtain ⟨handler, hmem, hlt⟩ := exists_reversed_of_validate hcheck htargets hpositions
      obtain ⟨entry, hentry, hspans⟩ := exists_mem_of_forall₂ hhandlers hmem
      exact ⟨decoded, ⟨lines, hlines, hdecoded⟩, entry, hentry, _, _,
        hspans.start, hspans.stop, hlt⟩
  exact Ends.except hvalid fun _ hok _ => Ends.pure ⟨fun insn hmem => (hplaces insn hmem).1, hok⟩

/-- **The emitter is total on lowered bodies.** Whatever the code, the constants and the tables: a
body that comes out of lowering, and the same body without the instructions that do nothing, is laid
out unless it is too long or a `goto` in it leads too far. Lowering itself refuses a reference only
for a range that ends before it starts. -/
theorem lower_outcomes (settings : Settings) (constants : ConstantPool) (code : ClassFile.Code)
    (work : Workspace) :
    (∀ body, (runFrom (lower settings constants code) work).1 = .ok body → ∀ settings' : Settings,
      Body.Outcomes settings' body ∧ Body.Outcomes settings' body.withoutNops) ∧
    ∀ position target,
      (runFrom (lower settings constants code) work).1 =
        .error (.missingInstruction position target) →
      Reversed constants code := by
  have hends := ends_lower settings constants code work
  constructor
  · intro body hbody settings'
    rw [hbody] at hends
    have hregular : body.IsRegular := hends
    exact ⟨hregular.outcomes settings', hregular.withoutNops.outcomes settings'⟩
  · intro position target herror
    rw [herror] at hends
    exact hends rfl

/-- A branch and a jump to the last instruction, over a `nop`; all of it is protected. -/
def jumpSample : ClassFile.Code where
  maxStack := 1
  maxLocals := 0
  bytes := [0x03, 0x99, 0x00, 0x07, 0xa7, 0x00, 0x04, 0x00, 0xb1]
  exceptions := [⟨0, 9, 8, 0⟩]
  attributes := []

/-- What the sample is lowered to. -/
def jumpBody : Body where
  instructions := [⟨.pushShort, 0, .shortImmReg (.value 0) .stack⟩,
    ⟨.branch (.zero .eq), 0, .shortImmReg (.branch 4) .stack⟩, ⟨.goto, 0, .regDisp .pc (.branch 4)⟩,
    ⟨.plain .nop, 0, .bare⟩, ⟨.plain .returnVoid, 0, .bare⟩]
  handlers := [⟨0, 5, 4, none⟩]
  maxStack := 1
  maxLocals := 0

/-- The code without the `nop` is laid out. With a range that ends before it starts it is
refused. -/
theorem jumpSample_outcomes :
    (runFrom (lower {} ⟨.startingAt 1⟩ jumpSample) (.start .empty)).1 = .ok jumpBody ∧
    (∃ assembly, jumpBody.withoutNops.assemble {} = .ok assembly ∧
      assembly.handlers.map Body.placedOffsets = [(0, 13, 12, none)] ∧
      assembly.lines.map (fun entry => (entry.offset.toNat, entry.line)) = [(0, 0)]) ∧
    ∃ decoded, Decodes ⟨.startingAt 1⟩ { jumpSample with exceptions := [⟨4, 1, 8, 0⟩] } decoded ∧
      ∃ start stop, (decoded.map Decoded.offset)[start]? = some 4 ∧
        StopsAt (decoded.map Decoded.offset) 9 1 stop ∧ stop < start := by
  have hbody : (runFrom (lower {} ⟨.startingAt 1⟩ jumpSample) (.start .empty)).1 =
      .ok jumpBody := by
    decide +kernel
  refine ⟨hbody, ?_, ?_⟩
  · have houtcomes :=
      ((lower_outcomes {} ⟨.startingAt 1⟩ jumpSample (.start .empty)).1 jumpBody hbody {}).2
    have hfits : totalSize Instruction.length jumpBody.withoutNops.instructions ≤ 0xFFFF := by
      decide +kernel
    have hnear : ∀ position way, ¬ jumpBody.withoutNops.FarGoto position way := by
      intro position way hfar
      obtain ⟨offset, amount, bits, herror⟩ := (houtcomes.tooFar hfits).mpr ⟨position, way, hfar⟩
      have hok : (jumpBody.withoutNops.assemble {}).isOk = true := by decide +kernel
      rw [herror] at hok
      simp [Except.isOk, Except.toBool] at hok
    obtain ⟨assembly, hassembly, hhandlers, hlines⟩ := houtcomes.laidOut hfits hnear
    exact ⟨assembly, hassembly, hhandlers.trans (by decide +kernel),
      hlines.trans (by decide +kernel)⟩
  · have herror :
        (runFrom (lower {} ⟨.startingAt 1⟩ { jumpSample with exceptions := [⟨4, 1, 8, 0⟩] })
          (.start .empty)).1 = .error (.missingInstruction 5 2) := by decide +kernel
    obtain ⟨decoded, hdecoded, entry, hentry, start, stop, hstart, hstop, hlt⟩ :=
      (lower_outcomes {} ⟨.startingAt 1⟩ { jumpSample with exceptions := [⟨4, 1, 8, 0⟩] }
        (.start .empty)).2 5 2 herror
    obtain rfl := List.mem_singleton.mp hentry
    exact ⟨decoded, hdecoded, start, stop, hstart, hstop, hlt⟩

end Conversion

end ClassImage
