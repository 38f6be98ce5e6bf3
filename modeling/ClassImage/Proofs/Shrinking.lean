import ClassImage.Proofs.Totality

/-!
# Shorter bodies can be laid out too

Folding constants makes instructions shorter, and dropping `nop`s leaves some out. Either way a body
becomes another one in which no instruction takes more bytes than before (`Shrinks`), so the way
from one position to another gets no longer and does not turn around (`Shrinks.toward`). What fitted
its field before fits it afterwards, and a body that could be laid out still can
(`Place.exists_nearer`, `exists_assembly_of_records`). Folding is moreover the same as mapping over
the body that lowering returns (`lower_fold`), so that the tables are the same with it and without
it. Together no method is lost (`shortening_loses_nothing`).
-/

namespace ClassImage

/-- A number lies between zero and another one. -/
def Toward (number other : Int) : Prop := 0 ≤ number ∧ number ≤ other ∨ other ≤ number ∧ number ≤ 0

/-- A range around zero that holds a number holds what lies between zero and it. -/
theorem Toward.within {number other least greatest : Int} (h : Toward number other)
    (hmin : least ≤ other) (hmax : other ≤ greatest) (hzero : least ≤ 0 ∧ 0 ≤ greatest) :
    least ≤ number ∧ number ≤ greatest := by
  rcases h with ⟨hlow, hhigh⟩ | ⟨hlow, hhigh⟩ <;> omega

theorem exists_mapM_of_forall₂ {ε α β γ : Type} {f : α → Except ε γ} {r : β → γ → Prop}
    {as : List α} {bs : List β} (h : List.Forall₂ (fun a b => ∃ c, f a = .ok c ∧ r b c) as bs) :
    ∃ cs, as.mapM f = .ok cs ∧ List.Forall₂ r bs cs := by
  induction h with
  | nil => exact ⟨[], rfl, .nil⟩
  | cons hfirst _ ih =>
    obtain ⟨c, hc, hr⟩ := hfirst
    obtain ⟨cs, hcs, hrs⟩ := ih
    refine ⟨c :: cs, ?_, .cons hr hrs⟩
    rw [List.mapM_cons, hc, hcs]
    rfl

namespace Body

open Conversion (Error Settings)
open Image (Opcode Record)

/-! ### Ways get shorter -/

/-- A body becomes another one in which no instruction is longer: `move` says where a position goes,
and what lies between a position and the next takes at most as many bytes as the instruction did. -/
structure Shrinks (body body' : Body) (move : Nat → Nat) : Prop where
  first : move 0 = 0
  last : move body.instructions.length = body'.instructions.length
  step : ∀ p insn, body.instructions[p]? = some insn →
    body'.offsetAt (move p) ≤ body'.offsetAt (move (p + 1)) ∧
    body'.offsetAt (move (p + 1)) ≤ body'.offsetAt (move p) + insn.length

theorem offsetAt_length (body : Body) : body.offsetAt body.instructions.length = body.stop := by
  rw [offsetAt, List.take_length]
  rfl

namespace Shrinks

variable {body body' : Body} {move : Nat → Nat}

/-- Between two positions there are at most as many bytes as before, by induction on how far they
are apart. -/
theorem between (h : Shrinks body body' move) {p n : Nat} (hle : p + n ≤ body.instructions.length) :
    body'.offsetAt (move p) ≤ body'.offsetAt (move (p + n)) ∧
      body'.offsetAt (move (p + n)) + body.offsetAt p ≤
        body'.offsetAt (move p) + body.offsetAt (p + n) := by
  induction n with
  | zero => exact ⟨Nat.le_refl _, Nat.le_refl _⟩
  | succ n ih =>
    obtain ⟨hlow, hhigh⟩ := ih (by omega)
    have hinsn := List.getElem?_eq_getElem (show p + n < body.instructions.length by omega)
    have hstep := h.step (p + n) _ hinsn
    have hnext := offsetAt_succ hinsn
    rw [← Nat.add_assoc]
    omega

/-- **Ways get shorter and keep their direction.** -/
theorem toward (h : Shrinks body body' move) {p q : Nat} (hp : p ≤ body.instructions.length)
    (hq : q ≤ body.instructions.length) :
    Toward (body'.wayTo (move p) (move q)) (body.wayTo p q) := by
  rw [wayTo, wayTo]
  rcases Nat.le_total p q with hle | hle
  · obtain ⟨n, rfl⟩ := Nat.exists_eq_add_of_le hle
    have hbetween := h.between hq
    left
    omega
  · obtain ⟨n, rfl⟩ := Nat.exists_eq_add_of_le hle
    have hbetween := h.between hp
    right
    omega

theorem stop_le (h : Shrinks body body' move) : body'.stop ≤ body.stop := by
  have hzero : ∀ body : Body, body.offsetAt 0 = 0 := fun _ => rfl
  have hbetween := h.between (p := 0) (Nat.le_of_eq (Nat.zero_add body.instructions.length))
  rw [Nat.zero_add, h.first, h.last, hzero, hzero, offsetAt_length, offsetAt_length] at hbetween
  omega

end Shrinks

/-! ### Displacements still fit -/

/-- A number is the same, or it is the distance to an instruction and got no longer. -/
def Displacement.Nears : Displacement → Int → Int → Prop
  | value _, old, new => new = old
  | branch _, old, new => Toward new old

/-- A parameter of a switch is the same number, or the distance to an instruction, which got no
longer. -/
inductive NearerParameter : Record → Record → Prop where
  | values (hi lo : UInt16) : NearerParameter (.values hi lo) (.values hi lo)
  | target {old new : Int32} (htoward : Toward new.toInt old.toInt) :
    NearerParameter (.target old) (.target new)

/-- The records of an instruction with the given operands are the same but for the distances to
other instructions, which got no longer and did not change their sign. -/
inductive Nearer : Operands → List Record → List Record → Prop where
  | bare {record : Record} : Nearer .bare [record] [record]
  | regDisp {reg : Register} {disp : Displacement} {opcode : Opcode} {number : UInt8}
    {old new : Int16} (hnears : disp.Nears old.toInt new.toInt) :
    Nearer (.regDisp reg disp) [.regDisp opcode number old] [.regDisp opcode number new]
  | shortImmReg {imm : Displacement} {reg : Register} {opcode : Opcode} {field : UInt8}
    {old new : Int32} (hnears : imm.Nears old.toInt new.toInt) :
    Nearer (.shortImmReg imm reg) [.shortImmReg opcode old field] [.shortImmReg opcode new field]
  | two16 {hi lo : UInt16} {record : Record} : Nearer (.two16 hi lo) [record] [record]
  | switch {key : Register} {parameters : List Parameter} {header : Record} {old new : List Record}
    (hparameters : List.Forall₂ NearerParameter old new) :
    Nearer (.switch key parameters) (header :: old) (header :: new)

namespace Place

variable {body body' : Body} {move : Nat → Nat} {p p' : Nat}

/-- A displacement that fitted its field fits it when it is shorter. -/
theorem exists_resolve {disp : Displacement} {amount least greatest : Int}
    (h : (body.placeAt p).resolve disp = .ok amount) (hmin : least ≤ amount)
    (hmax : amount ≤ greatest) (hzero : least ≤ 0 ∧ 0 ≤ greatest)
    (hinside : ∀ target ∈ disp.targets, move target < body'.instructions.length)
    (htoward : ∀ target ∈ disp.targets, Toward (body'.wayTo p' (move target))
      (body.wayTo p target)) :
    ∃ amount', (body'.placeAt p').resolve (disp.mapTarget move) = .ok amount' ∧
      disp.Nears amount amount' ∧
      least ≤ amount' ∧ amount' ≤ greatest := by
  cases disp with
  | value number => exact ⟨amount, h, rfl, hmin, hmax⟩
  | branch target =>
    obtain rfl := eq_wayTo h
    have hnear := htoward target List.mem_cons_self
    exact ⟨_, distance_placeAt (hinside target List.mem_cons_self), hnear,
      hnear.within hmin hmax hzero⟩

theorem exists_nearerParameter {insn : Instruction} {param : Parameter} {index : Nat}
    {record : Record}
    (h : (body.placeAt p).MakesParameter (insn.opcode.isTargetParameter index) param record)
    (hinside : ∀ target ∈ param.target?, move target < body'.instructions.length)
    (htoward : ∀ target ∈ param.target?, Toward (body'.wayTo p' (move target))
      (body.wayTo p target)) :
    ∃ record', (body'.placeAt p').parameter insn (param.mapTarget move) index = .ok record' ∧
      NearerParameter record record' := by
  generalize hkind : insn.opcode.isTargetParameter index = isTarget at h
  cases h with
  | values hi lo =>
    refine ⟨.values hi lo, ?_, .values hi lo⟩
    simp only [Place.parameter, Parameter.mapTarget, hkind]
  | @target target disp hdistance =>
    have hmin : -0x80000000 ≤ disp.toInt := disp.minValue_le_toInt
    have hmax : disp.toInt ≤ 0x7FFFFFFF := disp.toInt_le
    have hnear := htoward target rfl
    rw [← eq_wayTo hdistance] at hnear
    obtain ⟨hlow, hhigh⟩ := hnear.within hmin hmax (by decide)
    refine ⟨.target (Int32.ofInt (body'.wayTo p' (move target))), ?_, .target ?_⟩
    · simp only [Place.parameter, Parameter.mapTarget, hkind,
        distance_placeAt (hinside target rfl), bind, Except.bind]
      rw [fit_of_le hlow hhigh]
      rfl
    · rwa [Int32.toInt_ofInt_of_le (by omega) (by omega)]

/-- **An instruction that could be laid out still can when its ways get shorter.** -/
theorem exists_nearer {insn : Instruction} {group : List Record}
    (h : (body.placeAt p).Makes insn group)
    (hinside : ∀ target ∈ insn.targets, move target < body'.instructions.length)
    (htoward : ∀ target ∈ insn.targets, Toward (body'.wayTo p' (move target))
      (body.wayTo p target)) :
    ∃ group', (body'.placeAt p').records (insn.mapTargets move) = .ok group' ∧
      Nearer insn.operands group group' := by
  obtain ⟨opcode, line, operands⟩ := insn
  cases h with
  | bare hop hinsn =>
    obtain rfl : operands = .bare := hinsn
    refine ⟨[.bare opcode], ?_, .bare⟩
    simp only [Place.records, Instruction.mapTargets, Operands.mapTargets, hop]
  | @regDisp hop reg disp hinsn amount hamount =>
    obtain rfl : operands = .regDisp reg disp := hinsn
    have hmin : -0x8000 ≤ amount.toInt := amount.minValue_le_toInt
    have hmax : amount.toInt ≤ 0x7FFF := amount.toInt_le
    obtain ⟨amount', hresolve, hnears, hlow, hhigh⟩ :=
      exists_resolve hamount hmin hmax (by decide) hinside htoward
    refine ⟨[.regDisp opcode reg.number (Int16.ofInt amount')], ?_, .regDisp ?_⟩
    · simp only [Place.records, Instruction.mapTargets, Operands.mapTargets, hop, hresolve,
        bind, Except.bind]
      rw [fit_of_le hlow hhigh]
      rfl
    · rwa [Int16.toInt_ofInt_of_le (by omega) (by omega)]
  | @shortImmReg hop imm reg hinsn field hfield amount hamount hmin hmax =>
    obtain rfl : operands = .shortImmReg imm reg := hinsn
    obtain ⟨amount', hresolve, hnears, hlow, hhigh⟩ :=
      exists_resolve hamount hmin hmax (by decide) hinside htoward
    refine ⟨[.shortImmReg opcode (Int32.ofInt amount') field], ?_, .shortImmReg ?_⟩
    · simp only [Place.records, Instruction.mapTargets, Operands.mapTargets, hop,
        hfield, hresolve, bind, Except.bind]
      rw [fit_of_le hlow hhigh]
      rfl
    · rw [Record.shortMin] at hlow
      rw [Record.shortMax] at hhigh
      rwa [Int32.toInt_ofInt_of_le (by omega) (by omega)]
  | @two16 hop hi lo hinsn =>
    obtain rfl : operands = .two16 hi lo := hinsn
    refine ⟨[.two16 opcode hi lo], ?_, .two16⟩
    simp only [Place.records, Instruction.mapTargets, Operands.mapTargets, hop]
  | @switch hop key parameters hinsn count hcount records hrecords =>
    obtain rfl : operands = .switch key parameters := hinsn
    have hlt := count.toNat_lt
    have htargets : ∀ param ∈ parameters.zipIdx, ∀ target ∈ param.1.target?,
        target ∈ (Operands.switch key parameters).targets := by
      intro param hparam target htarget
      have hmem := List.mem_of_getElem? (List.mem_zipIdx_iff_getElem?.mp hparam)
      exact List.mem_filterMap.mpr ⟨param.1, hmem, htarget⟩
    have hparameters : List.Forall₂ (fun param record => ∃ record',
        (body'.placeAt p').parameter (Instruction.mapTargets move
          ⟨opcode, line, .switch key parameters⟩) param.1 param.2 = .ok record' ∧
            NearerParameter record record')
        (parameters.map (Parameter.mapTarget move)).zipIdx records := by
      rw [List.zipIdx_map, List.forall₂_map_left_iff]
      refine ((List.forall₂_and_left _ _).mpr ⟨htargets, hrecords⟩).imp fun param record hboth => ?_
      exact exists_nearerParameter hboth.2 (fun target htarget =>
        hinside target (hboth.1 target htarget)) fun target htarget =>
          htoward target (hboth.1 target htarget)
    obtain ⟨records', hmap, hnear⟩ := exists_mapM_of_forall₂ hparameters
    refine ⟨.switchHeader opcode key.number count :: records', ?_, .switch hnear⟩
    simp only [Place.records, Instruction.mapTargets, Operands.mapTargets, hop, List.length_map,
      if_pos (show parameters.length ≤ 0xFFFF by omega)]
    simp only [Instruction.mapTargets, Operands.mapTargets] at hmap
    rw [hmap, ← hcount, UInt16.ofNat_toNat]
    rfl

end Place

/-- A valid body that is not too long is laid out if all of its instructions are. -/
theorem exists_assembly_of_records {body : Body} (hvalid : body.validate = .ok ())
    (hstop : body.stop ≤ 0xFFFF) (hrecords : ∀ p insn, body.instructions[p]? = some insn →
      ∃ group, (body.placeAt p).records insn = .ok group) (settings : Settings) :
    ∃ assembly, body.assemble settings = .ok assembly := by
  obtain ⟨groups, hgroups⟩ : ∃ groups, body.groups = .ok groups := by
    refine exists_mapM_eq_ok fun placed hmem => ?_
    obtain ⟨i, hi⟩ := List.mem_iff_getElem?.mp hmem
    have hlt := (List.getElem?_eq_some_iff.mp hi).1
    rw [List.length_zipIdx, List.length_zip, length_starts, Nat.min_self] at hlt
    have hinsn := List.getElem?_eq_getElem hlt
    obtain rfl := Option.some.inj ((getElem?_placed hinsn).symm.trans hi)
    exact hrecords i _ hinsn
  obtain ⟨assembly, hassembly, -⟩ := exists_assembly hvalid settings hstop hgroups
  exact ⟨assembly, hassembly⟩

/-- The records of an instruction are made at its position. -/
theorem IsAssembly.exists_makes {settings : Settings} {body : Body} {assembly : Assembly}
    {groups : List (List Record)} (h : IsAssembly settings body assembly groups) {p : Nat}
    {insn : Instruction} (hinsn : body.instructions[p]? = some insn) :
    ∃ group, groups[p]? = some group ∧ (body.placeAt p).Makes insn group := by
  obtain ⟨offset, group, hstart, hgroup, hmakes⟩ := h.exists_group hinsn
  rw [getElem?_starts (List.getElem?_eq_some_iff.mp hinsn).1] at hstart
  obtain rfl := Option.some.inj hstart
  exact ⟨group, hgroup, hmakes⟩

/-! ### Dropping `nop`s -/

theorem Instruction.length_mapTargets (insn : Instruction) (f : Nat → Nat) :
    (insn.mapTargets f).length = insn.length := by
  obtain ⟨opcode, line, operands⟩ := insn
  cases operands with
  | switch key parameters =>
    show _ + (parameters.map (Parameter.mapTarget f)).length * _ = _
    rw [List.length_map]
    rfl
  | _ => rfl

/-- What goes takes no bytes any more, and what stays takes as many as before. -/
theorem shrinks_withoutNops (body : Body) : Shrinks body body.withoutNops body.survivorsBefore where
  first := rfl
  last := by rw [length_withoutNops, survivorsBefore_of_length_le (Nat.le_refl _)]
  step := by
    intro p insn hinsn
    have hlt : p < body.keep.length := by
      rw [length_keep]
      exact (List.getElem?_eq_some_iff.mp hinsn).1
    have hkeep := List.getElem?_eq_getElem hlt
    rw [survivorsBefore_succ hkeep]
    cases hstays : body.keep[p] with
    | false => exact ⟨Nat.le_refl _, Nat.le_add_right _ _⟩
    | true =>
      rw [hstays] at hkeep
      rw [if_pos rfl, offsetAt_succ (withoutNops_getElem? hinsn hkeep),
        Instruction.length_mapTargets]
      exact ⟨Nat.le_add_right _ _, Nat.le_refl _⟩

/-- Every place of what is left is taken by something that stays. -/
theorem exists_keep_of_lt {body : Body} {n : Nat} (h : n < body.keep.count true) :
    ∃ p, body.keep[p]? = some true ∧ body.survivorsBefore p = n := by
  induction n with
  | zero =>
    have hstart : body.survivorsBefore 0 < body.keep.count true := h
    obtain ⟨p, -, hkeep, -, hmoved⟩ := exists_keep_of_survivorsBefore_lt hstart
    exact ⟨p, hkeep, hmoved⟩
  | succ n ih =>
    obtain ⟨p, hkeep, hmoved⟩ := ih (Nat.lt_of_succ_lt h)
    have hnext : body.survivorsBefore (p + 1) = n + 1 := by
      rw [survivorsBefore_succ hkeep, hmoved, if_pos rfl]
    obtain ⟨q, -, hkeep', -, hmoved'⟩ := exists_keep_of_survivorsBefore_lt (hnext ▸ h)
    exact ⟨q, hkeep', hmoved'.trans hnext⟩

/-- The records of an instruction that stays. -/
theorem exists_nearer_withoutNops {settings : Settings} {body : Body} {assembly : Assembly}
    {groups : List (List Record)} (hvalid : body.validate = .ok ())
    (h : IsAssembly settings body assembly groups) {p : Nat} {insn : Instruction}
    (hinsn : body.instructions[p]? = some insn) :
    ∃ group group', groups[p]? = some group ∧
      (body.withoutNops.placeAt (body.survivorsBefore p)).records
        (insn.mapTargets body.survivorsBefore) =
        .ok group' ∧ Nearer insn.operands group group' := by
  have hlt := (List.getElem?_eq_some_iff.mp hinsn).1
  have hmem := List.mem_of_getElem? hinsn
  have htargets := ((validate_eq_ok_iff body).mp hvalid).1 insn hmem
  obtain ⟨group, hgroup, hmakes⟩ := h.exists_makes hinsn
  obtain ⟨group', hgroup', hnear⟩ := Place.exists_nearer hmakes
    (fun target ht => survivorsBefore_lt_of_mem_references (htargets target ht)
      (mem_references_of_mem_targets hmem ht))
    fun target ht => (shrinks_withoutNops body).toward (Nat.le_of_lt hlt)
      (Nat.le_of_lt (htargets target ht))
  exact ⟨group, group', hgroup, hgroup', hnear⟩

/-- **A valid body that could be laid out still can without its `nop`s.** -/
theorem exists_assembly_withoutNops {settings : Settings} {body : Body} {assembly : Assembly}
    {groups : List (List Record)} (hvalid : body.validate = .ok ())
    (h : IsAssembly settings body assembly groups) :
    ∃ assembly', body.withoutNops.assemble settings = .ok assembly' := by
  have hstop := Nat.le_trans (shrinks_withoutNops body).stop_le h.stop_le
  refine exists_assembly_of_records (validate_withoutNops hvalid) hstop ?_ settings
  intro n insn' hinsn'
  have hlt := (List.getElem?_eq_some_iff.mp hinsn').1
  rw [length_withoutNops] at hlt
  obtain ⟨p, hkeep, rfl⟩ := exists_keep_of_lt hlt
  have hp := (List.getElem?_eq_some_iff.mp hkeep).1
  rw [length_keep] at hp
  have hinsn := List.getElem?_eq_getElem hp
  rw [withoutNops_getElem? hinsn hkeep, Option.some.injEq] at hinsn'
  subst hinsn'
  obtain ⟨-, group', -, hgroup', -⟩ := exists_nearer_withoutNops hvalid h hinsn
  exact ⟨group', hgroup'⟩

/-- The code of a body without its `nop`s is no longer than the one with them. It has an instruction
for each one that stays, with the same records but for distances, which got no longer and did not
change their sign. -/
structure Shortened (body : Body) (old new : Bytes) : Prop where
  length_le : new.length ≤ old.length
  instructions : ∃ records records', Image.disassemble old = .ok records ∧
    Image.disassemble new = .ok records' ∧
    (Image.grouped records'.toList).length = body.keep.count true ∧
    ∀ p insn, body.instructions[p]? = some insn → body.keep[p]? = some true →
      ∃ start group start' group', (Image.grouped records.toList)[p]? = some (start, group) ∧
        (Image.grouped records'.toList)[body.survivorsBefore p]? = some (start', group') ∧
        Nearer insn.operands group group'

/-- An instruction has no other records than those that it is laid out as. -/
theorem eq_of_makes {body : Body} {p : Nat} {insn : Instruction} {group group' : List Record}
    (h : (body.placeAt p).Makes insn group) (h' : (body.placeAt p).Makes insn group') :
    group = group' :=
  List.map_injective_iff.mpr Record.reading_injective
    ((readings_of_makes h).trans (readings_of_makes h').symm)

theorem shortened_withoutNops {settings : Settings} {body : Body} {assembly assembly' : Assembly}
    {groups groups' : List (List Record)} (hvalid : body.validate = .ok ())
    (h : IsAssembly settings body assembly groups)
    (h' : IsAssembly settings body.withoutNops assembly' groups') :
    Shortened body assembly.code assembly'.code where
  length_le := by
    rw [h.length_code, h'.length_code]
    exact (shrinks_withoutNops body).stop_le
  instructions := by
    obtain ⟨records, hrecords, -, hgrouped⟩ := h.disassemble
    obtain ⟨records', hrecords', -, hgrouped'⟩ := h'.disassemble
    refine ⟨records, records', hrecords, hrecords', ?_, fun p insn hinsn hkeep => ?_⟩
    · rw [hgrouped', List.length_zip, length_starts, h'.length_groups, Nat.min_self,
        length_withoutNops]
    · have hmoved := withoutNops_getElem? hinsn hkeep
      obtain ⟨group, group', hgroup, hgroup', hnear⟩ := exists_nearer_withoutNops hvalid h hinsn
      obtain ⟨group'', hgroup'', hmakes⟩ := h'.exists_makes hmoved
      obtain rfl := eq_of_makes (Place.records_ok hgroup') hmakes
      refine ⟨body.offsetAt p, group, body.withoutNops.offsetAt (body.survivorsBefore p),
        group', ?_, ?_, hnear⟩
      · rw [hgrouped]
        exact List.getElem?_zip_eq_some.mpr
          ⟨getElem?_starts (List.getElem?_eq_some_iff.mp hinsn).1, hgroup⟩
      · rw [hgrouped']
        exact List.getElem?_zip_eq_some.mpr
          ⟨getElem?_starts (List.getElem?_eq_some_iff.mp hmoved).1, hgroup''⟩

end Body

/-! ### Folding constants -/

namespace Conversion

open ClassFile (ConstantPool Code)
open Bytecode (Op Decoded)
open Body (Instruction Operands)
open Image (Opcode)

/-- Pushes an int by the short instruction if it fits. -/
def foldPush : Opcode × Operands → Opcode × Operands
  | (.pushInt, .two16 hi lo) =>
    if isShort (ofHalves hi lo).toInt32 then pushShort (ofHalves hi lo).toInt32
      else (.pushInt, .two16 hi lo)
  | other => other

/-- The instruction with its constant folded. -/
def folded (insn : Instruction) : Instruction :=
  { insn with
    opcode := (foldPush (insn.opcode, insn.operands)).1
    operands := (foldPush (insn.opcode, insn.operands)).2 }

/-- The body with all constants folded. -/
def foldedBody (body : Body) : Body := { body with instructions := body.instructions.map folded }

/-- An instruction is the same with its constant folded, unless it pushes an int that fits. -/
theorem folded_cases (insn : Instruction) :
    folded insn = insn ∨ ∃ hi lo value, insn.opcode = .pushInt ∧
    insn.operands = .two16 hi lo ∧ isShort value = true ∧
    folded insn = ⟨.pushShort, insn.line, .shortImmReg (.value value) .stack⟩ := by
  obtain ⟨opcode, line, operands⟩ := insn
  by_cases hpush : opcode = .pushInt ∧ operands.format = .two16
  · obtain ⟨rfl, hformat⟩ := hpush
    cases operands with
    | two16 hi lo =>
      by_cases hshort : isShort (ofHalves hi lo).toInt32 = true
      · refine Or.inr ⟨hi, lo, _, rfl, rfl, hshort, ?_⟩
        simp only [folded, foldPush, if_pos hshort]
        rfl
      · refine Or.inl ?_
        simp only [folded, foldPush, if_neg hshort]
    | _ => simp [Operands.format] at hformat
  · have hsame : foldPush (opcode, operands) = (opcode, operands) := by
      unfold foldPush
      split
      · rename_i heq
        obtain ⟨rfl, rfl⟩ := Prod.mk.inj heq
        exact absurd ⟨rfl, rfl⟩ hpush
      · rfl
    exact Or.inl (by rw [folded, hsame])

theorem targets_folded (insn : Instruction) : (folded insn).targets = insn.targets := by
  rcases folded_cases insn with hsame | ⟨hi, lo, value, -, hoperands, -, hfolded⟩
  · rw [hsame]
  · rw [hfolded, Instruction.targets, Instruction.targets, hoperands]
    rfl

theorem length_folded_le (insn : Instruction) : (folded insn).length ≤ insn.length := by
  rcases folded_cases insn with hsame | ⟨hi, lo, value, hopcode, hoperands, -, hfolded⟩
  · exact Nat.le_of_eq (congrArg Instruction.length hsame)
  · rw [hfolded, Instruction.length, Instruction.length, hoperands, hopcode]
    show Image.Format.shortImmReg.length ≤ Image.Format.two16.length
    decide

theorem validate_foldedBody (body : Body) : (foldedBody body).validate = body.validate := by
  have hbad : ∀ length, Body.badReferences length (body.instructions.map folded).zipIdx =
      Body.badReferences length body.instructions.zipIdx := by
    intro length
    simp only [Body.badReferences, List.zipIdx_map, List.flatMap_map, Prod.map, targets_folded, id]
  simp only [Body.validate, foldedBody, List.length_map, hbad]

section Lowering

/-- The context with constants folded or not. -/
def Context.folding (context : Context) (fold : Bool) : Context :=
  { context with settings := { context.settings with foldConstants := fold } }

/-- An int that fits is folded, whatever pushes it. -/
theorem foldPush_wordOperands (value : Int32) : foldPush (.pushInt, wordOperands value.toUInt32) =
    if isShort value then pushShort value else (.pushInt, wordOperands value.toUInt32) := by
  show (if isShort (ofHalves (halves value.toUInt32).1 (halves value.toUInt32).2).toInt32
    then pushShort (ofHalves (halves value.toUInt32).1 (halves value.toUInt32).2).toInt32
    else (.pushInt, wordOperands value.toUInt32)) = _
  rw [ofHalves_halves, Int32.toInt32_toUInt32]

theorem lowerLoad_fold (context : Context) (isWide : Bool) (index : UInt16) :
    lowerLoad (context.folding true) isWide index =
      foldPush <$> lowerLoad (context.folding false) isWide index := by
  rw [lowerLoad, lowerLoad, map_bind]
  refine bind_congr fun constant => ?_
  cases isWide <;> cases constant
  case false.integer value =>
    simp only [Context.folding, Bool.true_and, Bool.false_and, Bool.false_eq_true, if_false]
    rw [map_pure, foldPush_wordOperands]
    split <;> rfl
  all_goals simp [Context.folding, Context.classAt, foldPush]

theorem lowerOp_fold (context : Context) (offset : Nat) (op : Op) :
    lowerOp (context.folding true) offset op = foldPush <$> lowerOp
      (context.folding false) offset op := by
  cases op with
  | load isWide index => exact lowerLoad_fold context isWide index
  | plain | pushInt | newArray | invokeDynamic => rfl
  | localVar operation slot =>
    cases operation with
    | ret => rfl
    | load kind | store kind =>
      rw [lowerOp, lowerOp, map_bind]
      rfl
  | branch jump target =>
    cases jump with
    | jsr => rfl
    | when condition | goto =>
      rw [lowerOp, lowerOp, map_bind]
      rfl
  | increment | tableSwitch | lookupSwitch | onClass | newMultiArray =>
    rw [lowerOp, lowerOp, map_bind]
    rfl
  | field access index | invoke call index =>
    rw [lowerOp, lowerOp, map_bind]
    refine bind_congr fun ref => ?_
    rw [map_bind]
    rfl

theorem lowerDecoded_fold (context : Context) (decoded : Decoded) :
    lowerDecoded (context.folding true) decoded = folded <$> lowerDecoded
      (context.folding false) decoded := by
  rw [lowerDecoded, lowerDecoded, lowerOp_fold, map_bind, bind_map_left]
  rfl

theorem mapM_map {m : Type → Type} [Monad m] [LawfulMonad m] {α β γ : Type} (f : α → m β)
    (g : β → γ) (as : List α) : as.mapM (fun a => g <$> f a) = List.map g <$> as.mapM f := by
  induction as with
  | nil => simp
  | cons a as ih => simp [ih]

/-- **Folding constants changes no step of a conversion**, only the body that comes out of it. -/
theorem lower_fold (settings : Settings) (constants : ConstantPool) (code : Code) :
    lower { settings with foldConstants := true } constants code =
      foldedBody <$> lower { settings with foldConstants := false } constants code := by
  rw [lower, lower, map_bind]
  refine bind_congr fun lines => ?_
  rw [map_bind]
  refine bind_congr fun decoded => ?_
  let context : Context := ⟨settings, constants, (decoded.map Decoded.offset).toArray⟩
  have hinstructions : decoded.mapM (lowerDecoded (context.folding true)) =
      List.map folded <$> decoded.mapM (lowerDecoded (context.folding false)) := by
    rw [← mapM_map]
    exact congrArg (fun f => decoded.mapM f) (funext (lowerDecoded_fold context))
  change decoded.mapM (lowerDecoded (context.folding true)) >>= _ =
    foldedBody <$> (decoded.mapM (lowerDecoded (context.folding false)) >>= _)
  rw [hinstructions, map_bind, bind_map_left]
  refine bind_congr fun instructions => ?_
  rw [map_bind]
  refine bind_congr fun handlers => ?_
  have hvalid := validate_foldedBody ⟨instructions, handlers, code.maxStack, code.maxLocals⟩
  rw [foldedBody] at hvalid
  dsimp only at hvalid ⊢
  rw [hvalid, map_bind]
  rfl

end Lowering

/-! ### Folding is lossless -/

theorem runFrom_map {α β : Type} (f : α → β) (step : Convert α) (work : Workspace) :
    runFrom (f <$> step) work = ((runFrom step work).1.map f, (runFrom step work).2) := by
  rw [map_eq_pure_bind, runFrom_bind]
  rcases runFrom step work with ⟨e | a, after⟩ <;> rfl

theorem getElem?_foldedBody {body : Body} {p : Nat} {insn : Instruction}
    (h : body.instructions[p]? = some insn) :
    (foldedBody body).instructions[p]? = some (folded insn) := by
  rw [foldedBody, List.getElem?_map, h, Option.map_some]

/-- No instruction gets longer when constants are folded. -/
theorem shrinks_foldedBody (body : Body) : Body.Shrinks body (foldedBody body) id where
  first := rfl
  last := (List.length_map ..).symm
  step := by
    intro p insn hinsn
    have hle := length_folded_le insn
    have hnext := Body.offsetAt_succ (getElem?_foldedBody hinsn)
    simp only [id]
    omega

/-- An instruction that could be laid out still can with its constant folded. -/
theorem exists_records_folded {body : Body} {p : Nat} {insn : Instruction}
    {group : List Image.Record} (hinsn : body.instructions[p]? = some insn)
    (hmakes : (body.placeAt p).Makes insn group)
    (htargets : ∀ target ∈ insn.targets, target < body.instructions.length) :
    ∃ group', ((foldedBody body).placeAt p).records (folded insn) = .ok group' := by
  have hlength : (foldedBody body).instructions.length = body.instructions.length :=
    List.length_map ..
  have hlt := (List.getElem?_eq_some_iff.mp hinsn).1
  rcases folded_cases insn with hsame | ⟨hi, lo, value, -, -, hshort, hfolded⟩
  · have hself : insn.mapTargets (fun target => target) = folded insn := by
      rw [hsame, Body.Instruction.mapTargets_eq_self fun _ _ => rfl]
    obtain ⟨group', hgroup', -⟩ := Body.Place.exists_nearer hmakes
      (fun target ht => Nat.lt_of_lt_of_eq (htargets target ht) hlength.symm)
      fun target ht => (shrinks_foldedBody body).toward (Nat.le_of_lt hlt)
        (Nat.le_of_lt (htargets target ht))
    rw [hself] at hgroup'
    exact ⟨group', hgroup'⟩
  · rw [isShort, Bool.and_eq_true, decide_eq_true_eq, decide_eq_true_eq] at hshort
    refine ⟨[.shortImmReg .pushShort (Int32.ofInt value.toInt) Image.Record.shortRegMax], ?_⟩
    have hformat : Opcode.pushShort.format = .shortImmReg := rfl
    have hfield : Body.Register.shortField? .stack = some Image.Record.shortRegMax := rfl
    rw [hfolded]
    simp only [Body.Place.records, hformat, hfield, Body.Place.resolve, bind, Except.bind]
    rw [Body.fit_of_le hshort.1 hshort.2]
    rfl

/-- **A body that could be laid out still can with its constants folded.** -/
theorem exists_assembly_foldedBody {settings : Settings} {body : Body} {assembly : Body.Assembly}
    {groups : List (List Image.Record)} (hvalid : body.validate = .ok ())
    (h : Body.IsAssembly settings body assembly groups) (settings' : Settings) :
    ∃ assembly', (foldedBody body).assemble settings' = .ok assembly' := by
  have hvalid' : (foldedBody body).validate = .ok () := (validate_foldedBody body).trans hvalid
  have hstop := Nat.le_trans (shrinks_foldedBody body).stop_le h.stop_le
  refine Body.exists_assembly_of_records hvalid' hstop ?_ settings'
  intro p insn' hinsn'
  rw [foldedBody, List.getElem?_map, Option.map_eq_some_iff] at hinsn'
  obtain ⟨insn, hinsn, rfl⟩ := hinsn'
  obtain ⟨group, -, hmakes⟩ := h.exists_makes hinsn
  exact exists_records_folded hinsn hmakes
    (((Body.validate_eq_ok_iff body).mp hvalid).1 insn (List.mem_of_getElem? hinsn))

theorem validate_of_lower {settings : Settings} {constants : ConstantPool} {code : Code}
    {work : Workspace} {body : Body}
    (h : (runFrom (lower settings constants code) work).1 = .ok body) : body.validate = .ok () := by
  have hends := ends_lower settings constants code work
  rw [h] at hends
  exact hends.valid

/-- **Shortening code loses no method.** If code can be lowered and laid out with constants as they
are, then also with constants folded; the tables are then the same, and the code is no longer. If a
valid body can be laid out, then also without its `nop`s; the code is then no longer, and no
distance that it holds changed its sign or got longer. -/
theorem shortening_loses_nothing (settings : Settings) :
    (∀ (constants : ConstantPool) (code : Code) (work : Workspace) (body : Body)
      (assembly : Body.Assembly),
        (runFrom (lower { settings with foldConstants := false } constants code) work).1 =
          .ok body →
      body.assemble { settings with foldConstants := false } = .ok assembly →
      ∃ body' assembly',
        runFrom (lower { settings with foldConstants := true } constants code) work =
          (.ok body',
            (runFrom (lower { settings with foldConstants := false } constants code) work).2) ∧
        body'.assemble { settings with foldConstants := true } = .ok assembly' ∧
        assembly'.code.length ≤ assembly.code.length) ∧
    ∀ (body : Body) (assembly : Body.Assembly), body.validate = .ok () →
      body.assemble settings = .ok assembly →
      ∃ assembly', body.withoutNops.assemble settings = .ok assembly' ∧
        body.Shortened assembly.code assembly'.code := by
  constructor
  · intro constants code work body assembly hbody hassembly
    obtain ⟨groups, hgroups⟩ := Body.assemble_ok hassembly
    obtain ⟨assembly', hassembly'⟩ := exists_assembly_foldedBody (validate_of_lower hbody) hgroups
      { settings with foldConstants := true }
    obtain ⟨groups', hgroups'⟩ := Body.assemble_ok hassembly'
    refine ⟨foldedBody body, assembly', ?_, hassembly', ?_⟩
    · rw [lower_fold, runFrom_map, hbody]
      rfl
    · rw [hgroups.length_code, hgroups'.length_code]
      exact (shrinks_foldedBody body).stop_le
  · intro body assembly hvalid hassembly
    obtain ⟨groups, hgroups⟩ := Body.assemble_ok hassembly
    obtain ⟨assembly', hassembly'⟩ := Body.exists_assembly_withoutNops hvalid hgroups
    obtain ⟨groups', hgroups'⟩ := Body.assemble_ok hassembly'
    exact ⟨assembly', hassembly', Body.shortened_withoutNops hvalid hgroups hgroups'⟩

/-- The constant pool that holds the number 5 alone. -/
def loadConstants : ConstantPool := ⟨Layout.ofList 1 [.integer 5]⟩

/-- Loads the constant, drops it and jumps back. -/
def loadSample : Code where
  maxStack := 1
  maxLocals := 0
  bytes := [0x12, 0x01, 0x57, 0xa7, 0xff, 0xfd]
  exceptions := []
  attributes := []

/-- What the sample is lowered to with its constant as it is. -/
def loadBody : Body where
  instructions :=
    [⟨.pushInt, 0, .two16 0 5⟩, ⟨.plain .pop, 0, .bare⟩, ⟨.goto, 0, .regDisp .pc (.branch 0)⟩]
  handlers := []
  maxStack := 1
  maxLocals := 0

/-- A branch forward, a jump back and a switch with targets on both sides, with `nop`s between
them. -/
def spacedSample : Body where
  instructions :=
    [⟨.branch (.zero .eq), 1, .shortImmReg (.branch 4) .stack⟩, ⟨.plain .nop, 1, .bare⟩,
      ⟨.goto, 2, .regDisp .pc (.branch 0)⟩, ⟨.plain .nop, 2, .bare⟩,
    ⟨.lookupSwitch, 2, .switch .stack [.target 6, .values 0 7, .target 2]⟩, ⟨.plain .nop, 3, .bare⟩,
    ⟨.plain .returnVoid, 3, .bare⟩]
  handlers := []
  maxStack := 1
  maxLocals := 0

/-- The constant of one sample is folded and the three `nop`s of the other are dropped. -/
theorem samples_shortened :
    (runFrom (lower { foldConstants := false } loadConstants loadSample) (.start .empty)).1 =
      .ok loadBody ∧
    (∃ assembly, loadBody.assemble { foldConstants := false } = .ok assembly ∧
      assembly.code.length = 10) ∧
    (∃ body' assembly', runFrom (lower { foldConstants := true } loadConstants loadSample)
      (.start .empty) =
        (.ok body', (runFrom (lower { foldConstants := false } loadConstants loadSample)
          (.start .empty)).2) ∧
      body'.assemble { foldConstants := true } = .ok assembly' ∧ assembly'.code.length ≤ 10) ∧
    spacedSample.validate = .ok () ∧ spacedSample.keep.count true = 4 ∧
    ∃ assembly assembly', spacedSample.assemble {} = .ok assembly ∧
      spacedSample.withoutNops.assemble {} = .ok assembly' ∧
      spacedSample.Shortened assembly.code assembly'.code := by
  have hbody :
      (runFrom (lower { foldConstants := false } loadConstants loadSample) (.start .empty)).1 =
      .ok loadBody := by decide +kernel
  have hvalid : spacedSample.validate = .ok () := by decide +kernel
  obtain ⟨assembly, hassembly, hlength⟩ : ∃ assembly,
    loadBody.assemble { foldConstants := false } = .ok assembly ∧
    assembly.code.length = 10 := ⟨_, rfl, by decide +kernel⟩
  obtain ⟨spaced, hspaced⟩ : ∃ assembly, spacedSample.assemble {} = .ok assembly := ⟨_, rfl⟩
  have hkeep : spacedSample.keep.count true = 4 := by decide +kernel
  obtain ⟨hfolds, hdrops⟩ := shortening_loses_nothing {}
  have hfolded := hfolds loadConstants loadSample (.start .empty) loadBody assembly hbody hassembly
  rw [hlength] at hfolded
  obtain ⟨spaced', hspaced', hshortened⟩ := hdrops spacedSample spaced hvalid hspaced
  exact ⟨hbody, ⟨assembly, hassembly, hlength⟩, hfolded, hvalid, hkeep, spaced, spaced',
    hspaced, hspaced', hshortened⟩

end Conversion

end ClassImage
