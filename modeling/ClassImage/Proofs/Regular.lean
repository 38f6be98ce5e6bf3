import ClassImage.Proofs.Disassembly
import ClassImage.Proofs.NopFree

/-!
# Bodies that can be laid out

Laying a body out can fail in many ways, because bodies are built freely. An instruction is regular
when its operands are of the kind that its opcode asks for and every number in them fits its field;
whether a `goto` leads too far is not known before the offsets are. Of all the ways to fail two
remain for a body of regular instructions with valid references: it is too long, or one of its
`goto`s leads too far (`IsRegular.outcomes`). All other displacements have wider fields, and the
code has at most 65535 bytes.
-/

namespace ClassImage

section Results

variable {ε α β : Type}

/-- **The first failure is the failure of the whole.** -/
theorem mapM_cases (f : α → Except ε β) (as : List α) : (∃ bs, as.mapM f = .ok bs) ∨
    ∃ (i : Nat) (a : α) (e : ε), as[i]? = some a ∧ f a = .error e ∧ as.mapM f = .error e ∧
      ∀ j < i, ∀ a, as[j]? = some a → ∃ b, f a = .ok b := by
  induction as with
  | nil => exact Or.inl ⟨[], rfl⟩
  | cons a as ih =>
    rw [List.mapM_cons]
    cases ha : f a with
    | error e => exact Or.inr ⟨0, a, e, rfl, ha, rfl, fun j hj => absurd hj (Nat.not_lt_zero j)⟩
    | ok b =>
      rcases ih with ⟨bs, hbs⟩ | ⟨i, a', e, hi, he, herror, hbefore⟩
      · exact Or.inl ⟨b :: bs, by rw [hbs]; rfl⟩
      · refine Or.inr ⟨i + 1, a', e, hi, he, by rw [herror]; rfl, fun j hj c hc => ?_⟩
        cases j with
        | zero =>
          obtain rfl := Option.some.inj hc
          exact ⟨b, ha⟩
        | succ j => exact hbefore j (by omega) c hc

theorem exists_mapM_eq_ok {f : α → Except ε β} {as : List α} (h : ∀ a ∈ as, ∃ b, f a = .ok b) :
    ∃ bs, as.mapM f = .ok bs := by
  rcases mapM_cases f as with hok | ⟨i, a, e, hi, he, -⟩
  · exact hok
  · obtain ⟨b, hb⟩ := h a (List.mem_of_getElem? hi)
    rw [hb] at he
    simp at he

end Results

namespace Body

open Conversion (Error Settings)
open Image (Opcode Record LineEntry)

/-! ### Regular instructions -/

/-- Operands of the kind that an opcode asks for, with numbers that fit their fields. -/
inductive Regular : Opcode → Operands → Prop where
  | bare {opcode : Opcode} (hop : opcode.format = .bare) : Regular opcode .bare
  | value {opcode : Opcode} (hop : opcode.format = .regDisp) (reg : Register) {number : Int32}
    (hmin : -0x8000 ≤ number.toInt) (hmax : number.toInt ≤ 0x7FFF) :
    Regular opcode (.regDisp reg (.value number))
  | goto (reg : Register) (target : Nat) : Regular .goto (.regDisp reg (.branch target))
  | push {opcode : Opcode} (hop : opcode.format = .shortImmReg) {number : Int32}
    (hmin : Record.shortMin ≤ number.toInt) (hmax : number.toInt ≤ Record.shortMax) :
    Regular opcode (.shortImmReg (.value number) .stack)
  | branch {opcode : Opcode} (hop : opcode.format = .shortImmReg) (target : Nat) :
    Regular opcode (.shortImmReg (.branch target) .stack)
  | two16 {opcode : Opcode} (hop : opcode.format = .two16) (hi lo : UInt16) :
    Regular opcode (.two16 hi lo)
  | switch {opcode : Opcode} (hop : opcode.format = .switch) (key : Register)
    {parameters : List Parameter} (hkinds : ∀ (i : Nat) (param : Parameter),
      parameters[i]? = some param →
      param.target?.isSome = opcode.isTargetParameter i) : Regular opcode (.switch key parameters)

/-- Where the targets are does not matter. -/
theorem Regular.mapTargets {opcode : Opcode} {operands : Operands} (h : Regular opcode operands)
    (f : Nat → Nat) :
    Regular opcode (operands.mapTargets f) := by
  cases h with
  | bare hop => exact .bare hop
  | value hop reg hmin hmax => exact .value hop reg hmin hmax
  | goto reg target => exact .goto reg (f target)
  | push hop hmin hmax => exact .push hop hmin hmax
  | branch hop target => exact .branch hop (f target)
  | two16 hop hi lo => exact .two16 hop hi lo
  | switch hop key hkinds =>
    refine .switch hop key fun i param hparam => ?_
    rw [List.getElem?_map, Option.map_eq_some_iff] at hparam
    obtain ⟨source, hsource, rfl⟩ := hparam
    rw [Parameter.target?_mapTarget, Option.isSome_map]
    exact hkinds i source hsource

/-- Bodies of regular instructions with valid references. -/
structure IsRegular (body : Body) : Prop where
  regular : ∀ insn ∈ body.instructions, Regular insn.opcode insn.operands
  valid : body.validate = .ok ()

theorem IsRegular.withoutNops {body : Body} (h : body.IsRegular) : body.withoutNops.IsRegular where
  regular := by
    intro insn hinsn
    obtain ⟨source, hsource, rfl⟩ := exists_of_mem_withoutNops hinsn
    exact (h.regular source hsource).mapTargets _
  valid := validate_withoutNops h.valid

/-! ### The records of a regular instruction -/

/-- The `goto` at a position has a way to go that its 16-bit field does not hold. -/
def FarGoto (body : Body) (position : Nat) (way : Int) : Prop :=
  ∃ insn reg target, body.instructions[position]? = some insn ∧ insn.opcode = .goto ∧
    insn.operands = .regDisp reg (.branch target) ∧ way = body.wayTo position target ∧
    ¬ (-0x8000 ≤ way ∧ way ≤ 0x7FFF)

theorem offsetAt_le (body : Body) (position : Nat) : body.offsetAt position ≤ body.stop := by
  have h := totalSize_append Instruction.length (body.instructions.take position)
    (body.instructions.drop position)
  rw [List.take_append_drop] at h
  rw [stop, h]
  exact Nat.le_add_right _ _

theorem length_le_stop {body : Body} {insn : Instruction} (h : insn ∈ body.instructions) :
    insn.length ≤ body.stop := by
  obtain ⟨before, after, hsplit⟩ := List.append_of_mem h
  rw [stop, hsplit, totalSize_append, totalSize_cons]
  omega

section Place

variable {body : Body} {position : Nat}

/-- No way is longer than the code. -/
theorem wayTo_le (body : Body) (position target : Nat) :
    -(body.stop : Int) ≤ body.wayTo position target ∧ body.wayTo position target ≤ body.stop := by
  have hposition := body.offsetAt_le position
  have htarget := body.offsetAt_le target
  rw [wayTo]
  omega

theorem distance_placeAt {target : Nat} (h : target < body.instructions.length) :
    (body.placeAt position).distance target = .ok (body.wayTo position target) := by
  rw [Place.distance, placeAt, offsetOf?_of_le (Nat.le_of_lt h)]
  rfl

theorem fit_of_le {place : Place} {bits : Nat} {least greatest amount : Int} (hmin : least ≤ amount)
    (hmax : amount ≤ greatest) : place.fit bits least greatest amount = .ok amount :=
  if_pos ⟨hmin, hmax⟩

theorem exists_parameter (hstop : body.stop ≤ 0xFFFF) {insn : Instruction} {param : Parameter}
    {index : Nat} (hkind : param.target?.isSome = insn.opcode.isTargetParameter index)
    (htarget : ∀ target, param.target? = some target → target < body.instructions.length) :
    ∃ record, (body.placeAt position).parameter insn param index = .ok record := by
  cases param with
  | values hi lo =>
    refine ⟨.values hi lo, ?_⟩
    rw [Place.parameter]
    exact hkind.symm
  | target target =>
    have hway := body.wayTo_le position target
    refine ⟨.target (Int32.ofInt (body.wayTo position target)), ?_⟩
    rw [Place.parameter, distance_placeAt (htarget target rfl)]
    · simp only [bind, Except.bind]
      rw [fit_of_le (by omega) (by omega)]
      rfl
    · exact hkind.symm

variable {insn : Instruction}

/-- **A regular instruction becomes records unless it is a `goto` that leads too far.** -/
theorem records_cases (hstop : body.stop ≤ 0xFFFF)
    (hinsn : body.instructions[position]? = some insn)
    (hregular : Regular insn.opcode insn.operands)
    (htargets : ∀ target ∈ insn.targets, target < body.instructions.length) :
    ((∃ group, (body.placeAt position).records insn = .ok group) ∧
      ∀ way, ¬ body.FarGoto position way) ∨
    ∃ way, body.FarGoto position way ∧
      (body.placeAt position).records insn =
        .error (.displacement (body.offsetAt position) way 16) := by
  obtain ⟨opcode, line, operands⟩ := insn
  have hnear : (∀ reg target, operands ≠ .regDisp reg (.branch target)) →
      ∀ way, ¬ body.FarGoto position way := by
    rintro hne way ⟨insn', reg, target, hinsn', -, hoperands, -⟩
    rw [hinsn, Option.some.injEq] at hinsn'
    subst hinsn'
    exact hne reg target hoperands
  cases hregular with
  | bare hop =>
    refine Or.inl ⟨⟨[.bare opcode], ?_⟩, hnear (by simp)⟩
    simp only [Place.records, hop]
  | @value _ hop reg number hmin hmax =>
    refine Or.inl ⟨⟨[.regDisp opcode reg.number (Int16.ofInt number.toInt)], ?_⟩, hnear (by simp)⟩
    simp only [Place.records, hop, Place.resolve, bind, Except.bind]
    rw [fit_of_le hmin hmax]
    rfl
  | goto reg target =>
    have htarget : target < body.instructions.length := htargets target List.mem_cons_self
    by_cases hfits : -0x8000 ≤ body.wayTo position target ∧ body.wayTo position target ≤ 0x7FFF
    · refine Or.inl
        ⟨⟨[.regDisp .goto reg.number (Int16.ofInt (body.wayTo position target))], ?_⟩, ?_⟩
      · simp only [Place.records, Opcode.format, Place.resolve, distance_placeAt htarget,
          bind, Except.bind]
        rw [fit_of_le hfits.1 hfits.2]
        rfl
      · rintro way ⟨insn', reg', target', hinsn', -, hoperands, rfl, hfar⟩
        rw [hinsn, Option.some.injEq] at hinsn'
        subst hinsn'
        simp only [Operands.regDisp.injEq, Displacement.branch.injEq] at hoperands
        rw [← hoperands.2] at hfar
        exact hfar hfits
    · refine Or.inr ⟨body.wayTo position target, ⟨_, reg, target, hinsn, rfl, rfl, rfl, hfits⟩, ?_⟩
      simp only [Place.records, Opcode.format, Place.resolve, distance_placeAt htarget,
        bind, Except.bind]
      rw [Place.fit, if_neg hfits]
      rfl
  | @push _ hop number hmin hmax =>
    refine Or.inl ⟨⟨[.shortImmReg opcode (Int32.ofInt number.toInt) Record.shortRegMax], ?_⟩,
      hnear (by simp)⟩
    simp only [Place.records, hop, Place.resolve, Register.shortField?, if_pos, bind, Except.bind]
    rw [fit_of_le hmin hmax]
    rfl
  | branch hop target =>
    have hway := body.wayTo_le position target
    have hmin : Record.shortMin ≤ body.wayTo position target := by rw [Record.shortMin]; omega
    have hmax : body.wayTo position target ≤ Record.shortMax := by rw [Record.shortMax]; omega
    refine Or.inl
      ⟨⟨[.shortImmReg opcode (Int32.ofInt (body.wayTo position target)) Record.shortRegMax], ?_⟩,
        hnear (by simp)⟩
    simp only [Place.records, hop, Place.resolve, Register.shortField?, if_pos,
      distance_placeAt (htargets target List.mem_cons_self), bind, Except.bind]
    rw [fit_of_le hmin hmax]
    rfl
  | two16 hop hi lo =>
    refine Or.inl ⟨⟨[.two16 opcode hi lo], ?_⟩, hnear (by simp)⟩
    simp only [Place.records, hop]
  | @switch _ hop key parameters hkinds =>
    -- Each parameter takes four bytes of the code, so there are not too many of them to count.
    have hcount : parameters.length ≤ 0xFFFF := by
      have hlength : Image.Format.switch.length + parameters.length * Record.parameterLength ≤
          body.stop :=
        length_le_stop (List.mem_of_getElem? hinsn)
      rw [Record.parameterLength] at hlength
      omega
    have hparameters : ∀ p ∈ parameters.zipIdx, ∃ record,
        (body.placeAt position).parameter ⟨opcode, line, .switch key parameters⟩ p.1
        p.2 = .ok record := by
      rintro ⟨param, i⟩ hmem
      have hparam := List.mem_zipIdx_iff_getElem?.mp hmem
      refine exists_parameter hstop (hkinds i param hparam) fun target htarget => ?_
      exact htargets target (List.mem_filterMap.mpr ⟨param, List.mem_of_getElem? hparam, htarget⟩)
    obtain ⟨records, hrecords⟩ := exists_mapM_eq_ok hparameters
    refine Or.inl ⟨⟨.switchHeader opcode key.number (UInt16.ofNat parameters.length) :: records,
      ?_⟩, hnear (by simp)⟩
    simp only [Place.records, hop, if_pos hcount]
    rw [hrecords]
    rfl

end Place

/-! ### Lines -/

/-- The line of the instruction before a position. -/
def lineBefore (body : Body) : Nat → Option UInt16
  | 0 => none
  | position + 1 => body.instructions[position]?.map Instruction.line

/-- Where the line changes, with offsets of any size. -/
def lineStarts (body : Body) : List (Nat × UInt16) :=
  (body.instructions.zipIdx.filter fun placed => body.lineBefore placed.2 ≠ some placed.1.line).map
    fun placed => (body.offsetAt placed.2, placed.1.line)

/-- The entries for the instructions from a position on, by induction on these instructions: `last`
is the line before them. -/
theorem lineRunsOnto_drop (body : Body) (rest : List Instruction) :
    ∀ (position : Nat) (done : List LineEntry), body.instructions.drop position = rest →
    lineRunsOnto (body.lineBefore position) done
      ((body.starts.zip body.instructions).drop position) =
      done.reverse ++ ((rest.zipIdx position).filter fun placed =>
        body.lineBefore placed.2 ≠ some placed.1.line).map
          fun placed => ⟨UInt16.ofNat (body.offsetAt placed.2), placed.1.line⟩ := by
  induction rest with
  | nil =>
    intro position done hdrop
    have hlength := List.drop_eq_nil_iff.mp hdrop
    have hzip : (body.starts.zip body.instructions).drop position = [] := by
      rw [List.drop_eq_nil_iff, List.length_zip, length_starts]
      omega
    rw [hzip, lineRunsOnto, List.zipIdx_nil, List.filter_nil, List.map_nil, List.append_nil]
  | cons insn rest ih =>
    intro position done hdrop
    have hinsn : body.instructions[position]? = some insn := by
      rw [← List.head?_drop, hdrop, List.head?_cons]
    have hlt := (List.getElem?_eq_some_iff.mp hinsn).1
    have hrest : body.instructions.drop (position + 1) = rest := by
      rw [← List.tail_drop, hdrop, List.tail_cons]
    have hplaced : (body.starts.zip body.instructions)[position]? =
        some (body.offsetAt position, insn) :=
      List.getElem?_zip_eq_some.mpr ⟨getElem?_starts hlt, hinsn⟩
    have hzip : (body.starts.zip body.instructions).drop position =
        (body.offsetAt position, insn) :: (body.starts.zip body.instructions).drop
        (position + 1) := by
      obtain ⟨hi, hget⟩ := List.getElem?_eq_some_iff.mp hplaced
      rw [List.drop_eq_getElem_cons hi, hget]
    have hbefore : body.lineBefore (position + 1) = some insn.line := by
      rw [lineBefore, hinsn, Option.map_some]
    rw [hzip, lineRunsOnto, List.zipIdx_cons]
    by_cases hline : body.lineBefore position = some insn.line
    · rw [if_pos hline, List.filter_cons_of_neg (by simpa using hline),
        ← ih (position + 1) done hrest, hbefore, hline]
    · rw [if_neg hline, List.filter_cons_of_pos (by simpa using hline), ← hbefore,
        ih (position + 1) _ hrest, List.map_cons, List.reverse_cons, List.append_assoc,
        List.singleton_append]

theorem map_lines (body : Body) (hstop : body.stop ≤ 0xFFFF) :
    (lineRunsOnto none [] (body.starts.zip body.instructions)).map
      (fun entry => (entry.offset.toNat, entry.line)) = body.lineStarts := by
  have h := lineRunsOnto_drop body body.instructions 0 [] (List.drop_zero ..)
  rw [List.drop_zero, List.reverse_nil, List.nil_append] at h
  rw [lineBefore] at h
  rw [h, lineStarts, List.map_map]
  refine List.map_congr_left fun placed _ => ?_
  have hle := body.offsetAt_le placed.2
  show ((UInt16.ofNat _).toNat, _) = _
  rw [UInt16.toNat_ofNat', Nat.mod_eq_of_lt (by omega)]

/-! ### Handlers -/

theorem wordOffset_of_le {body : Body} {position : Nat} (h : position ≤ body.instructions.length) :
    wordOffset body.layout position = .ok (UInt16.ofNat (body.offsetAt position)) := by
  rw [wordOffset, offsetOf?_of_le h]

theorem exists_place {body : Body} {handler : Handler}
    (h : handler.Within body.instructions.length) :
    ∃ placed, handler.place body.layout = .ok placed := by
  rw [Handler.place, wordOffset_of_le (Nat.le_of_lt h.start_lt), wordOffset_of_le h.stop_le,
    wordOffset_of_le (Nat.le_of_lt h.entry_lt)]
  exact ⟨_, rfl⟩

/-- The offsets of a handler, of any size, and the class it catches. -/
def Handler.offsets (body : Body) (handler : Handler) : Nat × Nat × Nat × Option ClassId :=
  (body.offsetAt handler.start, body.offsetAt handler.stop, body.offsetAt handler.entry,
    handler.catchType)

/-- The offsets of a placed handler and the class it catches. -/
def placedOffsets (handler : Image.Handler) : Nat × Nat × Nat × Option ClassId :=
  (handler.start.toNat, handler.stop.toNat, handler.entry.toNat, handler.catchType)

theorem offsets_of_place {body : Body} {handler : Handler} {placed : Image.Handler}
    (hstop : body.stop ≤ 0xFFFF) (h : handler.place body.layout = .ok placed) :
    placedOffsets placed = handler.offsets body := by
  obtain ⟨hstart, hlast, hentry, hcatch⟩ := Handler.place_ok hstop h
  rw [placedOffsets, eq_offsetAt hstart, eq_offsetAt hlast, eq_offsetAt hentry,
    hcatch, Handler.offsets]

/-! ### Outcomes -/

/-- What can come out of laying a body out. -/
structure Outcomes (settings : Settings) (body : Body) : Prop where
  /-- No reference leads out of the body. -/
  inside : ∀ position target, body.assemble settings ≠ .error (.missingInstruction position target)
  tooLong : (∃ construct, body.assemble settings = .error (.unsupported construct)) ↔
    0xFFFF < totalSize Instruction.length body.instructions
  tooFar : totalSize Instruction.length body.instructions ≤ 0xFFFF →
    ((∃ offset amount bits, body.assemble settings = .error (.displacement offset amount bits)) ↔
      ∃ position way, body.FarGoto position way)
  /-- The first `goto` that leads too far is blamed. -/
  blamed : ∀ offset amount bits, body.assemble settings = .error
    (.displacement offset amount bits) →
    bits = 16 ∧ ∃ position, offset = body.offsetAt position ∧ body.FarGoto position amount ∧
      ∀ earlier < position, ∀ way, ¬ body.FarGoto earlier way
  /-- Otherwise the tables have the offsets that are meant. -/
  laidOut : totalSize Instruction.length body.instructions ≤ 0xFFFF →
    (∀ position way, ¬ body.FarGoto position way) →
    ∃ assembly, body.assemble settings = .ok assembly ∧
      assembly.handlers.map placedOffsets = body.handlers.map (Handler.offsets body) ∧
      assembly.lines.map (fun entry => (entry.offset.toNat, entry.line)) =
        if settings.lineNumbers then body.lineStarts else []

/-- The records of all instructions. -/
def groups (body : Body) : Except Error (List (List Record)) :=
  (body.starts.zip body.instructions).zipIdx.mapM fun placed =>
    Place.records ⟨body.layout, placed.2, placed.1.1⟩ placed.1.2

theorem assemble_of_long {settings : Settings} {body : Body} (h : 0xFFFF < body.stop) :
    body.assemble settings = .error (.unsupported (.bodyLength body.stop)) := by
  have hstop : body.layout.stop = body.stop := by rw [layout_eq]
  simp only [assemble, hstop, if_pos h]
  rfl

theorem assemble_of_groups {settings : Settings} {body : Body} (hstop : body.stop ≤ 0xFFFF) :
    body.assemble settings = (do
      let groups ← body.groups
      let handlers ← body.handlers.mapM (Handler.place body.layout)
      return ⟨groups.flatten, if settings.lineNumbers
        then lineRunsOnto none [] (body.starts.zip body.instructions) else [], handlers⟩) := by
  have hlayout : body.layout.stop = body.stop := by rw [layout_eq]
  simp only [assemble, hlayout, toList_layout, if_neg (Nat.not_lt.mpr hstop)]
  rfl

theorem getElem?_placed {body : Body} {i : Nat} {insn : Instruction}
    (h : body.instructions[i]? = some insn) :
    (body.starts.zip body.instructions).zipIdx[i]? = some ((body.offsetAt i, insn), i) := by
  have hzip : (body.starts.zip body.instructions)[i]? = some (body.offsetAt i, insn) :=
    List.getElem?_zip_eq_some.mpr ⟨getElem?_starts (List.getElem?_eq_some_iff.mp h).1, h⟩
  rw [List.getElem?_zipIdx, hzip, Nat.zero_add]
  rfl

/-- A valid body that is not too long is laid out once it has its records. -/
theorem exists_assembly {body : Body} (hvalid : body.validate = .ok ()) (settings : Settings)
    (hstop : body.stop ≤ 0xFFFF) {groups : List (List Record)}
    (hgroups : body.groups = .ok groups) :
    ∃ assembly, body.assemble settings = .ok assembly ∧
      assembly.handlers.map placedOffsets = body.handlers.map (Handler.offsets body) ∧
      assembly.lines.map (fun entry => (entry.offset.toNat, entry.line)) =
        if settings.lineNumbers then body.lineStarts else [] := by
  obtain ⟨handlers, hhandlers⟩ : ∃ handlers, body.handlers.mapM
    (Handler.place body.layout) = .ok handlers :=
    exists_mapM_eq_ok fun handler hmem =>
      exists_place (((validate_eq_ok_iff body).mp hvalid).2 handler hmem)
  refine ⟨⟨groups.flatten, if settings.lineNumbers
    then lineRunsOnto none [] (body.starts.zip body.instructions) else [], handlers⟩, ?_, ?_, ?_⟩
  · rw [assemble_of_groups hstop, hgroups, hhandlers]
    rfl
  · refine map_eq_of_forall₂ ((forall₂_of_mapM_eq_ok hhandlers).flip.imp
      fun placed handler hplace => ?_)
    exact offsets_of_place hstop hplace
  · dsimp only
    split
    · exact map_lines body hstop
    · rfl

namespace IsRegular

variable {body : Body}

theorem records_cases (h : body.IsRegular) (hstop : body.stop ≤ 0xFFFF) {position : Nat}
    {insn : Instruction} (hinsn : body.instructions[position]? = some insn) :
    ((∃ group, (body.placeAt position).records insn = .ok group) ∧
      ∀ way, ¬ body.FarGoto position way) ∨
    ∃ way, body.FarGoto position way ∧
      (body.placeAt position).records insn =
        .error (.displacement (body.offsetAt position) way 16) := by
  have hmem := List.mem_of_getElem? hinsn
  exact Body.records_cases hstop hinsn (h.regular insn hmem)
    (((validate_eq_ok_iff body).mp h.valid).1 insn hmem)

theorem not_farGoto (h : body.IsRegular) (hstop : body.stop ≤ 0xFFFF) {position : Nat}
    (hok : ∀ insn, body.instructions[position]? = some insn →
      ∃ group, (body.placeAt position).records insn = .ok group)
    (way : Int) : ¬ body.FarGoto position way := by
  intro hfar
  obtain ⟨insn, _, _, hinsn, _⟩ := id hfar
  obtain ⟨group, hgroup⟩ := hok insn hinsn
  rcases h.records_cases hstop hinsn with ⟨-, hnear⟩ | ⟨way', -, herror⟩
  · exact hnear way hfar
  · rw [hgroup] at herror
    simp at herror

/-- The records of all instructions are there, or the first `goto` that leads too far is to
blame. -/
theorem groups_cases (h : body.IsRegular) (hstop : body.stop ≤ 0xFFFF) :
    ((∃ groups, body.groups = .ok groups) ∧ ∀ position way, ¬ body.FarGoto position way) ∨
    ∃ position way, body.groups = .error (.displacement (body.offsetAt position) way 16) ∧
      body.FarGoto position way ∧ ∀ earlier < position, ∀ way, ¬ body.FarGoto earlier way := by
  rcases mapM_cases (fun placed : (Nat × Instruction) × Nat =>
    Place.records ⟨body.layout, placed.2, placed.1.1⟩ placed.1.2)
      (body.starts.zip body.instructions).zipIdx with
    ⟨groups, hgroups⟩ | ⟨i, placed, e, hplaced, he, herror, hbefore⟩
  · refine Or.inl ⟨⟨groups, hgroups⟩, fun position => h.not_farGoto hstop fun insn hinsn => ?_⟩
    obtain ⟨group, -, hgroup⟩ :=
      exists_getElem?_of_forall₂ (forall₂_of_mapM_eq_ok hgroups) (getElem?_placed hinsn)
    exact ⟨group, hgroup⟩
  · have hi := (List.getElem?_eq_some_iff.mp hplaced).1
    rw [List.length_zipIdx, List.length_zip, length_starts, Nat.min_self] at hi
    have hinsn := List.getElem?_eq_getElem hi
    rw [getElem?_placed hinsn, Option.some.injEq] at hplaced
    subst hplaced
    rcases h.records_cases hstop hinsn with ⟨⟨group, hgroup⟩, -⟩ | ⟨way, hfar, hrecords⟩
    · rw [placeAt, he] at hgroup
      simp at hgroup
    · rw [placeAt, he, Except.error.injEq] at hrecords
      subst hrecords
      refine Or.inr ⟨i, way, herror, hfar, fun earlier hlt =>
        h.not_farGoto hstop fun insn hinsn' => ?_⟩
      exact hbefore earlier hlt _ (getElem?_placed hinsn')

/-- **A regular body is laid out unless it is too long or one of its `goto`s leads too far.** -/
theorem outcomes (h : body.IsRegular) (settings : Settings) : Outcomes settings body := by
  by_cases hstop : body.stop ≤ 0xFFFF
  · rcases h.groups_cases hstop with
      ⟨⟨groups, hgroups⟩, hnear⟩ | ⟨position, way, herror, hfar, hfirst⟩
    · obtain ⟨assembly, hok, htables⟩ := exists_assembly h.valid settings hstop hgroups
      have hnever : ∀ e, body.assemble settings ≠ .error e := by
        intro e
        rw [hok]
        simp
      refine ⟨fun _ _ => hnever _, ⟨?_, ?_⟩, fun _ => ⟨?_, ?_⟩, ?_,
        fun _ _ => ⟨assembly, hok, htables⟩⟩
      · rintro ⟨construct, hunsupported⟩
        exact absurd hunsupported (hnever _)
      · intro hlong
        exact absurd hlong (Nat.not_lt.mpr hstop)
      · rintro ⟨offset, amount, bits, hdisplacement⟩
        exact absurd hdisplacement (hnever _)
      · rintro ⟨position, way, hfar⟩
        exact absurd hfar (hnear position way)
      · intro offset amount bits hdisplacement
        exact absurd hdisplacement (hnever _)
    · have hfails : body.assemble settings =
          .error (.displacement (body.offsetAt position) way 16) := by
        rw [assemble_of_groups hstop, herror]
        rfl
      refine ⟨?_, ⟨?_, ?_⟩, fun _ => ⟨?_, ?_⟩, ?_, ?_⟩ <;> rw [hfails]
      · simp
      · simp
      · intro hlong
        exact absurd hlong (Nat.not_lt.mpr hstop)
      · intro _
        exact ⟨position, way, hfar⟩
      · intro _
        exact ⟨_, _, _, rfl⟩
      · intro offset amount bits hdisplacement
        simp only [Except.error.injEq, Error.displacement.injEq] at hdisplacement
        obtain ⟨rfl, rfl, rfl⟩ := hdisplacement
        exact ⟨rfl, position, rfl, hfar, hfirst⟩
      · intro _ hnear
        exact absurd hfar (hnear position way)
  · have hlong := Nat.lt_of_not_le hstop
    have hfails : body.assemble settings = .error (.unsupported (.bodyLength body.stop)) :=
      assemble_of_long hlong
    refine ⟨?_, ⟨?_, ?_⟩, fun hle => absurd hle hstop, ?_, fun hle => absurd hle hstop⟩ <;>
      rw [hfails]
    · simp
    · intro _
      exact hlong
    · intro _
      exact ⟨_, rfl⟩
    · simp

end IsRegular

end Body

end ClassImage
