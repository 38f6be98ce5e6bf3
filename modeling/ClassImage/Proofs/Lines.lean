import ClassImage.Proofs.ClassFormat
import ClassImage.Proofs.Disassembly
import ClassImage.Proofs.Placement
import ClassImage.Proofs.Search
import Mathlib.Data.List.Chain
import Mathlib.Data.List.Sort

/-!
# Lines are kept

A class file says in any number of tables, in any order, where the code of a line starts, and an
entry holds up to the next one (`IsLineAt`). The tables are put together and ordered, instructions
are given their lines, and an image has an entry for each instruction whose line is not that of the
one before. Its entries up to some instruction end with the line of that instruction
(`IsAssembly.lineForOffset_eq`), so whatever byte of an instruction is looked up, its line is found.
-/

namespace ClassImage

open ClassFile (LineNumber)

/-! ### Entries of line number tables -/

namespace ClassFile

/-- An entry as it stands in a table. -/
def Format.encodeLine (entry : LineNumber) : Bytes :=
  Format.word16 entry.start ++ Format.word16 entry.line

/-- The entries of all line number tables among attributes, in order. -/
inductive LinesIn (constants : ConstantPool) : List Attribute → List LineNumber → Prop where
  | nil : LinesIn constants [] []
  | table {attr : Attribute} {rest : List Attribute} {entries behind : List LineNumber}
    (hname : constants.utf8 attr.name = .ok "LineNumberTable")
    (hcount : entries.length ≤ 0xFFFF)
    (hinfo : attr.info = Format.sequence Format.encodeLine entries)
    (hrest : LinesIn constants rest behind) : LinesIn constants (attr :: rest) (entries ++ behind)
  | other {attr : Attribute} {rest : List Attribute} {behind : List LineNumber} {name : String}
    (hname : constants.utf8 attr.name = .ok name) (hne : name ≠ "LineNumberTable")
    (hrest : LinesIn constants rest behind) : LinesIn constants (attr :: rest) behind

theorem returns_lineNumber :
    Returns LineNumber.read (fun entry s => s = Format.encodeLine entry ∧ True) := by
  refine (Returns.word16 .big).bind fun start s hs =>
    (Returns.word16 .big).bind fun line s' hs' => ?_
  refine Returns.pure ⟨?_, trivial⟩
  rw [hs, hs', List.append_nil]
  rfl

/-- The bytes of an attribute that was read as a table. -/
theorem info_of_parse {attr : Attribute} {entries : List LineNumber}
    (h : attr.parse .lineNumberTable readLines = .ok entries) :
    entries.length ≤ 0xFFFF ∧ attr.info = Format.sequence Format.encodeLine entries := by
  have hread : readLines attr.info = .ok (entries, []) := by
    unfold Attribute.parse at h
    split at h
    · rename_i heq
      obtain rfl := Except.ok.inj h
      exact heq
    all_goals simp at h
  obtain ⟨s, hs, hinfo, hcount, -⟩ := Returns.counted .big returns_lineNumber _ _ _ hread
  refine ⟨hcount, ?_⟩
  rw [hs, List.append_nil, hinfo, Format.sequence, Format.word16, UInt16.toNat_ofNat',
    Nat.mod_eq_of_lt (by omega)]

/-- The tables that are collected hold the entries in order. -/
theorem linesIn_of_collectOnto {constants : ConstantPool} {attributes : List Attribute}
    {done tables : List (List LineNumber)}
    (h : Attribute.collectOnto constants .lineNumberTable readLines done attributes = .ok tables) :
    ∃ entries, LinesIn constants attributes entries ∧ tables.flatten =
      done.reverse.flatten ++ entries := by
  induction attributes generalizing done with
  | nil =>
    obtain rfl := Except.ok.inj h
    exact ⟨[], .nil, (List.append_nil _).symm⟩
  | cons attr rest ih =>
    rw [Attribute.collectOnto] at h
    cases hname : constants.utf8 attr.name with
    | error e => simp [hname] at h
    | ok name =>
      simp only [hname] at h
      by_cases htable : name = AttributeName.lineNumberTable.text
      · rw [if_pos htable] at h
        cases hparse : attr.parse .lineNumberTable readLines with
        | error e => simp [hparse] at h
        | ok found =>
          simp only [hparse] at h
          obtain ⟨entries, hentries, hflatten⟩ := ih h
          obtain ⟨hcount, hinfo⟩ := info_of_parse hparse
          rw [htable] at hname
          refine ⟨found ++ entries, .table hname hcount hinfo hentries, ?_⟩
          rw [hflatten]
          simp
      · rw [if_neg htable] at h
        obtain ⟨entries, hentries, hflatten⟩ := ih h
        exact ⟨entries, .other hname htable hentries, hflatten⟩

/-- **The lines of a method are the entries of all its tables**, ordered by where they start. -/
theorem exists_linesIn {constants : ConstantPool} {code : Code} {lines : List LineNumber}
    (h : code.lineNumbers constants = .ok lines) :
    ∃ entries, LinesIn constants code.attributes entries ∧
      lines = entries.mergeSort fun a b => a.start ≤ b.start := by
  obtain ⟨tables, hcollect, hlines⟩ := bind_eq_ok_iff.mp h
  obtain rfl := Except.ok.inj hlines
  obtain ⟨entries, hentries, hflatten⟩ := linesIn_of_collectOnto hcollect
  refine ⟨entries, hentries, ?_⟩
  rw [hflatten]
  rfl

/-- The line that entries give to an offset: that of the one with the greatest start up to there,
the last one if there are several, and 0 if there is none. -/
inductive IsLineAt (entries : List LineNumber) (offset : Nat) : UInt16 → Prop where
  | none (hbehind : ∀ entry ∈ entries, offset < entry.start.toNat) : IsLineAt entries offset 0
  | last {i : Nat} {entry : LineNumber} (hentry : entries[i]? = some entry)
    (hstart : entry.start.toNat ≤ offset)
    (hlast : ∀ j other, entries[j]? = some other → other.start.toNat ≤ offset →
      other.start < entry.start ∨ other.start = entry.start ∧ j ≤ i) :
    IsLineAt entries offset entry.line

end ClassFile

/-! ### Looking lines up -/

/-- A line is looked up at the end of the entries that start up to the offset. -/
theorem Bytecode.lineAt_append {before behind : List LineNumber} {offset : Nat}
    (hbefore : ∀ entry ∈ before, entry.start.toNat ≤ offset)
    (hbehind : ∀ entry ∈ behind, offset < entry.start.toNat) :
    Bytecode.lineAt (before ++ behind).toArray offset =
      (before.getLast?.map LineNumber.line).getD 0 := by
  rw [lineAt, List.size_toArray, partitionPoint_append (p := fun entry =>
    decide (entry.start.toNat ≤ offset))]
  · rcases before.eq_nil_or_concat' with rfl | ⟨front, entry, rfl⟩ <;> simp
  · intro i entry hentry
    simp [hentry]
  · simpa using hbefore
  · simpa using hbehind

/-- A line is looked up at the end of the entries that start up to the offset. -/
theorem Image.lineForOffset_append {before behind : List LineEntry} {offset : UInt16}
    (hbefore : ∀ entry ∈ before, entry.offset ≤ offset)
    (hbehind : ∀ entry ∈ behind, offset < entry.offset) :
    Image.lineForOffset (before ++ behind).toArray offset = before.getLast?.map LineEntry.line := by
  rw [lineForOffset, List.size_toArray, partitionPoint_append
    (p := fun entry => decide (entry.offset ≤ offset))]
  · rcases before.eq_nil_or_concat' with rfl | ⟨front, entry, rfl⟩ <;> simp
  · intro i entry hentry
    simp [hentry]
  · simpa using hbefore
  · simpa using hbehind

theorem ClassFile.start_trans (a b c : LineNumber) (hab : decide (a.start ≤ b.start) = true)
    (hbc : decide (b.start ≤ c.start) = true) : decide (a.start ≤ c.start) = true :=
  decide_eq_true (UInt16.le_trans (of_decide_eq_true hab) (of_decide_eq_true hbc))

theorem ClassFile.start_total (a b : LineNumber) :
    (decide (a.start ≤ b.start) || decide (b.start ≤ a.start)) = true := by
  simpa using UInt16.le_total a.start b.start

/-- Entries can be ordered by putting in one after the other, from the last one on. -/
theorem ClassFile.mergeSort_eq_insertionSort (entries : List LineNumber) :
    entries.mergeSort (fun a b => a.start ≤ b.start) =
      entries.insertionSort fun a b => a.start ≤ b.start := by
  -- Different entries can start at the same offset, so the lemma about antisymmetric relations does
  -- not apply; both ways keep the order of such entries.
  induction entries with
  | nil => rw [List.mergeSort_nil, List.insertionSort_nil]
  | cons entry entries ih =>
    obtain ⟨before, behind, hsorted, hrest, hbefore⟩ :=
      List.mergeSort_cons start_trans start_total entry entries
    have hpairwise := List.pairwise_mergeSort start_trans start_total (entry :: entries)
    rw [hsorted] at hpairwise ⊢
    rw [List.insertionSort_cons, ← ih, hrest]
    -- The entry goes behind all that start before it and in front of the others.
    clear hsorted hrest
    induction before with
    | nil =>
      cases behind with
      | nil => rfl
      | cons next behind =>
        have hle := (List.pairwise_cons.mp hpairwise).1 next List.mem_cons_self
        rw [List.nil_append, List.nil_append]
        exact (List.orderedInsert_cons_of_le (fun a b => a.start ≤ b.start) behind
          (of_decide_eq_true hle)).symm
    | cons first before ihb =>
      have hnot := hbefore first List.mem_cons_self
      rw [List.cons_append, List.cons_append, List.orderedInsert_of_not_le _ _
        (by simpa using hnot)]
      rw [← ihb (fun b hb => hbefore b (List.mem_cons_of_mem _ hb))
        (List.pairwise_cons.mp hpairwise).2]

/-- Ordered entries have their places among all entries as a second key. -/
theorem ClassFile.exists_numbered (entries : List LineNumber) :
    ∃ numbered : List (LineNumber × Nat), numbered.map Prod.fst =
      entries.mergeSort (fun a b => a.start ≤ b.start) ∧
    (∀ entry i, (entry, i) ∈ numbered ↔ entries[i]? = some entry) ∧
    numbered.Pairwise fun a b => a.1.start < b.1.start ∨ a.1.start = b.1.start ∧ a.2 ≤ b.2 := by
  refine ⟨_, List.mergeSort_zipIdx, fun entry i => ?_, ?_⟩
  · rw [(List.mergeSort_perm _ _).mem_iff, List.mem_zipIdx_iff_getElem?]
  · refine (List.pairwise_mergeSort (List.zipIdxLE_trans start_trans)
      (List.zipIdxLE_total start_total) _).imp ?_
    intro a b hab
    rw [List.zipIdxLE] at hab
    by_cases hle : a.1.start ≤ b.1.start
    · rw [if_pos (decide_eq_true hle)] at hab
      by_cases hge : b.1.start ≤ a.1.start
      · rw [if_pos (decide_eq_true hge)] at hab
        exact Or.inr ⟨UInt16.le_antisymm hle hge, of_decide_eq_true hab⟩
      · exact Or.inl (UInt16.not_le.mp hge)
    · rw [if_neg (by simpa using hle)] at hab
      exact absurd hab (by decide)

/-- **Ordering the entries does not change what line an offset has.** -/
theorem ClassFile.isLineAt_mergeSort (entries : List LineNumber) (offset : Nat) :
    ClassFile.IsLineAt entries offset
      (Bytecode.lineAt (entries.mergeSort fun a b => a.start ≤ b.start).toArray offset) := by
  obtain ⟨numbered, hsorted, hmem, hordered⟩ := exists_numbered entries
  have hmono : numbered.Pairwise fun a b =>
      decide (b.1.start.toNat ≤ offset) = true → decide (a.1.start.toNat ≤ offset) = true := by
    refine hordered.imp fun {a b} hab hb => decide_eq_true (Nat.le_trans ?_ (of_decide_eq_true hb))
    rcases hab with hlt | ⟨heq, -⟩
    · exact Nat.le_of_lt (UInt16.lt_iff_toNat_lt.mp hlt)
    · rw [heq]
  obtain ⟨before, behind, rfl, hbefore, hbehind⟩ := exists_parts hmono
  have hbelow : ∀ entry ∈ before.map Prod.fst, entry.start.toNat ≤ offset := by
    intro entry hentry
    obtain ⟨placed, hplaced, rfl⟩ := List.mem_map.mp hentry
    exact of_decide_eq_true (hbefore placed hplaced)
  have habove : ∀ entry ∈ behind.map Prod.fst, offset < entry.start.toNat := by
    intro entry hentry
    obtain ⟨placed, hplaced, rfl⟩ := List.mem_map.mp hentry
    exact Nat.lt_of_not_le (of_decide_eq_false (hbehind placed hplaced))
  -- whatever starts up to the offset is one of the entries before
  have hfront : ∀ entry i, entries[i]? = some entry → entry.start.toNat ≤ offset →
      (entry, i) ∈ before := by
    intro entry i hentry hle
    rcases List.mem_append.mp ((hmem entry i).mpr hentry) with hfound | hfound
    · exact hfound
    · exact absurd hle (Nat.not_le_of_lt (habove entry (List.mem_map_of_mem hfound)))
  rw [← hsorted, List.map_append, Bytecode.lineAt_append hbelow habove, List.getLast?_map]
  rcases before.eq_nil_or_concat' with rfl | ⟨front, ⟨entry, i⟩, rfl⟩
  · refine .none fun entry hentry => Nat.lt_of_not_le fun hle => ?_
    obtain ⟨i, hi⟩ := List.mem_iff_getElem?.mp hentry
    exact absurd (hfront entry i hi hle) List.not_mem_nil
  · rw [List.getLast?_concat]
    have hentry : entries[i]? = some entry := (hmem entry i).mp (by simp)
    refine .last hentry (hbelow entry (by simp)) fun j other hother hle => ?_
    rcases List.mem_append.mp (hfront other j hother hle) with hfound | hsame
    · have hup := (List.pairwise_append.mp hordered).1
      exact (List.pairwise_append.mp hup).2.2 (other, j) hfound (entry, i) List.mem_cons_self
    · obtain ⟨rfl, rfl⟩ := Prod.mk.inj (List.mem_singleton.mp hsame)
      exact Or.inr ⟨rfl, Nat.le_refl _⟩

/-! ### Runs of instructions with the same line -/

namespace Body

open Conversion (Settings)
open Image (Record LineEntry)

/-- The line of the last of some instructions, or the line before if there are none. -/
def lineBehind (last : Option UInt16) (placed : List (Nat × Instruction)) : Option UInt16 :=
  placed.foldl (fun _ instruction => some instruction.2.line) last

theorem lineRunsOnto_append (before behind : List (Nat × Instruction)) (last : Option UInt16)
    (done : List LineEntry) : lineRunsOnto last done (before ++ behind) =
      lineRunsOnto (lineBehind last before) (lineRunsOnto last done before).reverse behind := by
  induction before generalizing last done with
  | nil =>
    rw [List.nil_append, lineRunsOnto, List.reverse_reverse]
    rfl
  | cons first before ih =>
    obtain ⟨offset, insn⟩ := first
    have hbehind : lineBehind last ((offset, insn) :: before) =
        lineBehind (some insn.line) before := rfl
    rw [List.cons_append, lineRunsOnto, lineRunsOnto, hbehind]
    by_cases hlast : last = some insn.line
    · rw [if_pos hlast, if_pos hlast, ih, hlast]
    · rw [if_neg hlast, if_neg hlast, ih]

/-- The last entry has the line of the last instruction. -/
theorem getLast?_lineRunsOnto (placed : List (Nat × Instruction)) {last : Option UInt16}
    {done : List LineEntry} (hdone : done.head?.map LineEntry.line = last) :
    (lineRunsOnto last done placed).getLast?.map LineEntry.line = lineBehind last placed := by
  induction placed generalizing last done with
  | nil =>
    rw [lineRunsOnto, List.getLast?_reverse, hdone]
    rfl
  | cons first placed ih =>
    obtain ⟨offset, insn⟩ := first
    rw [lineRunsOnto]
    by_cases hlast : last = some insn.line
    · rw [if_pos hlast, ih hdone, hlast]
      rfl
    · rw [if_neg hlast]
      exact ih rfl

/-- No entry has the line of the entry before. -/
theorem isChain_lineRunsOnto (placed : List (Nat × Instruction)) {last : Option UInt16}
    {done : List LineEntry} (hdone : done.head?.map LineEntry.line = last)
    (hchain : done.IsChain fun a b => b.line ≠ a.line) :
    (lineRunsOnto last done placed).IsChain fun a b => a.line ≠ b.line := by
  induction placed generalizing last done with
  | nil =>
    rw [lineRunsOnto, List.isChain_reverse]
    exact hchain
  | cons first placed ih =>
    obtain ⟨offset, insn⟩ := first
    rw [lineRunsOnto]
    by_cases hlast : last = some insn.line
    · rw [if_pos hlast]
      exact ih hdone hchain
    · rw [if_neg hlast]
      refine ih rfl (List.isChain_cons.mpr ⟨fun entry hentry hline => hlast ?_, hchain⟩)
      rw [← hdone, hentry]
      exact congrArg some hline

/-- What can be said of the lines of a method without looking at the class file. -/
structure IsLineTable (code : Bytes) (lines : List LineEntry) : Prop where
  increasing : lines.Pairwise fun a b => a.offset < b.offset
  first : code ≠ [] → lines.head?.map LineEntry.offset = some 0
  changes : lines.IsChain fun a b => a.line ≠ b.line

namespace IsAssembly

variable {settings : Settings} {body : Body} {assembly : Assembly} {groups : List (List Record)}

theorem lines_eq (h : IsAssembly settings body assembly groups)
    (hlines : settings.lineNumbers = true) :
    assembly.lines = lineRunsOnto none [] (body.starts.zip body.instructions) := by
  rw [h.lines, if_pos hlines]

theorem isLineTable (h : IsAssembly settings body assembly groups)
    (hlines : settings.lineNumbers = true) :
    IsLineTable assembly.code assembly.lines where
  increasing := by
    have hpairwise := body.pairwise_starts.sublist h.line_offsets_sublist
    exact (List.pairwise_map.mp hpairwise).imp fun hlt => UInt16.lt_iff_toNat_lt.mpr hlt
  first := by
    intro hcode
    rw [h.lines_eq hlines]
    cases hinstructions : body.instructions with
    | nil =>
      have hgroups : groups = [] := List.eq_nil_of_length_eq_zero (by
        rw [h.length_groups, hinstructions]
        rfl)
      exact absurd (by rw [h.code_eq, hgroups]; rfl) hcode
    | cons insn rest =>
      have hstarts : body.starts = 0 :: offsetsFrom Instruction.length (0 + insn.length) rest := by
        rw [starts, hinstructions]
        rfl
      rw [hstarts, List.zip_cons_cons, lineRunsOnto, if_neg (by simp)]
      obtain ⟨entries, heq, -⟩ := exists_lineRunsOnto_eq
        ((offsetsFrom Instruction.length (0 + insn.length) rest).zip rest) (some insn.line)
        [⟨UInt16.ofNat 0, insn.line⟩]
      rw [heq]
      rfl
  changes := by
    rw [h.lines_eq hlines]
    exact isChain_lineRunsOnto _ rfl List.IsChain.nil

/-- The entry of an instruction is at its offset. -/
theorem toNat_lineEntry (h : IsAssembly settings body assembly groups) {i : Nat}
    {placed : Nat × Instruction} (hi : (body.starts.zip body.instructions)[i]? = some placed) :
    (lineEntry placed).offset.toNat = body.offsetAt i := by
  obtain ⟨hstart, hinsn⟩ := List.getElem?_zip_eq_some.mp hi
  have hlt := lt_stop_of_mem_starts (List.mem_of_getElem? hstart)
  have hle := h.stop_le
  rw [getElem?_starts (List.getElem?_eq_some_iff.mp hinsn).1] at hstart
  rw [lineEntry, UInt16.toNat_ofNat', Nat.mod_eq_of_lt (by omega)]
  exact (Option.some.inj hstart).symm

/-- **At each byte of an instruction its line is found.** The entries up to the instruction end with
its line, and all others start behind it. -/
theorem lineForOffset_eq (h : IsAssembly settings body assembly groups)
    (hlines : settings.lineNumbers = true) {p : Nat} {insn : Instruction}
    (hinsn : body.instructions[p]? = some insn) {offset : UInt16}
    (hstart : body.offsetAt p ≤ offset.toNat) (hstop : offset.toNat < body.offsetAt (p + 1)) :
    Image.lineForOffset assembly.lines.toArray offset = some insn.line := by
  have hat : (body.starts.zip body.instructions)[p]? = some (body.offsetAt p, insn) :=
    List.getElem?_zip_eq_some.mpr ⟨getElem?_starts (List.getElem?_eq_some_iff.mp hinsn).1, hinsn⟩
  have hentry := @h.toNat_lineEntry
  rw [h.lines_eq hlines]
  generalize body.starts.zip body.instructions = placed at hat hentry
  obtain ⟨before, hbefore, hsub⟩ := exists_lineRunsOnto_eq (placed.take (p + 1)) none []
  obtain ⟨behind, hbehind, hsub'⟩ := exists_lineRunsOnto_eq (placed.drop (p + 1))
    (lineBehind none (placed.take (p + 1))) (lineRunsOnto none [] (placed.take (p + 1))).reverse
  have hlast : lineBehind none (placed.take (p + 1)) = some insn.line := by
    rw [lineBehind, List.take_add_one, hat, List.foldl_append]
    rfl
  rw [← List.take_append_drop (p + 1) placed, lineRunsOnto_append, hbehind, List.reverse_reverse,
    Image.lineForOffset_append]
  · rw [← hlast]
    exact getLast?_lineRunsOnto _ rfl
  · intro entry hmem
    rw [hbefore] at hmem
    obtain ⟨found, hfound, rfl⟩ := List.mem_map.mp (hsub.mem hmem)
    obtain ⟨i, hi⟩ := List.mem_iff_getElem?.mp hfound
    have hi' := (List.getElem?_eq_some_iff.mp hi).1
    rw [List.getElem?_take_of_lt (by rw [List.length_take] at hi'; omega)] at hi
    rw [UInt16.le_iff_toNat_le, hentry hi]
    refine Nat.le_trans (body.offsetAt_mono ?_) hstart
    rw [List.length_take] at hi'
    omega
  · intro entry hmem
    obtain ⟨found, hfound, rfl⟩ := List.mem_map.mp (hsub'.mem hmem)
    obtain ⟨i, hi⟩ := List.mem_iff_getElem?.mp hfound
    rw [List.getElem?_drop] at hi
    rw [UInt16.lt_iff_toNat_lt, hentry hi]
    exact Nat.lt_of_lt_of_le hstop (body.offsetAt_mono (Nat.le_add_right _ _))

end IsAssembly

end Body

/-! ### Lines of converted methods -/

namespace Bytecode

/-- Each operation has the line that is looked up for its offset. -/
theorem decode_line {code : Bytes} {lines : List LineNumber} {decoded : List Decoded}
    (h : decode code lines = .ok decoded) :
    ∀ entry ∈ decoded, entry.line = lineAt lines.toArray entry.offset := by
  obtain ⟨ops, -, hdecoded⟩ := bind_eq_ok_iff.mp h
  obtain rfl := Except.ok.inj hdecoded
  intro entry hentry
  obtain ⟨op, -, rfl⟩ := List.mem_map.mp hentry
  rfl

end Bytecode

namespace Conversion

open ClassFile (ConstantPool LinesIn IsLineAt)
open Bytecode (Decoded)
open Image (Record)

/-- **The line of an operation is found at each byte of its instruction.** -/
theorem KeepsCode.lineForOffset_eq {settings : Settings} {constants : ConstantPool}
    {code : ClassFile.Code} {decoded : List Decoded} {lowered : Body} {groups : List (List Record)}
    {assembly : Body.Assembly} {T : Tables}
    (h : KeepsCode settings constants code decoded lowered groups assembly T)
    (hlines : settings.lineNumbers = true) {position start : Nat} {entry : Decoded}
    {group : List Record} (hentry : decoded[position]? = some entry)
    (hplaced : (placementOf settings decoded lowered)[position]? = some (entry.offset, some start))
    (hgroup : (start, group) ∈ (finished settings lowered).starts.zip groups) {offset : UInt16}
    (hstart : start ≤ offset.toNat) (hstop : offset.toNat < start + totalSize Record.length group) :
    Image.lineForOffset assembly.lines.toArray offset = some entry.line := by
  obtain ⟨-, hkept, hat⟩ := laidOut_of_getElem?_placementOf hplaced
  obtain ⟨insn, hinsn, hline, -⟩ := exists_getElem?_of_forall₂ h.lowers.instructions hentry
  have hmoved := finished_getElem? h.lowers.valid hinsn hkept
  obtain ⟨found, group', hfound, hgroup', hmakes⟩ := h.assembles.exists_group hmoved
  have hlt := (List.getElem?_eq_some_iff.mp hmoved).1
  -- no other instruction starts there
  obtain rfl : group' = group := by
    obtain ⟨q, hq⟩ := List.mem_iff_getElem?.mp hgroup
    obtain ⟨hstart', hgroup''⟩ := List.getElem?_zip_eq_some.mp hq
    have hnodup : (finished settings lowered).starts.Nodup :=
      (finished settings lowered).pairwise_starts.imp Nat.ne_of_lt
    have hsame : movedTo settings lowered position = q :=
      (List.getElem?_inj (List.getElem?_eq_some_iff.mp hat).1 hnodup).mp (hat.trans hstart'.symm)
    rw [hsame, hgroup''] at hgroup'
    exact (Option.some.inj hgroup').symm
  have hoffset : (finished settings lowered).offsetAt (movedTo settings lowered position) =
      start := by
    rw [Body.getElem?_starts hlt] at hat
    exact Option.some.inj hat
  rw [← hline]
  refine h.assembles.lineForOffset_eq hlines hmoved (by rwa [hoffset]) ?_
  rw [Body.offsetAt_succ hmoved, hoffset, ← hmakes.totalSize]
  exact hstop

/-- A method of an image has the lines of a method of a class file. -/
inductive SameLines (settings : Settings) (constants : ConstantPool) (source : ClassFile.Method)
    (method : Image.Method) (T : Tables) : Prop where
  | bodiless (hcode : source.code constants = .ok none) (hlines : method.lines = [])
  | code {code : ClassFile.Code} {decoded : List Decoded} {placement : Placement}
    {entries : List ClassFile.LineNumber} {records : Layout Record}
    (hcode : source.code constants = .ok (some code)) (hdecodes : Decodes constants code decoded)
    (hplaced : Placed settings constants decoded method.code placement T)
    (hentries : LinesIn constants code.attributes entries)
    (hrecords : Image.disassemble method.code = .ok records)
    (hlines : ∀ offset start group, (offset, some start) ∈ placement →
      (start, group) ∈ Image.grouped records.toList → ∀ x : UInt16, start ≤ x.toNat →
      x.toNat < start + totalSize Record.length group →
      ∃ line, IsLineAt entries offset line ∧ Image.lineForOffset method.lines.toArray x = some line)
    (htable : Body.IsLineTable method.code method.lines)

/-- A method of an image has the name and the descriptor of a method of the class file, and its
lines. -/
structure NumbersAlike (settings : Settings) (constants : ConstantPool) (source : ClassFile.Method)
    (method : Image.Method) (T : Tables) : Prop where
  name : KeepsText constants source.name method.name T
  descriptor : KeepsText constants source.descriptor method.descriptor T
  lines : SameLines settings constants source method T

theorem KeepsMethod.sameLines {settings : Settings} {constants : ConstantPool}
    {source : ClassFile.Method} {method : Image.Method} {T : Tables}
    (h : KeepsMethod settings constants source method T) (hsettings : settings.lineNumbers = true) :
    SameLines settings constants source method T := by
  obtain ⟨code, hcode, hbody⟩ := h.body
  cases hbody with
  | bodiless _ hlines => exact .bodiless hcode hlines
  | @code code decoded lowered groups assembly hkeeps hbytes hlines =>
    obtain ⟨lines, hnumbers, hdecoded⟩ := hkeeps.lowers.decodes
    obtain ⟨entries, hentries, rfl⟩ := ClassFile.exists_linesIn hnumbers
    obtain ⟨records, hrecords, -, hgrouped⟩ := hkeeps.assembles.disassemble
    have hplaced := hkeeps.placed
    have htable := hkeeps.assembles.isLineTable hsettings
    rw [← hbytes] at hrecords hplaced htable
    rw [← hlines] at htable
    refine .code hcode hkeeps.lowers.decodes hplaced hentries hrecords ?_ htable
    intro offset start group hmem hgroup x hstart hstop
    obtain ⟨position, hposition⟩ := List.mem_iff_getElem?.mp hmem
    obtain ⟨hoffset, -⟩ := laidOut_of_getElem?_placementOf hposition
    rw [List.getElem?_map] at hoffset
    obtain ⟨entry, hentry, rfl⟩ := Option.map_eq_some_iff.mp hoffset
    have hline := Bytecode.decode_line hdecoded entry (List.mem_of_getElem? hentry)
    rw [hgrouped] at hgroup
    refine ⟨entry.line, ?_, ?_⟩
    · rw [hline]
      exact ClassFile.isLineAt_mergeSort entries entry.offset
    · rw [hlines]
      exact hkeeps.lineForOffset_eq hsettings hentry hposition hgroup hstart hstop

/-- **Lines are kept.** If tables of lines are kept, then at each byte of each instruction that is
left of a converted method, the line is found that the line number tables of the class file give to
its operation. The entries of the method are ordered by where they start, the first one starts at
the first instruction, and each one changes the line. -/
theorem convertClass_preserves_lines {settings : Settings} (hsettings : settings.lineNumbers = true)
    {symbols : SymbolTable} (hsymbols : Reachable symbols) {bytes written : Bytes}
    {diagnostics : List Diagnostic}
    (h : (convertClass settings symbols bytes).result = .ok (written, diagnostics)) :
    ∃ classFile image outcomes, ClassFile.ofBytes bytes = .ok classFile ∧
      Image.ofBytes written = .ok image ∧ image.methods = outcomes.reduceOption ∧
      List.Forall₂ (fun source outcome => ∀ method, outcome = some method →
        NumbersAlike settings classFile.constants source method
          (tablesOf image (convertClass settings symbols bytes).symbols))
            classFile.methods outcomes := by
  obtain ⟨-, image, classFile, work, -, hread, hfile, hcompleted, hle⟩ :=
    exists_completed hsymbols h
  obtain ⟨outcomes, hkeeps⟩ := hcompleted.keeps
  have hclass := hkeeps _ hle
  refine ⟨classFile, image, outcomes, hfile, Image.ofBytes_of_read hread, hclass.methods, ?_⟩
  refine hclass.outcomes.imp fun source outcome hmethod method hmem => ?_
  have hkept := hmethod method hmem
  exact ⟨hkept.name, hkept.descriptor, hkept.sameLines hsettings⟩

section Sample

open ClassFile.Format (word16 word32 sequence encodeAttribute encodeLine)

/-- Code that pushes zero, switches on it and returns. One table gives line 7 to the offset 20 and
line 5 to the offset 1; the other one gives line 6 to the offset 1, and line 7 to the offset 20
again. -/
def numberedCode : Bytes :=
  word16 1 ++ word16 0 ++ word32 21 ++
    [0x03, 0xAA, 0x00, 0x00, 0x00, 0x00, 0x00, 0x13, 0x00, 0x00, 0x00, 0x00, 0x00, 0x00,
      0x00, 0x00, 0x00, 0x00, 0x00, 0x13, 0xB1] ++ word16 0 ++
    sequence encodeAttribute [⟨6, sequence encodeLine [⟨20, 7⟩, ⟨1, 5⟩]⟩,
      ⟨6, sequence encodeLine [⟨1, 6⟩, ⟨20, 7⟩]⟩]

/-- A class with this code as its only method. -/
def numberedFile : ClassFile where
  version := .java8
  constants := ⟨Layout.ofList 1
    [.utf8 "A", .classRef 1, .utf8 "m", .utf8 "()V", .utf8 "Code", .utf8 "LineNumberTable"]⟩
  accessFlags := 0x21
  thisClass := 2
  superClass := 0
  interfaces := []
  fields := []
  methods := [⟨1, 3, 4, [⟨5, numberedCode⟩]⟩]
  attributes := []

/-- The bytes of the class: its constants, its head and its method. -/
def numberedClass : Bytes := [
  0xCA, 0xFE, 0xBA, 0xBE, 0x00, 0x00, 0x00, 0x34, 0x00, 0x07,
  0x01, 0x00, 0x01, 0x41, 0x07, 0x00, 0x01, 0x01, 0x00, 0x01, 0x6D, 0x01, 0x00, 0x03, 0x28,
  0x29, 0x56, 0x01, 0x00, 0x04, 0x43, 0x6F, 0x64, 0x65, 0x01, 0x00, 0x0F, 0x4C, 0x69, 0x6E, 0x65,
  0x4E, 0x75, 0x6D, 0x62, 0x65, 0x72, 0x54, 0x61, 0x62, 0x6C, 0x65,
  0x00, 0x21, 0x00, 0x02, 0x00, 0x00, 0x00, 0x00, 0x00, 0x00,
  0x00, 0x01, 0x00, 0x01, 0x00, 0x03, 0x00, 0x04, 0x00, 0x01, 0x00, 0x05, 0x00, 0x00, 0x00,
  0x41] ++ numberedCode ++ [0x00, 0x00]

/-- The number has no line, and the switch, which is twenty bytes long, has that of the second
table. -/
theorem numberedClass_preserves_lines : ∃ written diagnostics classFile image outcomes,
    (convertClass {} sampleSymbols numberedClass).result = .ok (written, diagnostics) ∧
    ClassFile.ofBytes numberedClass = .ok classFile ∧ Image.ofBytes written = .ok image ∧
    image.methods.flatMap Image.Method.lines = [⟨0, 0⟩, ⟨4, 6⟩, ⟨24, 7⟩] ∧
    image.methods = outcomes.reduceOption ∧
    List.Forall₂ (fun source outcome => ∀ method, outcome = some method →
      NumbersAlike {} classFile.constants source method
        (tablesOf image (convertClass {} sampleSymbols numberedClass).symbols))
          classFile.methods outcomes := by
  have hsource : ClassFile.ofBytes numberedClass = .ok numberedFile := rfl
  have hlines : ((convertClass {} sampleSymbols numberedClass).result.toOption.bind
      fun result => (Image.ofBytes result.1).toOption.map fun image =>
        image.methods.flatMap Image.Method.lines) = some [⟨0, 0⟩, ⟨4, 6⟩, ⟨24, 7⟩] := by
    -- The class file is put in before evaluation, which is slow on texts that are still to be
    -- decoded, and entries are ordered by insertion, which can be evaluated.
    rw [convertClass, convertInto, toImage_eq hsource rfl]
    delta classSteps convertFile convertOrSkip convertMethod convertCode lower
      ClassFile.Code.lineNumbers
    simp only [ClassFile.mergeSort_eq_insertionSort]
    decide +kernel
  rcases h : (convertClass {} sampleSymbols numberedClass).result with _ | ⟨written, diagnostics⟩
  · rw [h] at hlines
    exact absurd hlines (by simp [Except.toOption])
  · obtain ⟨classFile, image, outcomes, hfile, hread, hmethods, hsame⟩ :=
      convertClass_preserves_lines rfl reachable_sampleSymbols h
    rw [h] at hlines
    simp only [Except.toOption, Option.bind_some, hread] at hlines
    exact ⟨written, diagnostics, classFile, image, outcomes, rfl, hfile, hread,
      Option.some.inj hlines, hmethods, hsame⟩

end Sample

end Conversion

end ClassImage
