import ClassImage.Proofs.Codec
import ClassImage.Proofs.Session

/-!
# Class numbers

A name and its number determine each other in every symbol table of a session (`Numbered`), and
whatever the session does next, the name keeps its number. A new name is refused only by a full
table, which has 65535 names (`intern_eq_error_iff`). So the number 0xFFFF is never given, and it is
free to say that there is no class. A written table starts with the magic bytes and lists the names
in order; the names are read back from it (`toList_eq_of_toBytes`), hence the bytes determine the
numbers.
-/

namespace ClassImage.SymbolTable

variable {symbols later : SymbolTable} {name : String} {id : ClassId}

theorem length_toList (symbols : SymbolTable) : symbols.toList.length = symbols.size :=
  Interned.length_toList symbols.names

/-! ### Names and numbers -/

/-- A table whose names and numbers determine each other, with no name for the reserved number. -/
structure Numbered (symbols : SymbolTable) : Prop where
  distinct : symbols.toList.Nodup
  lookup_iff : ∀ name id, symbols.lookup name = some id ↔ symbols.name? id = some name
  size_le : symbols.size ≤ 65535
  reserved : symbols.name? 0xFFFF = none

theorem numbered (h : symbols.names.WellFormed) : symbols.Numbered where
  distinct := h.nodup
  lookup_iff := h.index_iff
  size_le := h.size_le
  reserved := by
    have hsize : symbols.names.entries.size ≤ 65535 := h.size_le
    exact Array.getElem?_eq_none hsize

/-- The number of a name is its place. -/
theorem lookup_eq_some_iff (h : symbols.names.WellFormed) :
    symbols.lookup name = some id ↔ symbols.toList[id.toNat]? = some name := by
  rw [toList, Interned.getElem?_toList]
  exact h.index_iff name id

theorem mem_of_lookup (h : symbols.names.WellFormed) (hname : symbols.lookup name = some id) :
    name ∈ symbols.toList :=
  List.mem_of_getElem? ((lookup_eq_some_iff h).mp hname)

theorem lookup_eq_none_of_not_mem (h : symbols.names.WellFormed) (hname : name ∉ symbols.toList) :
    symbols.lookup name = none := by
  cases hlookup : symbols.lookup name with
  | none => rfl
  | some id => exact absurd (mem_of_lookup h hlookup) hname

/-- A name keeps its number while names are added behind it. -/
theorem lookup_of_prefix (h : symbols.names.WellFormed) (h' : later.names.WellFormed)
    (hle : symbols.toList <+: later.toList) (hname : symbols.lookup name = some id) :
    later.lookup name = some id := by
  have hat := (lookup_eq_some_iff h).mp hname
  obtain ⟨added, hadded⟩ := hle
  refine (lookup_eq_some_iff h').mpr ?_
  rw [← hadded, List.getElem?_append_left (List.getElem?_eq_some_iff.mp hat).1]
  exact hat

/-! ### Entering a name -/

theorem intern_of_lookup (h : symbols.lookup name = some id) :
    symbols.intern name = (.ok id, symbols) := by
  rw [intern, Interned.intern_of_known h]

theorem intern_of_full (h : symbols.lookup name = none) (hfull : 65535 ≤ symbols.size) :
    symbols.intern name = (.error (.unsupported .classLimit), symbols) := by
  rw [intern, Interned.intern_of_full h hfull]

theorem intern_of_new (h : symbols.lookup name = none) (hroom : symbols.size < 65535) :
    ∃ later, symbols.intern name = (.ok (UInt16.ofNat symbols.size), later) ∧
      later.toList = symbols.toList ++ [name] := by
  rw [intern, Interned.intern_of_new h hroom]
  exact ⟨_, rfl, Array.toList_push⟩

/-- **A name is refused exactly if it is new and the table is full.** -/
theorem intern_eq_error_iff (h : symbols.names.WellFormed) (name : String) :
    (∃ e, (symbols.intern name).1 = .error e) ↔ symbols.lookup name = none ∧
      symbols.size = 65535 := by
  have hsize : symbols.size ≤ 65535 := h.size_le
  cases hname : symbols.lookup name with
  | some id => simp [intern_of_lookup hname]
  | none =>
    by_cases hfull : 65535 ≤ symbols.size
    · simp [intern_of_full hname hfull, Nat.le_antisymm hsize hfull]
    · obtain ⟨later, hrun, -⟩ := intern_of_new hname (Nat.not_le.mp hfull)
      rw [hrun]
      constructor
      · rintro ⟨e, he⟩
        exact nomatch he
      · rintro ⟨-, heq⟩
        omega

theorem eq_of_intern_eq_error (h : symbols.names.WellFormed) {e : Conversion.Error}
    (he : (symbols.intern name).1 = .error e) :
    symbols.intern name = (.error (.unsupported .classLimit), symbols) := by
  obtain ⟨hnew, hfull⟩ := (intern_eq_error_iff h name).mp ⟨e, he⟩
  exact intern_of_full hnew (Nat.le_of_eq hfull.symm)

/-- A number that was returned is the one that is found from then on. -/
theorem lookup_of_intern (h : symbols.names.WellFormed)
    (hrun : symbols.intern name = (.ok id, later)) :
    later.lookup name = some id := by
  have hspec := Interned.intern_spec h name
  rw [intern] at hrun
  rcases hnames : symbols.names.intern name with ⟨_ | i, names⟩ <;> rw [hnames] at hrun hspec
  · exact absurd (congrArg Prod.fst hrun) (by simp)
  · obtain ⟨hid, rfl⟩ := Prod.mk.inj hrun
    obtain rfl := Except.ok.inj hid
    obtain ⟨hat, -⟩ := hspec.at_index i rfl
    exact (lookup_eq_some_iff hspec.wellFormed).mpr hat

/-! ### Written tables -/

/-- The bytes of a table whose names are short enough. -/
def encode (symbols : SymbolTable) : Bytes :=
  magic ++ Image.encodeList Image.encodeText symbols.toList

/-- A table all of whose names fit behind their lengths. -/
def Short (symbols : SymbolTable) : Prop := ∀ name ∈ symbols.toList, name.utf8ByteSize ≤ 65535

theorem emits_write (h : symbols.names.WellFormed) :
    Emits symbols.write symbols.Short symbols.encode := by
  have hlength : symbols.toList.length ≤ 0xFFFF := by
    rw [length_toList]
    exact h.size_le
  refine ((Emits.bytes magic).bind (Emits.counted Image.emits_text symbols.toList)).congr ?_ rfl
  constructor
  · rintro ⟨-, -, hshort⟩
    exact hshort
  · intro hshort
    exact ⟨trivial, hlength, hshort⟩

theorem exists_toBytes_iff (h : symbols.names.WellFormed) :
    (∃ written, symbols.toBytes = .ok written) ↔ symbols.Short := by
  constructor
  · rintro ⟨written, hwritten⟩
    by_contra hlong
    obtain ⟨n, -, he⟩ := (emits_write h).toBytes_refused hlong
    rw [toBytes, he] at hwritten
    exact nomatch hwritten
  · intro hshort
    exact ⟨_, (emits_write h).toBytes hshort⟩

/-- **The names of a table are read back from its bytes.** -/
theorem toList_eq_of_toBytes {symbols' : SymbolTable} (h : symbols.names.WellFormed)
    (h' : symbols'.names.WellFormed) {written : Bytes} (hwritten : symbols.toBytes = .ok written)
    (hwritten' : symbols'.toBytes = .ok written) : symbols.toList = symbols'.toList := by
  have hreads : ∀ {table : SymbolTable}, table.names.WellFormed → table.toBytes = .ok written →
      written = table.encode ∧
        Reader.counted .little Image.readText (Image.encodeList Image.encodeText table.toList) =
          .ok (table.toList, []) := by
    intro table hwell hbytes
    have hshort := (exists_toBytes_iff hwell).mp ⟨written, hbytes⟩
    refine ⟨Except.ok.inj (hbytes.symm.trans ((emits_write hwell).toBytes hshort)), ?_⟩
    refine (Image.reads_list ?_ fun name hname => Image.reads_text (hshort name hname)).alone
    rw [length_toList]
    exact hwell.size_le
  obtain ⟨heq, hread⟩ := hreads h hwritten
  obtain ⟨heq', hread'⟩ := hreads h' hwritten'
  have hlists := List.append_cancel_left (heq.symm.trans heq')
  rw [hlists, hread'] at hread
  exact (Prod.mk.inj (Except.ok.inj hread)).1.symm

end ClassImage.SymbolTable

namespace ClassImage.Conversion

theorem Reachable.convertClass {symbols : SymbolTable} (h : Reachable symbols) (settings : Settings)
    (bytes : Bytes) : Reachable (convertClass settings symbols bytes).symbols :=
  h.convert settings bytes .unlimited

theorem Leads.convertClass {start symbols : SymbolTable} (h : Leads start symbols)
    (settings : Settings) (bytes : Bytes) :
    Leads start (convertClass settings symbols bytes).symbols :=
  h.convert settings bytes .unlimited

/-- **Class numbers are final.** In every table of a session names and numbers determine each other.
What the session does next adds names at the end, so each name keeps its number and each number its
name. A name is refused exactly if it is new and the table is full, and the table is then unchanged.
And tables of two sessions that are written to the same bytes number all classes alike. -/
theorem class_numbers_final :
    (∀ symbols, Reachable symbols → symbols.Numbered ∧
      (∀ later, Leads symbols later → symbols.toList <+: later.toList ∧
        ∀ name id, symbols.lookup name = some id →
          later.lookup name = some id ∧ later.name? id = some name) ∧
      (∀ name, ((∃ e, (symbols.intern name).1 = .error e) ↔
          symbols.lookup name = none ∧ symbols.size = 65535) ∧
        (∀ e, (symbols.intern name).1 = .error e →
          symbols.intern name = (.error (.unsupported .classLimit), symbols)) ∧
        ∀ id later, symbols.intern name = (.ok id, later) → later.lookup name = some id) ∧
      ((∃ written, symbols.toBytes = .ok written) ↔ ∀ name ∈ symbols.toList,
        name.utf8ByteSize ≤ 65535)) ∧
    ∀ symbols symbols' written, Reachable symbols → Reachable symbols' →
      symbols.toBytes = .ok written → symbols'.toBytes = .ok written →
        ∀ name, symbols.lookup name = symbols'.lookup name := by
  refine ⟨fun symbols hreachable => ?_, ?_⟩
  · have hwell := hreachable.wellFormed
    refine ⟨SymbolTable.numbered hwell, ?_, ?_, SymbolTable.exists_toBytes_iff hwell⟩
    · intro later hleads
      have hextends := hleads.extends hwell
      refine ⟨hextends.grows, fun name id hname => ?_⟩
      have hlater := SymbolTable.lookup_of_prefix hwell hextends.wellFormed hextends.grows hname
      exact ⟨hlater, ((SymbolTable.numbered hextends.wellFormed).lookup_iff name id).mp hlater⟩
    · intro name
      exact ⟨SymbolTable.intern_eq_error_iff hwell name,
        fun e he => SymbolTable.eq_of_intern_eq_error hwell he,
        fun id later hrun => SymbolTable.lookup_of_intern hwell hrun⟩
  · intro symbols symbols' written h h' hwritten hwritten' name
    have hlists := SymbolTable.toList_eq_of_toBytes h.wellFormed h'.wellFormed hwritten hwritten'
    exact h.wellFormed.index_congr h'.wellFormed hlists name

/-- The name `aaa…` of a given length. -/
def sampleName (n : Nat) : String := String.ofList (List.replicate n 'a')

theorem sampleName_inj {m n : Nat} (h : sampleName m = sampleName n) : m = n := by
  have hlists : List.replicate m 'a' = List.replicate n 'a' := String.ofList_injective h
  simpa using congrArg List.length hlists

theorem exists_reachable_sampleNames {n : Nat} (h : n ≤ 65535) :
    ∃ symbols, Reachable symbols ∧ symbols.toList = (List.range n).map sampleName := by
  induction n with
  | zero => exact ⟨.empty, .empty, rfl⟩
  | succ n ih =>
    obtain ⟨symbols, hreachable, hlist⟩ := ih (by omega)
    have hsize : symbols.size = n := by
      rw [← SymbolTable.length_toList, hlist]
      simp
    have hnew : symbols.lookup (sampleName n) = none := by
      refine SymbolTable.lookup_eq_none_of_not_mem hreachable.wellFormed ?_
      rw [hlist]
      intro hmem
      obtain ⟨m, hm, heq⟩ := List.mem_map.mp hmem
      obtain rfl := sampleName_inj heq
      exact absurd (List.mem_range.mp hm) (Nat.lt_irrefl m)
    obtain ⟨later, hrun, htoList⟩ := SymbolTable.intern_of_new hnew (by omega)
    refine ⟨later, ?_, ?_⟩
    · have hnext := hreachable.intern (sampleName n)
      rwa [hrun] at hnext
    · rw [htoList, hlist, List.range_succ, List.map_append, List.map_singleton]

theorem sampleName_ne (n : Nat) : sampleName n ≠ "b" := by
  intro h
  have hlists : List.replicate n 'a' = ['b'] := String.ofList_injective h
  have hmem : 'b' ∈ List.replicate n 'a' := by
    rw [hlists]
    exact List.mem_singleton_self 'b'
  exact absurd (List.eq_of_mem_replicate hmem) (by decide)

/-- Sessions reach tables of every size that lack `b`. -/
theorem exists_reachable_of_size {n : Nat} (h : n ≤ 65535) :
    ∃ symbols, Reachable symbols ∧ symbols.size = n ∧ symbols.lookup "b" = none := by
  obtain ⟨symbols, hreachable, hlist⟩ := exists_reachable_sampleNames h
  refine ⟨symbols, hreachable, ?_, ?_⟩
  · rw [← SymbolTable.length_toList, hlist, List.length_map, List.length_range]
  · refine SymbolTable.lookup_eq_none_of_not_mem hreachable.wellFormed ?_
    rw [hlist]
    intro hmem
    obtain ⟨m, -, heq⟩ := List.mem_map.mp hmem
    exact sampleName_ne m heq

/-- A session that entered the names one by one which the sample class brings with it. -/
def sampleNamed : SymbolTable := ((sampleSymbols.intern "A").2.intern "B").2

/-- A full table refuses `b`. The class `C` keeps its number in the sample session, whose table
after the conversion has the same bytes as the one of a session that only entered the names. -/
theorem sample_numbers_final :
    (∃ symbols, Reachable symbols ∧ symbols.size = 65535 ∧ symbols.lookup "b" = none ∧
      symbols.intern "b" = (.error (.unsupported .classLimit), symbols)) ∧
    (sampleSymbols.lookup "C" = some 0 ∧ sampleLater.lookup "C" = some 0) ∧
    ∃ written, (convertClass {} sampleSymbols sampleClass).symbols.toBytes = .ok written ∧
      sampleNamed.toBytes = .ok written ∧
      ∀ name, (convertClass {} sampleSymbols sampleClass).symbols.lookup name =
        sampleNamed.lookup name := by
  obtain ⟨holds, hwritten⟩ := class_numbers_final
  have hconverted : Reachable (convertClass {} sampleSymbols sampleClass).symbols :=
    reachable_sampleSymbols.convertClass {} sampleClass
  refine ⟨?_, ?_, ?_⟩
  · obtain ⟨symbols, hreachable, hsize, hnew⟩ := exists_reachable_of_size (Nat.le_refl 65535)
    obtain ⟨-, -, hintern, -⟩ := holds symbols hreachable
    obtain ⟨hiff, hrefused, -⟩ := hintern "b"
    obtain ⟨e, he⟩ := hiff.mpr ⟨hnew, hsize⟩
    exact ⟨symbols, hreachable, hsize, hnew, hrefused e he⟩
  · have hnumber : sampleSymbols.lookup "C" = some 0 := by decide +kernel
    obtain ⟨-, hlater, -⟩ := holds sampleSymbols reachable_sampleSymbols
    have hleads : Leads sampleSymbols sampleLater :=
      .intern (.convertClass .refl {} sampleClass) "D"
    obtain ⟨-, hkept⟩ := hlater sampleLater hleads
    exact ⟨hnumber, (hkept "C" 0 hnumber).1⟩
  · have hsame : (convertClass {} sampleSymbols sampleClass).symbols.toBytes =
        sampleNamed.toBytes := by
      decide +kernel
    have hnamed : Reachable sampleNamed := (reachable_sampleSymbols.intern "A").intern "B"
    obtain ⟨-, -, -, hiff⟩ := holds sampleNamed hnamed
    obtain ⟨written, hbytes⟩ := hiff.mpr (by decide +kernel)
    exact ⟨written, hsame.trans hbytes, hbytes,
      hwritten _ _ written hconverted hnamed (hsame.trans hbytes) hbytes⟩

end ClassImage.Conversion
