import Mathlib.Data.List.Perm.Subperm
import ClassImage.Proofs.Session

/-!
# Classes that are entered before any is converted

`Settles symbols name` says that the symbol table has nothing to do for a name: it has it, or has no
room for it. Looking into a class file settles the name of every class that its constants refer to,
provided that these names can be read (`settlesAll_prepopulate`). Conversions enter no other names,
so converting the class later leaves the table as it is (`toImage_symbols_eq`).
-/

namespace ClassImage

theorem Layout.mem_toList_of_get? {α : Type} {layout : Layout α} {index : Nat} {placed : Nat × α}
    (h : layout.get? index = some placed) : placed ∈ layout.toList := by
  obtain ⟨start, hstart, h⟩ := Option.bind_eq_some_iff.mp h
  obtain ⟨entry, hentry, h⟩ := Option.bind_eq_some_iff.mp h
  obtain rfl := Option.some.inj h
  rw [← Array.getElem?_toList] at hstart hentry
  exact List.mem_of_getElem? (List.getElem?_zip_eq_some.mpr ⟨hstart, hentry⟩)

theorem Layout.exists_mem_of_lookup {α : Type} {layout : Layout α} {offset : Nat} {entry : α}
    (h : (layout.lookup offset).found? = some entry) : ∃ start, (start, entry) ∈ layout.toList := by
  unfold lookup at h
  split at h
  · exact absurd h (by simp [Lookup.found?])
  · dsimp only at h
    split at h
    · rename_i start entry' hget
      split at h
      · obtain rfl : entry' = entry := Option.some.inj h
        exact ⟨start, mem_toList_of_get? hget⟩
      · split at h <;> exact absurd h (by simp [Lookup.found?])
    · split at h <;> exact absurd h (by simp [Lookup.found?])

namespace Conversion

open ClassFile (ConstantPool)

theorem exists_mem_of_get {constants : ConstantPool} {index : UInt16}
    {constant : ClassFile.Constant} (h : constants.get index = .ok constant) :
    ∃ slot, (slot, constant) ∈ constants.toList := by
  unfold ConstantPool.get at h
  split at h
  · rename_i constant' hfound
    obtain rfl := Except.ok.inj h
    exact Layout.exists_mem_of_lookup hfound
  · exact absurd h (by simp)

/-- Every class that the constants name is among those that a class file refers to. -/
theorem mem_classNames {classFile : ClassFile} {name : String}
    (h : NamesClass classFile.constants name) :
    .ok name ∈ SymbolTable.classNames classFile := by
  obtain ⟨index, h⟩ := h
  obtain ⟨constant, hget, h⟩ := bind_eq_ok_iff.mp h
  split at h
  · rename_i text
    obtain ⟨slot, hmem⟩ := exists_mem_of_get hget
    refine List.mem_append_right _ (List.mem_filterMap.mpr ⟨(slot, .classRef text), hmem, ?_⟩)
    exact congrArg some h
  · exact absurd h (by simp [throw, throwThe, MonadExceptOf.throw])

/-! ### Names that are settled -/

/-- A symbol table has a name, or no room for it. -/
def Settles (symbols : SymbolTable) (name : String) : Prop :=
  name ∈ symbols.toList ∨ Interned.capacity ≤ symbols.size

theorem Settles.extends {symbols later : SymbolTable} {name : String} (h : Settles symbols name)
    (hlater : Extends symbols later) : Settles later name := by
  rcases h with hmem | hfull
  · exact Or.inl (hlater.grows.subset hmem)
  · refine Or.inr (Nat.le_trans hfull ?_)
    have hlen := hlater.grows.length_le
    rwa [SymbolTable.toList, SymbolTable.toList, Interned.length_toList,
      Interned.length_toList] at hlen

/-- Names that can all be read. -/
def Readable (names : List (Except ClassFile.Fault String)) : Prop := ∀ fault, .error fault ∉ names

instance (names : List (Except ClassFile.Fault String)) : Decidable (Readable names) :=
  decidable_of_iff (∀ name ∈ names, name.isOk) <| by
    refine ⟨fun h fault hmem => absurd (h _ hmem) (by simp [Except.isOk, Except.toBool]),
      fun h name hmem => ?_⟩
    cases name with
    | error fault => exact absurd hmem (h fault)
    | ok name => rfl

section InternAll

variable {symbols : SymbolTable} {names : List (Except ClassFile.Fault String)}

theorem settles_intern (h : symbols.names.WellFormed) (name : String) :
    Settles (symbols.intern name).2 name := by
  have hspec := Interned.intern_spec h name
  rw [SymbolTable.intern]
  cases hfind : symbols.names.index[name]? with
  | some i =>
    rw [Interned.intern_of_known hfind] at hspec ⊢
    exact Or.inl (List.mem_of_getElem? (hspec.at_index i rfl).1)
  | none =>
    by_cases hroom : symbols.names.size < Interned.capacity
    · rw [Interned.intern_of_new hfind hroom] at hspec ⊢
      exact Or.inl (List.mem_of_getElem? (hspec.at_index _ rfl).1)
    · rw [Interned.intern_of_full hfind (by omega)]
      exact Or.inr (Nat.le_of_not_lt hroom)

/-- Entering stops early only at a name that cannot be read, or when the table is full. -/
theorem full_of_intern_error {name : String} {e : Error} {symbols' : SymbolTable}
    (h : symbols.intern name = (.error e, symbols')) : Interned.capacity ≤ symbols'.size := by
  rw [SymbolTable.intern] at h
  cases hfind : symbols.names.index[name]? with
  | some i =>
    rw [Interned.intern_of_known hfind] at h
    exact absurd (congrArg Prod.fst h) (by simp)
  | none =>
    by_cases hroom : symbols.names.size < Interned.capacity
    · rw [Interned.intern_of_new hfind hroom] at h
      exact absurd (congrArg Prod.fst h) (by simp)
    · rw [Interned.intern_of_full hfind (by omega)] at h
      obtain rfl : symbols = symbols' := congrArg Prod.snd h
      exact Nat.le_of_not_lt hroom

/-- **Entering names that can be read settles them all.** -/
theorem settles_internAll (h : symbols.names.WellFormed) (hread : Readable names)
    {name : String} (hname : .ok name ∈ names) : Settles (symbols.internAll names).2 name := by
  induction names generalizing symbols with
  | nil => exact absurd hname List.not_mem_nil
  | cons first rest ih =>
    cases first with
    | error fault => exact absurd List.mem_cons_self (hread fault)
    | ok first =>
      have hextends := Extends.intern h first
      have hsettles := settles_intern h first
      rw [SymbolTable.internAll]
      rcases hrun : symbols.intern first with ⟨e | id, symbols'⟩ <;> rw [hrun] at hextends hsettles
      · exact Or.inr (full_of_intern_error hrun)
      · rcases List.mem_cons.mp hname with heq | hmem
        · obtain rfl := Except.ok.inj heq
          exact hsettles.extends (.internAll hextends.wellFormed rest)
        · exact ih hextends.wellFormed (fun fault hmem =>
            hread fault (List.mem_cons_of_mem _ hmem)) hmem

theorem readable_of_internAll_ok (h : (symbols.internAll names).1 = .ok ()) : Readable names := by
  induction names generalizing symbols with
  | nil => exact fun _ => List.not_mem_nil
  | cons first rest ih =>
    cases first with
    | error fault => exact absurd h (by simp [SymbolTable.internAll])
    | ok first =>
      rw [SymbolTable.internAll] at h
      rcases hrun : symbols.intern first with ⟨e | id, symbols'⟩ <;> rw [hrun] at h
      · exact absurd h (by simp)
      · intro fault hmem
        rcases List.mem_cons.mp hmem with heq | hmem
        · exact absurd heq (by simp)
        · exact ih h fault hmem

end InternAll

/-- A symbol table that has nothing to do for the classes which constants name. -/
def SettlesAll (symbols : SymbolTable) (constants : ConstantPool) : Prop :=
  ∀ name, NamesClass constants name → Settles symbols name

theorem settlesAll_prepopulate {symbols : SymbolTable} (h : symbols.names.WellFormed)
    {classFile : ClassFile} (hread : Readable (SymbolTable.classNames classFile)) :
    SettlesAll (symbols.prepopulate classFile).2 classFile.constants :=
  fun _ hname => settles_internAll h hread (mem_classNames hname)

theorem SettlesAll.extends {symbols later : SymbolTable} {constants : ConstantPool}
    (h : SettlesAll symbols constants) (hlater : Extends symbols later) :
    SettlesAll later constants :=
  fun name hname => (h name hname).extends hlater

/-! ### Conversions with nothing to enter -/

section Settled

variable {constants : ConstantPool} {work after : Workspace}

theorem Effect.classes_eq (h : Effect constants work after)
    (hwork : SettlesAll work.symbols constants) :
    after.tables.classes = work.tables.classes := by
  by_cases hfull : Interned.capacity ≤ work.symbols.size
  · exact (h.indexed.classes.eq_of_prefix_of_full h.grows.1 hfull).symm
  · -- There is room, so the table has every name; a new one would stand in it twice.
    have hsubset : after.tables.classes ⊆ work.tables.classes := by
      intro name hname
      rcases h.classes name hname with hold | hnew
      · exact hold
      · exact (hwork name hnew).resolve_right hfull
    have hle := (List.subperm_of_subset h.indexed.classes.nodup hsubset).length_le
    exact (h.grows.1.eq_of_length (Nat.le_antisymm h.grows.1.length_le hle)).symm

/-- Steps that meet only settled classes leave the symbol table alone. -/
theorem Forgiving.symbols_eq {α : Type} {step : Convert α} (h : Forgiving constants step)
    (hindexed : work.Indexed) (hwork : SettlesAll work.symbols constants) :
    (runFrom step work).2.symbols = work.symbols := by
  have hclasses := (h.effect hindexed).classes_eq hwork
  have hreplay := h.replays work work hindexed hindexed ⟨rfl, rfl, rfl⟩ (hclasses ▸ List.prefix_rfl)
  exact hreplay.symbols

end Settled

/-- **Nothing is entered for a class whose classes are settled.** -/
theorem toImage_symbols_eq {settings : Settings} {symbols : SymbolTable} {bytes : Bytes}
    {classFile : ClassFile} (h : symbols.names.WellFormed)
    (hfile : ClassFile.ofBytes bytes = .ok classFile)
    (hsettled : SettlesAll symbols classFile.constants) :
    (toImage settings symbols bytes).symbols = symbols := by
  cases hname : classFile.name with
  | error fault => simp only [toImage, hfile, hname, Outcome.unreadable]
  | ok className =>
    have hsteps := forgiving_classSteps settings hname
    rw [toImage_eq_outcomeOf hfile hname, symbols_outcomeOf]
    exact hsteps.symbols_eq (Workspace.indexed_start h) hsettled

end Conversion

end ClassImage
