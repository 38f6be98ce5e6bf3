import ClassImage.Proofs.Steps

/-!
# Conversions that are run again

What a step does to the tables is said once (`Effect`): they grow, by names that come from the
constants of the class. From this follows how two runs of one step compare. The second run starts
with the same tables of the class and with a symbol table that has all the classes which the first
run left behind. Every class is then found where the first run entered it, one that found no place
finds none again, and so the second run returns the same and leaves its symbol table alone
(`Forgiving.replays`).
-/

namespace ClassImage.Conversion

open ClassFile (ConstantPool)
open Image (Constant Member)

/-! ### What steps leave behind -/

/-- Each table is the inverse of its search tree. -/
structure Workspace.Indexed (work : Workspace) : Prop where
  classes : work.symbols.names.WellFormed
  names : work.pool.names.WellFormed
  constants : work.pool.constants.WellFormed
  members : work.pool.members.WellFormed

theorem Workspace.indexed_start {symbols : SymbolTable} (h : symbols.names.WellFormed) :
    (Workspace.start symbols).Indexed where
  classes := h
  names := Interned.wellFormed_empty
  constants := Interned.wellFormed_empty
  members := Interned.wellFormed_empty

/-- What a step with these constants does to the tables: they grow, and the names that are new come
from the constants. -/
structure Effect (constants : ConstantPool) (work after : Workspace) : Prop where
  indexed : after.Indexed
  grows : work.tables ≤ after.tables
  classes : ∀ name ∈ after.tables.classes, name ∈ work.tables.classes ∨ NamesClass constants name
  names : ∀ name ∈ after.tables.names, name ∈ work.tables.names ∨ HasText constants name

namespace Effect

variable {constants : ConstantPool} {work middle after : Workspace}

/-- Reports change no table. -/
theorem of_eq (h : work.Indexed) (hsymbols : after.symbols = work.symbols)
    (hpool : after.pool = work.pool) :
    Effect constants work after := by
  obtain ⟨symbols, pool, events, diagnostics⟩ := after
  obtain rfl := hsymbols
  obtain rfl := hpool
  exact ⟨⟨h.classes, h.names, h.constants, h.members⟩, Tables.le_refl _,
    fun _ => Or.inl, fun _ => Or.inl⟩

theorem refl (h : work.Indexed) : Effect constants work work := of_eq h rfl rfl

theorem trans (h : Effect constants work middle) (h' : Effect constants middle after) :
    Effect constants work after where
  indexed := h'.indexed
  grows := Tables.le_trans h.grows h'.grows
  classes name hname := (h'.classes name hname).elim (h.classes name) Or.inr
  names name hname := (h'.names name hname).elim (h.names name) Or.inr

end Effect

section Straight

variable {α : Type} {constants : ConstantPool} {step : Convert α} {work : Workspace}

/-- **Steps only let the tables grow**, by names of the constants they look into. -/
theorem Straight.effect (h : Straight constants step) (hwork : work.Indexed) :
    Effect constants work (runFrom step work).2 := by
  induction h generalizing work with
  | pure | throw | report => exact .of_eq hwork rfl rfl
  | @internClass name hname =>
    have hspec := Interned.intern_spec hwork.classes name
    rw [runFrom_internClass]
    refine ⟨⟨hspec.wellFormed, hwork.names, hwork.constants, hwork.members⟩,
      ⟨hspec.prefix_toList, List.prefix_rfl, List.prefix_rfl, List.prefix_rfl⟩, ?_, fun _ => Or.inl⟩
    intro other hother
    rcases hspec.mem hother with hold | rfl
    · exact Or.inl hold
    · exact Or.inr hname
  | @internName name hname =>
    have hspec := Interned.intern_spec hwork.names name
    rw [runFrom_internName]
    refine ⟨⟨hwork.classes, hspec.wellFormed, hwork.constants, hwork.members⟩,
      ⟨List.prefix_rfl, hspec.prefix_toList, List.prefix_rfl, List.prefix_rfl⟩, fun _ => Or.inl, ?_⟩
    intro other hother
    rcases hspec.mem hother with hold | rfl
    · exact Or.inl hold
    · exact Or.inr hname
  | internConstant constant =>
    have hspec := Interned.intern_spec hwork.constants constant
    rw [runFrom_internConstant]
    exact ⟨⟨hwork.classes, hwork.names, hspec.wellFormed, hwork.members⟩,
      ⟨List.prefix_rfl, List.prefix_rfl, hspec.prefix_toList, List.prefix_rfl⟩, fun _ => Or.inl,
      fun _ => Or.inl⟩
  | addMember member =>
    have hspec := Interned.intern_spec hwork.members member
    rw [runFrom_addMember]
    exact ⟨⟨hwork.classes, hwork.names, hwork.constants, hspec.wellFormed⟩,
      ⟨List.prefix_rfl, List.prefix_rfl, List.prefix_rfl, hspec.prefix_toList⟩, fun _ => Or.inl,
      fun _ => Or.inl⟩
  | @bind _ _ step next _ _ ih ih' =>
    have hstep := ih hwork
    rw [runFrom_bind]
    rcases hrun : runFrom step work with ⟨e | a, middle⟩ <;> rw [hrun] at hstep
    · exact hstep
    · exact hstep.trans (ih' a hstep.indexed)

/-- No step fails with an error of writing. -/
theorem Straight.harmless (h : Straight constants step) (work : Workspace) (e : Error)
    (he : (runFrom step work).1 = .error e) : e.isClassFatal = false := by
  induction h generalizing work with
  | pure | report => exact nomatch he
  | throw hown =>
    obtain rfl := Except.error.inj he
    exact isClassFatal_of_isOwn hown
  | internClass | internName | internConstant | addMember =>
    simp only [runFrom_internClass, runFrom_internName, runFrom_internConstant,
      runFrom_addMember] at he
    obtain ⟨-, rfl⟩ := eq_of_found_eq_error he
    rfl
  | @bind _ _ step next _ _ ih ih' =>
    have hstep := ih work
    rw [runFrom_bind] at he
    rcases hrun : runFrom step work with ⟨e' | a, middle⟩ <;> rw [hrun] at he hstep
    · obtain rfl := Except.error.inj he
      exact hstep rfl
    · exact ih' a middle he

/-- Steps leave out nothing. -/
theorem Straight.diagnostics_eq (h : Straight constants step) (work : Workspace) :
    (runFrom step work).2.diagnostics = work.diagnostics := by
  induction h generalizing work with
  | pure | throw | report => rfl
  | internClass | internName | internConstant | addMember =>
    simp only [runFrom_internClass, runFrom_internName, runFrom_internConstant, runFrom_addMember]
  | @bind _ _ step next _ _ ih ih' =>
    have hstep := ih work
    rw [runFrom_bind]
    rcases hrun : runFrom step work with ⟨e | a, middle⟩ <;> rw [hrun] at hstep
    · exact hstep
    · exact (ih' a middle).trans hstep

end Straight

theorem runFrom_skip {α : Type} (diagnostic : Diagnostic) (work : Workspace) :
    runFrom (leaveOut diagnostic >>= fun _ => pure (none : Option α)) work =
      (.ok none, { work with
        events := work.events.push (.failed diagnostic)
        diagnostics := work.diagnostics.push diagnostic }) := rfl

theorem runFrom_complete {α : Type} (f : List String → List Constant → List Member → α)
    (work : Workspace) : runFrom (complete f) work =
      (.ok (f work.tables.names work.tables.constants work.tables.members), work) := rfl

theorem runFrom_reported {α : Type} (step : Convert α) (diagnostic : Error → Diagnostic)
    (work : Workspace) :
    runFrom (tryCatch step fun e => leaveOut (diagnostic e) >>= fun _ => throw e) work =
      match runFrom step work with
      | (.ok a, after) => (.ok a, after)
      | (.error e, after) => (.error e, { after with
          events := after.events.push (.failed (diagnostic e))
          diagnostics := after.diagnostics.push (diagnostic e) }) := by
  rw [runFrom_tryCatch]
  rcases runFrom step work with ⟨e | a, after⟩ <;> rfl

theorem indexed_forget {work after : Workspace} (h : after.Indexed) :
    (work.forget after).Indexed where
  classes := h.classes
  names := Interned.wellFormed_truncate h.names _
  constants := Interned.wellFormed_truncate h.constants _
  members := Interned.wellFormed_truncate h.members _

/-- What is left of a step that was forgotten: the classes it entered. -/
theorem Effect.forget {constants : ConstantPool} {work after : Workspace}
    (h : Effect constants work after) : Effect constants work (work.forget after) := by
  have htables := tables_forget h.grows
  refine ⟨indexed_forget h.indexed, ?_, ?_, ?_⟩ <;> rw [htables]
  · exact ⟨h.grows.1, List.prefix_rfl, List.prefix_rfl, List.prefix_rfl⟩
  · exact h.classes
  · exact fun _ => Or.inl

section Forgiving

variable {α : Type} {constants : ConstantPool} {step : Convert α} {work : Workspace}

theorem Forgiving.effect (h : Forgiving constants step) (hwork : work.Indexed) :
    Effect constants work (runFrom step work).2 := by
  induction h generalizing work with
  | straight h => exact h.effect hwork
  | @attempt _ step h diagnostic _ =>
    have hstep := h.effect hwork
    have hharmless := h.harmless work
    rw [runFrom_attempt]
    rcases hrun : runFrom step work with ⟨e | a, after⟩ <;> rw [hrun] at hstep hharmless
    · simp only [hharmless e rfl, Bool.false_eq_true, if_false, runFrom_skip]
      exact hstep.forget.trans (.of_eq hstep.forget.indexed rfl rfl)
    · exact hstep
  | @reported _ step diagnostic _ _ ih =>
    have hstep := ih hwork
    rw [runFrom_reported]
    rcases hrun : runFrom step work with ⟨e | a, after⟩ <;> rw [hrun] at hstep
    · exact hstep.trans (.of_eq hstep.indexed rfl rfl)
    · exact hstep
  | complete f => exact .refl hwork
  | @bind _ _ step next _ _ ih ih' =>
    have hstep := ih hwork
    rw [runFrom_bind]
    rcases hrun : runFrom step work with ⟨e | a, middle⟩ <;> rw [hrun] at hstep
    · exact hstep
    · exact hstep.trans (ih' a hstep.indexed)

/-- **Conversions are as good as their steps.** What every step keeps true of the symbol table is
kept true, and what holds of every error that a step fails with holds of the errors of what is left
out. -/
theorem Forgiving.carries (Inv : SymbolTable → Prop) {P : Error → Prop}
    (hsteps : ∀ {β : Type} {step : Convert β}, Straight constants step → ∀ work, Inv work.symbols →
      Inv (runFrom step work).2.symbols ∧ ∀ e, (runFrom step work).1 = .error e → P e)
    (h : Forgiving constants step) (hsymbols : Inv work.symbols)
    (hwork : ∀ diagnostic ∈ work.diagnostics, P diagnostic.error) :
    Inv (runFrom step work).2.symbols ∧ (∀ e, (runFrom step work).1 = .error e → P e) ∧
      ∀ diagnostic ∈ (runFrom step work).2.diagnostics, P diagnostic.error := by
  induction h generalizing work with
  | straight h =>
    obtain ⟨hinv, herrors⟩ := hsteps h work hsymbols
    rw [h.diagnostics_eq]
    exact ⟨hinv, herrors, hwork⟩
  | @attempt _ step h diagnostic herror =>
    have hsame := h.diagnostics_eq work
    obtain ⟨hinv, herrors⟩ := hsteps h work hsymbols
    rw [runFrom_attempt]
    rcases hrun : runFrom step work with ⟨e | a, after⟩ <;> rw [hrun] at hsame hinv herrors
    · by_cases hfatal : e.isClassFatal
      · simp only [hfatal, if_true]
        refine ⟨hinv, fun e' he' => ?_, fun reported hreported =>
          hwork reported (hsame ▸ hreported)⟩
        obtain rfl := Except.error.inj he'
        exact herrors e rfl
      · simp only [hfatal, Bool.false_eq_true, if_false, runFrom_skip]
        refine ⟨hinv, fun _ h => absurd h (by simp), fun reported hreported => ?_⟩
        rcases Array.mem_push.mp hreported with hold | rfl
        · exact hwork reported (hsame ▸ hold)
        · rw [herror]
          exact herrors e rfl
    · exact ⟨hinv, fun _ h => absurd h (by simp), fun reported hreported =>
        hwork reported (hsame ▸ hreported)⟩
  | @reported _ step diagnostic _ herror ih =>
    obtain ⟨hinv, herrors, hdiagnostics⟩ := ih hsymbols hwork
    rw [runFrom_reported]
    rcases hrun : runFrom step work with ⟨e | a, after⟩ <;> rw [hrun] at hinv herrors hdiagnostics
    · refine ⟨hinv, herrors, fun reported hreported => ?_⟩
      rcases Array.mem_push.mp hreported with hold | rfl
      · exact hdiagnostics reported hold
      · rw [herror]
        exact herrors e rfl
    · exact ⟨hinv, herrors, hdiagnostics⟩
  | complete f => exact ⟨hsymbols, fun _ h => absurd h (by simp [runFrom_complete]), hwork⟩
  | @bind _ _ step next _ _ ih ih' =>
    obtain ⟨hinv, herrors, hdiagnostics⟩ := ih hsymbols hwork
    rw [runFrom_bind]
    rcases hrun : runFrom step work with ⟨e | a, middle⟩ <;> rw [hrun] at hinv herrors hdiagnostics
    · refine ⟨hinv, fun e' he' => ?_, hdiagnostics⟩
      obtain rfl := Except.error.inj he'
      exact herrors e rfl
    · exact ih' a hinv hdiagnostics

/-- **A conversion never reports an error of writing**, neither as its own nor of what it left
out. -/
theorem Forgiving.harmless (h : Forgiving constants step)
    (hwork : ∀ diagnostic ∈ work.diagnostics, diagnostic.error.isClassFatal = false) :
    (∀ e, (runFrom step work).1 = .error e → e.isClassFatal = false) ∧
      ∀ diagnostic ∈ (runFrom step work).2.diagnostics, diagnostic.error.isClassFatal = false :=
  (h.carries (fun _ => True) (fun hstep work _ => ⟨trivial, hstep.harmless work⟩) trivial hwork).2

end Forgiving

/-! ### Running again -/

/-- Two states have the same tables of the class. -/
structure Workspace.SamePool (work work' : Workspace) : Prop where
  names : work.tables.names = work'.tables.names
  constants : work.tables.constants = work'.tables.constants
  members : work.tables.members = work'.tables.members

/-- What was reported between two states. -/
structure Logged (work after : Workspace) (events : Array Event) (diagnostics : Array Diagnostic) :
    Prop where
  events : after.events = work.events ++ events
  diagnostics : after.diagnostics = work.diagnostics ++ diagnostics

namespace Logged

variable {work middle after : Workspace} {events events' : Array Event}
  {diagnostics diagnostics' : Array Diagnostic}

theorem nothing (hevents : after.events = work.events)
    (hdiagnostics : after.diagnostics = work.diagnostics) :
    Logged work after #[] #[] :=
  ⟨by rw [hevents, Array.append_empty], by rw [hdiagnostics, Array.append_empty]⟩

theorem trans (h : Logged work middle events diagnostics)
    (h' : Logged middle after events' diagnostics') :
    Logged work after (events ++ events') (diagnostics ++ diagnostics') := by
  constructor
  · rw [h'.events, h.events, Array.append_assoc]
  · rw [h'.diagnostics, h.diagnostics, Array.append_assoc]

/-- One more thing that is left out, with its report. -/
theorem push {last : Workspace} {event : Event} {diagnostic : Diagnostic}
    (h : Logged work after events diagnostics) (hevents : last.events = after.events.push event)
    (hdiagnostics : last.diagnostics = after.diagnostics.push diagnostic) :
    Logged work last (events.push event) (diagnostics.push diagnostic) := by
  constructor
  · rw [hevents, h.events, Array.append_push]
  · rw [hdiagnostics, h.diagnostics, Array.append_push]

end Logged

/-- The second of two runs does what the first one did and leaves its symbol table alone. -/
structure Replayed {α : Type} (work work' : Workspace) (run run' : Except Error α × Workspace) :
    Prop where
  result : run'.1 = run.1
  symbols : run'.2.symbols = work'.symbols
  samePool : run.2.SamePool run'.2
  logged : ∃ events diagnostics, Logged work run.2 events diagnostics ∧
    Logged work' run'.2 events diagnostics

/-- Wherever the classes are known that a step leaves behind, it does the same again. -/
def Replays {α : Type} (step : Convert α) : Prop :=
  ∀ work work' : Workspace, work.Indexed → work'.Indexed → work.SamePool work' →
    (runFrom step work).2.tables.classes <+: work'.tables.classes →
      Replayed work work' (runFrom step work) (runFrom step work')

namespace Replays

/-- Steps that look at no table and change none. -/
theorem of_run {α : Type} {step : Convert α} (result : Except Error α) (events : Array Event)
    (h : ∀ work, runFrom step work = (result, { work with events := work.events ++ events })) :
    Replays step := by
  intro work work' _ _ hpool _
  rw [h work, h work']
  exact ⟨rfl, rfl, ⟨hpool.names, hpool.constants, hpool.members⟩, events, #[],
    ⟨rfl, Array.append_empty.symm⟩, ⟨rfl, Array.append_empty.symm⟩⟩

/-- **A class is found where it was entered before.** -/
theorem internClass (name : String) : Replays (internClass name) := by
  intro work work' hwork hwork' hpool hclasses
  rw [runFrom_internClass] at hclasses
  have hagain := Interned.intern_of_prefix hwork.classes hwork'.classes hclasses
  rw [runFrom_internClass, runFrom_internClass, hagain]
  exact ⟨rfl, rfl, ⟨hpool.names, hpool.constants, hpool.members⟩, #[], #[],
    .nothing rfl rfl, .nothing rfl rfl⟩

theorem internName (name : String) : Replays (internName name) := by
  intro work work' hwork hwork' hpool _
  obtain ⟨hfound, hlist⟩ := Interned.intern_congr hwork.names hwork'.names hpool.names name
  rw [runFrom_internName, runFrom_internName, hfound]
  exact ⟨rfl, rfl, ⟨hlist, hpool.constants, hpool.members⟩, #[], #[],
    .nothing rfl rfl, .nothing rfl rfl⟩

theorem internConstant (constant : Constant) : Replays (internConstant constant) := by
  intro work work' hwork hwork' hpool _
  obtain ⟨hfound, hlist⟩ :=
    Interned.intern_congr hwork.constants hwork'.constants hpool.constants constant
  rw [runFrom_internConstant, runFrom_internConstant, hfound]
  exact ⟨rfl, rfl, ⟨hpool.names, hlist, hpool.members⟩, #[], #[],
    .nothing rfl rfl, .nothing rfl rfl⟩

theorem addMember (member : Member) : Replays (addMember member) := by
  intro work work' hwork hwork' hpool _
  obtain ⟨hfound, hlist⟩ := Interned.intern_congr hwork.members hwork'.members hpool.members member
  rw [runFrom_addMember, runFrom_addMember, hfound]
  exact ⟨rfl, rfl, ⟨hpool.names, hpool.constants, hlist⟩, #[], #[],
    .nothing rfl rfl, .nothing rfl rfl⟩

theorem bind {α β : Type} {constants : ConstantPool} {step : Convert α} {next : α → Convert β}
    (heffect : ∀ {work}, work.Indexed → Effect constants work (runFrom step work).2)
    (heffect' : ∀ a {work}, work.Indexed → Effect constants work (runFrom (next a) work).2)
    (h : Replays step) (h' : ∀ a, Replays (next a)) : Replays (step >>= next) := by
  intro work work' hwork hwork' hpool hclasses
  have hindexed := (heffect hwork).indexed
  have hindexed' := (heffect hwork').indexed
  rw [runFrom_bind] at hclasses
  rw [runFrom_bind, runFrom_bind]
  rcases hrun : runFrom step work with ⟨e | a, middle⟩ <;> rw [hrun] at hclasses hindexed
  · have hstep := h work work' hwork hwork' hpool (by rw [hrun]; exact hclasses)
    rw [hrun] at hstep
    obtain ⟨hresult, hsymbols, hsame, hlogged⟩ := hstep
    rcases hrun' : runFrom step work' with ⟨e' | a', middle'⟩ <;>
      rw [hrun'] at hresult hsymbols hsame hlogged
    · obtain rfl := Except.error.inj hresult
      exact ⟨rfl, hsymbols, hsame, hlogged⟩
    · exact absurd hresult (by simp)
  · -- The classes after the first step are among those after both.
    have hgrows := (heffect' a hindexed).grows.1
    have hstep := h work work' hwork hwork' hpool (by rw [hrun]; exact hgrows.trans hclasses)
    rw [hrun] at hstep
    obtain ⟨hresult, hsymbols, hsame, events, diagnostics, hlog, hlog'⟩ := hstep
    rcases hrun' : runFrom step work' with ⟨e' | a', middle'⟩ <;>
      rw [hrun'] at hresult hsymbols hsame hlog' hindexed'
    · exact absurd hresult (by simp)
    · obtain rfl := Except.ok.inj hresult
      have hsame_symbols : middle'.symbols = work'.symbols := hsymbols
      have hknown : (runFrom (next a') middle).2.tables.classes <+: middle'.symbols.toList := by
        rw [hsame_symbols]
        exact hclasses
      obtain ⟨hresult', hsymbols', hsame', events', diagnostics', hnext, hnext'⟩ :=
        h' a' middle middle' hindexed hindexed' hsame hknown
      exact ⟨hresult', hsymbols'.trans hsymbols, hsame', _, _, hlog.trans hnext, hlog'.trans hnext'⟩

end Replays

theorem Straight.replays {α : Type} {constants : ConstantPool} {step : Convert α}
    (h : Straight constants step) : Replays step := by
  induction h with
  | pure a => exact .of_run (.ok a) #[] fun work => by rw [Array.append_empty]; rfl
  | @throw _ e _ => exact .of_run (.error e) #[] fun work => by rw [Array.append_empty]; rfl
  | report event => exact .of_run (.ok ()) #[event] fun work => by rw [← Array.push_eq_append]; rfl
  | internClass => exact .internClass _
  | internName => exact .internName _
  | internConstant => exact .internConstant _
  | addMember => exact .addMember _
  | bind h h' ih ih' => exact .bind h.effect (fun a => (h' a).effect) ih ih'

/-- A step that failed in both runs is forgotten in both. -/
theorem Workspace.SamePool.forget {work work' after after' : Workspace} (h : work.SamePool work')
    (hle : work.tables ≤ after.tables) (hle' : work'.tables ≤ after'.tables) :
    (work.forget after).SamePool (work'.forget after') := by
  have htables := tables_forget hle
  have htables' := tables_forget hle'
  refine ⟨?_, ?_, ?_⟩ <;> rw [htables, htables']
  · exact h.names
  · exact h.constants
  · exact h.members

theorem Replays.attempt {α : Type} {constants : ConstantPool} {step : Convert α}
    (h : Straight constants step) (diagnostic : Error → Diagnostic) :
    Replays (attempt step diagnostic) := by
  intro work work' hwork hwork' hpool hclasses
  have hgrows := (h.effect hwork).grows
  have hgrows' := (h.effect hwork').grows
  have hharmless := h.harmless work
  rw [runFrom_attempt] at hclasses
  rw [runFrom_attempt, runFrom_attempt]
  rcases hrun : runFrom step work with ⟨e | a, after⟩ <;> rw [hrun] at hclasses hgrows hharmless
  · simp only [hharmless e rfl, Bool.false_eq_true, if_false, runFrom_skip] at hclasses
    have hstep := h.replays work work' hwork hwork' hpool (by rw [hrun]; exact hclasses)
    rw [hrun] at hstep
    obtain ⟨hresult, hsymbols, hsame, events, diagnostics, hlog, hlog'⟩ := hstep
    rcases hrun' : runFrom step work' with ⟨e' | a', after'⟩ <;>
      rw [hrun'] at hresult hsymbols hlog' hgrows'
    · obtain rfl := Except.error.inj hresult
      simp only [hharmless e' rfl, Bool.false_eq_true, if_false, runFrom_skip]
      have hforget := hpool.forget hgrows hgrows'
      exact ⟨rfl, hsymbols, ⟨hforget.names, hforget.constants, hforget.members⟩, _, _,
        hlog.push rfl rfl, hlog'.push rfl rfl⟩
    · exact absurd hresult (by simp)
  · have hstep := h.replays work work' hwork hwork' hpool (by rw [hrun]; exact hclasses)
    rw [hrun] at hstep
    obtain ⟨hresult, hsymbols, hsame, hlogged⟩ := hstep
    rcases hrun' : runFrom step work' with ⟨e' | a', after'⟩ <;>
      rw [hrun'] at hresult hsymbols hsame hlogged
    · exact absurd hresult (by simp)
    · obtain rfl := Except.ok.inj hresult
      exact ⟨rfl, hsymbols, hsame, hlogged⟩

theorem Replays.reported {α : Type} {step : Convert α} (h : Replays step)
    (diagnostic : Error → Diagnostic) :
    Replays (tryCatch step fun e => leaveOut (diagnostic e) >>= fun _ => throw e) := by
  intro work work' hwork hwork' hpool hclasses
  have hsame_classes : (runFrom step work).2.tables.classes <+: work'.tables.classes := by
    rw [runFrom_reported] at hclasses
    rcases hrun : runFrom step work with ⟨e | a, after⟩ <;> rw [hrun] at hclasses <;> exact hclasses
  have hstep := h work work' hwork hwork' hpool hsame_classes
  rw [runFrom_reported, runFrom_reported]
  obtain ⟨hresult, hsymbols, hsame, events, diagnostics, hlog, hlog'⟩ := hstep
  rcases hrun : runFrom step work with ⟨e | a, after⟩ <;> rw [hrun] at hresult hsame hlog <;>
    rcases hrun' : runFrom step work' with ⟨e' | a', after'⟩ <;>
      rw [hrun'] at hresult hsymbols hsame hlog'
  · obtain rfl := Except.error.inj hresult
    exact ⟨rfl, hsymbols, ⟨hsame.names, hsame.constants, hsame.members⟩, _, _, hlog.push rfl rfl,
      hlog'.push rfl rfl⟩
  · exact absurd hresult (by simp)
  · exact absurd hresult (by simp)
  · obtain rfl := Except.ok.inj hresult
    exact ⟨rfl, hsymbols, hsame, events, diagnostics, hlog, hlog'⟩

/-- **A conversion does the same again** wherever the classes are known that it left behind. -/
theorem Forgiving.replays {α : Type} {constants : ConstantPool} {step : Convert α}
    (h : Forgiving constants step) : Replays step := by
  induction h with
  | straight h => exact h.replays
  | attempt h => exact .attempt h _
  | reported _ _ ih => exact .reported ih _
  | complete f =>
    intro work work' _ _ hpool _
    rw [runFrom_complete, runFrom_complete, hpool.names, hpool.constants, hpool.members]
    exact ⟨rfl, rfl, hpool, #[], #[], .nothing rfl rfl, .nothing rfl rfl⟩
  | bind h h' ih ih' => exact .bind h.effect (fun a => (h' a).effect) ih ih'

end ClassImage.Conversion
