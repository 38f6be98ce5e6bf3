import ClassImage.Proofs.NopFree

/-!
# Running a body with and without its `nop`s

A `Machine` says what an instruction can do in a state: go on, jump to one of its targets, or raise
an exception. It is not told the positions that the instruction refers to, so it cannot tell a body
from the same body with other positions. `Step` and `Run` add what all machines have in common: a
`nop` goes on and changes nothing, and an exception goes to the first handler that covers the
position and accepts it.

Dropping the `nop`s of a body is then a simulation in both directions. A step at a position that
stays is a step at the place where the position moves (`Step.withoutNops`); a step at one that goes
is no step at all; and a step of the new body is one of the old body after some `nop`s
(`exists_run_of_step_withoutNops`). What keeps handlers in place is `covers_mapPositions`: an
instruction that stays is covered after the move exactly when it was covered before, so a handler
whose range has become empty covered nothing that stays.
-/

namespace ClassImage.Body

universe u v

/-! ### Machines -/

/-- What an instruction can do. -/
inductive Effect (ε : Type v) where
  /-- Goes on with the next instruction. -/
  | fall
  /-- Jumps to the target of this index. -/
  | jump (index : Nat)
  | raise (exception : ε)

/-- A machine with states `σ` and exceptions `ε`. -/
structure Machine (σ : Type u) (ε : Type v) where
  /-- What an instruction, given by its skeleton, can do in a state, and to which state it leads. -/
  acts : Instruction → σ → Effect ε → σ → Prop
  /-- Whether a handler with a catch type accepts an exception. -/
  accepts : Option ClassId → ε → Bool

/-- Where a run stands: at a position, or ended by an exception that no handler took. -/
inductive Config (σ : Type u) (ε : Type v) where
  | running (position : Nat) (state : σ)
  | escaped (exception : ε) (state : σ)

/-- What can be seen of a step: the skeleton of the instruction and how it ended. -/
inductive Event (ε : Type v) where
  | fell (insn : Instruction)
  | jumped (insn : Instruction) (index : Nat)
  | caught (insn : Instruction) (exception : ε) (handler : Handler)
  | escaped (insn : Instruction) (exception : ε)

variable {σ : Type u} {ε : Type v} {machine : Machine σ ε} {body : Body}

/-- The same place after positions have moved. -/
def Config.move (f : Nat → Nat) : Config σ ε → Config σ ε
  | running position state => running (f position) state
  | escaped exception state => escaped exception state

/-- The same event after positions have moved: the handler is the moved one. -/
def Event.move (f : Nat → Nat) : Event ε → Event ε
  | fell insn => fell insn
  | jumped insn index => jumped insn index
  | caught insn exception handler => caught insn exception (handler.mapPositions f)
  | escaped insn exception => escaped insn exception

/-- Whether a handler protects the instruction at a position. -/
def Handler.covers (handler : Handler) (position : Nat) : Bool :=
  decide (handler.start ≤ position) && decide (position < handler.stop)

theorem Handler.covers_iff {handler : Handler} {position : Nat} :
    handler.covers position = true ↔ handler.start ≤ position ∧ position < handler.stop := by
  simp [Handler.covers]

/-- The first handler that protects a position and accepts an exception. -/
def handlerFor (machine : Machine σ ε) (body : Body) (position : Nat) (exception : ε) :
    Option Handler :=
  body.handlers.find? fun handler =>
    handler.covers position && machine.accepts handler.catchType exception

/-- The steps of a body. A step of a `nop` shows no event. -/
inductive Step (machine : Machine σ ε) (body : Body) :
    Config σ ε → Option (Event ε) → Config σ ε → Prop where
  | nop {p : Nat} {s : σ} {insn : Instruction} (hat : body.instructions[p]? = some insn)
      (hnop : insn.isNop = true) : Step machine body (.running p s) none (.running (p + 1) s)
  | fall {p : Nat} {s s' : σ} {insn : Instruction} (hat : body.instructions[p]? = some insn)
      (hnop : insn.isNop = false) (hacts : machine.acts insn.skeleton s .fall s') :
      Step machine body (.running p s) (some (.fell insn.skeleton)) (.running (p + 1) s')
  | jump {p : Nat} {s s' : σ} {insn : Instruction} {index target : Nat}
      (hat : body.instructions[p]? = some insn) (hnop : insn.isNop = false)
      (hacts : machine.acts insn.skeleton s (.jump index) s')
      (htarget : insn.targets[index]? = some target) :
      Step machine body (.running p s) (some (.jumped insn.skeleton index)) (.running target s')
  | caught {p : Nat} {s s' : σ} {insn : Instruction} {exception : ε} {handler : Handler}
      (hat : body.instructions[p]? = some insn) (hnop : insn.isNop = false)
      (hacts : machine.acts insn.skeleton s (.raise exception) s')
      (hhandler : handlerFor machine body p exception = some handler) :
      Step machine body (.running p s) (some (.caught insn.skeleton exception handler))
        (.running handler.entry s')
  | escape {p : Nat} {s s' : σ} {insn : Instruction} {exception : ε}
      (hat : body.instructions[p]? = some insn) (hnop : insn.isNop = false)
      (hacts : machine.acts insn.skeleton s (.raise exception) s')
      (hhandler : handlerFor machine body p exception = none) :
      Step machine body (.running p s) (some (.escaped insn.skeleton exception))
        (.escaped exception s')

/-- Any number of steps, with the events that they show. -/
inductive Run (machine : Machine σ ε) (body : Body) :
    Config σ ε → List (Event ε) → Config σ ε → Prop where
  | refl (c : Config σ ε) : Run machine body c [] c
  | step {c c' d : Config σ ε} {event : Option (Event ε)} {events : List (Event ε)}
      (first : Step machine body c event c') (rest : Run machine body c' events d) :
      Run machine body c (event.toList ++ events) d

theorem Run.trans {c c' d : Config σ ε} {events events' : List (Event ε)}
    (h : Run machine body c events c') (h' : Run machine body c' events' d) :
    Run machine body c (events ++ events') d := by
  induction h with
  | refl c => exact h'
  | step first rest ih =>
    rw [List.append_assoc]
    exact .step first (ih h')

theorem Run.single {c c' : Config σ ε} {event : Option (Event ε)}
    (h : Step machine body c event c') :
    Run machine body c event.toList c' := by
  have := Run.step h (.refl c')
  rwa [List.append_nil] at this

/-! ### Handlers -/

/-- **A handler keeps what it covers**: an instruction that stays is covered by the moved handler
exactly when it was covered by the handler. -/
theorem covers_mapPositions {p : Nat} (hk : body.keep[p]? = some true) (handler : Handler) :
    (handler.mapPositions body.survivorsBefore).covers (body.survivorsBefore p) =
      handler.covers p := by
  have hsucc : body.survivorsBefore (p + 1) = body.survivorsBefore p + 1 := survivorsBefore_succ hk
  have hstart : body.survivorsBefore handler.start ≤ body.survivorsBefore p ↔
      handler.start ≤ p := by
    constructor
    · intro h
      by_contra hlt
      have := body.survivorsBefore_mono (show p + 1 ≤ handler.start by omega)
      omega
    · exact fun h => body.survivorsBefore_mono h
  have hstop : body.survivorsBefore p < body.survivorsBefore handler.stop ↔ p < handler.stop := by
    constructor
    · intro h
      by_contra hle
      have := body.survivorsBefore_mono (show handler.stop ≤ p by omega)
      omega
    · intro h
      have := body.survivorsBefore_mono (show p + 1 ≤ handler.stop by omega)
      omega
  simp only [Handler.covers, Handler.mapPositions, hstart, hstop]

/-- A range that covers something is not empty, so no handler that matters is dropped. -/
theorem covers_mapPositions_of_nonempty {p : Nat} (hk : body.keep[p]? = some true)
    (handler : Handler) :
    (decide ((handler.mapPositions body.survivorsBefore).start <
        (handler.mapPositions body.survivorsBefore).stop) &&
      (handler.mapPositions body.survivorsBefore).covers (body.survivorsBefore p)) =
        handler.covers p := by
  have hcovers := covers_mapPositions hk handler
  cases hc : handler.covers p with
  | false => rw [hcovers, hc, Bool.and_false]
  | true =>
    rw [hc] at hcovers
    obtain ⟨hstart, hstop⟩ := Handler.covers_iff.mp hcovers
    rw [hcovers, Bool.and_true]
    exact decide_eq_true (Nat.lt_of_le_of_lt hstart hstop)

/-- The handler that takes an exception is the moved one. -/
theorem handlerFor_withoutNops {p : Nat} (hk : body.keep[p]? = some true) (exception : ε) :
    handlerFor machine body.withoutNops (body.survivorsBefore p) exception =
      (handlerFor machine body p exception).map (Handler.mapPositions body.survivorsBefore) := by
  rw [handlerFor, handlerFor, withoutNops_handlers, List.find?_filter, List.find?_map]
  congr 2
  funext handler
  rw [Function.comp_apply, ← covers_mapPositions_of_nonempty hk handler, Bool.and_assoc]
  simp [Handler.mapPositions]

/-! ### From the old body to the new one -/

/-- **A step at a position that stays is a step where it moves.** -/
theorem Step.withoutNops {p : Nat} {s : σ} {event : Option (Event ε)} {c : Config σ ε}
    (h : Step machine body (.running p s) event c) (hk : body.keep[p]? = some true) :
    Step machine body.withoutNops (.running (body.survivorsBefore p) s)
      (event.map (Event.move body.survivorsBefore)) (c.move body.survivorsBefore) := by
  have hsucc : body.survivorsBefore (p + 1) = body.survivorsBefore p + 1 := survivorsBefore_succ hk
  cases h with
  | nop hat hnop =>
    rw [Config.move, hsucc]
    exact .nop (withoutNops_getElem? hat hk) hnop
  | @fall _ _ s' insn hat hnop hacts =>
    rw [← insn.skeleton_mapTargets body.survivorsBefore] at hacts ⊢
    rw [Config.move, hsucc]
    exact .fall (withoutNops_getElem? hat hk) hnop hacts
  | @jump _ _ s' insn index target hat hnop hacts htarget =>
    rw [← insn.skeleton_mapTargets body.survivorsBefore] at hacts ⊢
    refine .jump (withoutNops_getElem? hat hk) hnop hacts ?_
    rw [Instruction.targets_mapTargets, List.getElem?_map, htarget]
    rfl
  | @caught _ _ s' insn exception handler hat hnop hacts hhandler =>
    rw [← insn.skeleton_mapTargets body.survivorsBefore] at hacts ⊢
    refine .caught (withoutNops_getElem? hat hk) hnop hacts ?_
    rw [handlerFor_withoutNops hk, hhandler]
    rfl
  | @escape _ _ s' insn exception hat hnop hacts hhandler =>
    rw [← insn.skeleton_mapTargets body.survivorsBefore] at hacts ⊢
    refine .escape (withoutNops_getElem? hat hk) hnop hacts ?_
    rw [handlerFor_withoutNops hk, hhandler]
    rfl

/-- A step starts at an instruction of the body. -/
theorem Step.exists_running {c c' : Config σ ε} {event : Option (Event ε)}
    (h : Step machine body c event c') :
    ∃ p s insn, c = .running p s ∧ body.instructions[p]? = some insn := by
  cases h with
  | nop hat _ | fall hat _ _ | jump hat _ _ _ | caught hat _ _ _ | escape hat _ _ _ =>
    exact ⟨_, _, _, rfl, hat⟩

theorem exists_keep_eq {p : Nat} {insn : Instruction} (hat : body.instructions[p]? = some insn) :
    ∃ stays, body.keep[p]? = some stays := ⟨_, keep_getElem? hat⟩

/-- A step at a position that goes shows nothing and, after the move, leads nowhere. -/
theorem Step.of_keep_eq_false {p : Nat} {s : σ} {event : Option (Event ε)} {c : Config σ ε}
    (h : Step machine body (.running p s) event c) (hk : body.keep[p]? = some false) :
    event = none ∧ c.move body.survivorsBefore = .running (body.survivorsBefore p) s := by
  have hsucc : body.survivorsBefore (p + 1) = body.survivorsBefore p := survivorsBefore_succ hk
  cases h with
  | nop hat hnop => exact ⟨rfl, by rw [Config.move, hsucc]⟩
  | fall hat hnop _ | jump hat hnop _ _ | caught hat hnop _ _ | escape hat hnop _ _ =>
    exact absurd (isNop_of_keep_eq_false hat hk) (by simp [hnop])

/-- Every step of the old body is one step of the new body, or none. -/
theorem Step.simulated {c c' : Config σ ε} {event : Option (Event ε)}
    (h : Step machine body c event c') :
    Step machine body.withoutNops (c.move body.survivorsBefore)
        (event.map (Event.move body.survivorsBefore)) (c'.move body.survivorsBefore) ∨
      event = none ∧ c'.move body.survivorsBefore = c.move body.survivorsBefore := by
  obtain ⟨p, s, insn, rfl, hat⟩ := h.exists_running
  obtain ⟨stays, hk⟩ := exists_keep_eq hat
  cases stays with
  | true => exact .inl (h.withoutNops hk)
  | false => exact .inr (h.of_keep_eq_false hk)

/-- **Every run of the old body is a run of the new body.** -/
theorem Run.withoutNops {c d : Config σ ε} {events : List (Event ε)}
    (h : Run machine body c events d) :
    Run machine body.withoutNops (c.move body.survivorsBefore)
      (events.map (Event.move body.survivorsBefore)) (d.move body.survivorsBefore) := by
  induction h with
  | refl c => exact .refl _
  | @step c c' d event events first rest ih =>
    rcases first.simulated with hstep | ⟨rfl, hmove⟩
    · have := Run.step hstep ih
      rwa [Option.toList_map, ← List.map_append] at this
    · rw [hmove] at ih
      exact ih

/-! ### From the new body to the old one -/

/-- Over `nop`s the old body runs on without showing anything. -/
theorem run_of_keep_eq_false (machine : Machine σ ε) (s : σ) {p q : Nat} (hpq : p ≤ q)
    (h : ∀ i, p ≤ i → i < q → body.keep[i]? = some false) :
    Run machine body (.running p s) [] (.running q s) := by
  induction hpq with
  | refl => exact .refl _
  | @step q hpq ih =>
    have hk := h q hpq (Nat.lt_succ_self q)
    have hlt : q < body.instructions.length := by
      rw [← length_keep]
      exact (List.getElem?_eq_some_iff.mp hk).1
    have hat := List.getElem?_eq_getElem hlt
    have hstep : Step machine body (.running q s) none (.running (q + 1) s) :=
      .nop hat (isNop_of_keep_eq_false hat hk)
    exact (ih fun i h₁ h₂ => h i h₁ (by omega)).trans (.single hstep)

/-- A step of the new body at the place of an instruction that stays is a step of the old body. -/
theorem exists_step_of_withoutNops {p : Nat} {s : σ} {event' : Option (Event ε)} {c' : Config σ ε}
    (hk : body.keep[p]? = some true)
    (h : Step machine body.withoutNops (.running (body.survivorsBefore p) s) event' c') :
    ∃ event c, Step machine body (.running p s) event c ∧
      event' = event.map (Event.move body.survivorsBefore) ∧ c' = c.move body.survivorsBefore := by
  have hsucc : body.survivorsBefore (p + 1) = body.survivorsBefore p + 1 := survivorsBefore_succ hk
  have hlt : p < body.instructions.length := by
    rw [← length_keep]
    exact (List.getElem?_eq_some_iff.mp hk).1
  have hold := List.getElem?_eq_getElem hlt
  have hnew := withoutNops_getElem? hold hk
  cases h with
  | nop hat hnop =>
    obtain rfl := Option.some.inj (hnew.symm.trans hat)
    exact ⟨none, _, .nop hold hnop, rfl, by rw [Config.move, hsucc]⟩
  | fall hat hnop hacts =>
    obtain rfl := Option.some.inj (hnew.symm.trans hat)
    rw [Instruction.skeleton_mapTargets] at hacts ⊢
    exact ⟨_, _, .fall hold hnop hacts, rfl, by rw [Config.move, hsucc]⟩
  | jump hat hnop hacts htarget =>
    obtain rfl := Option.some.inj (hnew.symm.trans hat)
    rw [Instruction.skeleton_mapTargets] at hacts ⊢
    rw [Instruction.targets_mapTargets, List.getElem?_map, Option.map_eq_some_iff] at htarget
    obtain ⟨target, htarget, rfl⟩ := htarget
    exact ⟨_, _, .jump hold hnop hacts htarget, rfl, rfl⟩
  | caught hat hnop hacts hhandler =>
    obtain rfl := Option.some.inj (hnew.symm.trans hat)
    rw [Instruction.skeleton_mapTargets] at hacts ⊢
    rw [handlerFor_withoutNops hk, Option.map_eq_some_iff] at hhandler
    obtain ⟨handler, hhandler, rfl⟩ := hhandler
    exact ⟨_, _, .caught hold hnop hacts hhandler, rfl, rfl⟩
  | escape hat hnop hacts hhandler =>
    obtain rfl := Option.some.inj (hnew.symm.trans hat)
    rw [Instruction.skeleton_mapTargets] at hacts ⊢
    rw [handlerFor_withoutNops hk, Option.map_eq_none_iff] at hhandler
    exact ⟨_, _, .escape hold hnop hacts hhandler, rfl, rfl⟩

/-- **A step of the new body is a step of the old body after some `nop`s.** -/
theorem exists_run_of_step_withoutNops {p : Nat} {s : σ} {event' : Option (Event ε)}
    {c' : Config σ ε}
    (h : Step machine body.withoutNops (.running (body.survivorsBefore p) s) event' c') :
    ∃ events c, Run machine body (.running p s) events c ∧
      event'.toList = events.map (Event.move body.survivorsBefore) ∧
      c' = c.move body.survivorsBefore := by
  have hlt : body.survivorsBefore p < body.keep.count true := by
    obtain ⟨_, _, insn, hrun, hat⟩ := h.exists_running
    obtain ⟨rfl, rfl⟩ := Config.running.inj hrun
    rw [← length_withoutNops]
    exact (List.getElem?_eq_some_iff.mp hat).1
  obtain ⟨q, hpq, hkeep, hbetween, hrank⟩ := exists_keep_of_survivorsBefore_lt hlt
  rw [← hrank] at h
  obtain ⟨event, c, hstep, rfl, rfl⟩ := exists_step_of_withoutNops hkeep h
  refine ⟨event.toList, c, ?_, by rw [Option.toList_map], rfl⟩
  exact (run_of_keep_eq_false machine s hpq hbetween).trans (.single hstep)

/-- **Every run of the new body is a run of the old body.** -/
theorem exists_run_of_withoutNops {c' d' : Config σ ε} {events' : List (Event ε)}
    (h : Run machine body.withoutNops c' events' d') : ∀ c, c' = c.move body.survivorsBefore →
    ∃ events d, Run machine body c events d ∧
      events' = events.map (Event.move body.survivorsBefore) ∧
        d' = d.move body.survivorsBefore := by
  induction h with
  | refl c' =>
    rintro c rfl
    exact ⟨[], c, .refl c, rfl, rfl⟩
  | @step c' c'' d' event' events' first rest ih =>
    rintro c rfl
    cases c with
    | escaped exception state =>
      obtain ⟨_, _, _, hrun, _⟩ := first.exists_running
      exact absurd hrun (by simp [Config.move])
    | running p s =>
      obtain ⟨events₁, c₁, hrun₁, hevents₁, rfl⟩ := exists_run_of_step_withoutNops first
      obtain ⟨events₂, d, hrun₂, rfl, rfl⟩ := ih c₁ rfl
      exact ⟨events₁ ++ events₂, d, hrun₁.trans hrun₂, by rw [hevents₁, List.map_append], rfl⟩

/-! ### The end of a body -/

/-- A run stands at an instruction of the body or at its end. -/
def Config.Inside (body : Body) : Config σ ε → Prop
  | running position _ => position ≤ body.instructions.length
  | escaped _ _ => True

/-- A step of a valid body stays inside it. -/
theorem Step.inside {c c' : Config σ ε} {event : Option (Event ε)}
    (hvalid : body.validate = .ok ()) (h : Step machine body c event c') : c'.Inside body := by
  obtain ⟨hinsns, hhandlers⟩ := (validate_eq_ok_iff body).mp hvalid
  cases h with
  | nop hat _ | fall hat _ _ =>
    have := (List.getElem?_eq_some_iff.mp hat).1
    exact this
  | @jump p s s' insn index target hat _ _ htarget =>
    have := hinsns insn (List.mem_of_getElem? hat) target (List.mem_of_getElem? htarget)
    exact Nat.le_of_lt this
  | @caught p s s' insn exception handler _ _ _ hhandler =>
    have := (hhandlers handler (List.mem_of_find?_eq_some hhandler)).entry_lt
    exact Nat.le_of_lt this
  | escape _ _ _ _ => exact trivial

/-- A run of a valid body stays inside it. -/
theorem Run.inside {c d : Config σ ε} {events : List (Event ε)} (hvalid : body.validate = .ok ())
    (h : Run machine body c events d) (hc : c.Inside body) : d.Inside body := by
  induction h with
  | refl c => exact hc
  | step first rest ih => exact ih (first.inside hvalid)

/-- A position that moves to the end has nothing but `nop`s that go behind it. -/
theorem run_to_end (machine : Machine σ ε) (s : σ) {p : Nat} (hp : p ≤ body.instructions.length)
    (h : body.survivorsBefore p = body.withoutNops.instructions.length) :
    Run machine body (.running p s) [] (.running body.instructions.length s) := by
  refine run_of_keep_eq_false machine s hp fun i hpi hi => ?_
  rw [← length_keep] at hi
  rw [List.getElem?_eq_getElem hi]
  cases hk : body.keep[i] with
  | false => rfl
  | true =>
    have := survivorsBefore_lt hpi ((List.getElem?_eq_getElem hi).trans (congrArg some hk))
    rw [length_withoutNops] at h
    omega

/-- **Dropping `nop`s is a simulation.** Of a valid body, a valid body is left. On any machine, with
positions moved to the number of instructions that stay before them: each step of the old body is at
most one step of the new one; the runs of the two from corresponding places correspond, with the
same events and with exceptions taken by the moved handlers; and from corresponding places the one
runs off its end exactly when the other does. An instruction that stays is covered by a handler
exactly when the moved handler is there and covers it. -/
theorem withoutNops_simulation (body : Body) (hvalid : body.validate = .ok ()) :
    body.withoutNops.validate = .ok () ∧
    (∀ {σ : Type u} {ε : Type v} (machine : Machine σ ε),
      (∀ c event c', Step machine body c event c' →
        Step machine body.withoutNops (c.move body.survivorsBefore)
            (event.map (Event.move body.survivorsBefore)) (c'.move body.survivorsBefore) ∨
          event = none ∧ c'.move body.survivorsBefore = c.move body.survivorsBefore) ∧
      (∀ c events d, Run machine body c events d →
        Run machine body.withoutNops (c.move body.survivorsBefore)
          (events.map (Event.move body.survivorsBefore)) (d.move body.survivorsBefore)) ∧
      (∀ c events' d', Run machine body.withoutNops (c.move body.survivorsBefore) events' d' →
        ∃ events d, Run machine body c events d ∧
          events' = events.map (Event.move body.survivorsBefore) ∧
          d' = d.move body.survivorsBefore) ∧
      ∀ p s events' s', p ≤ body.instructions.length →
        ((∃ events, events' = events.map (Event.move body.survivorsBefore) ∧
            Run machine body (.running p s) events (.running body.instructions.length s')) ↔
          Run machine body.withoutNops (.running (body.survivorsBefore p) s) events'
            (.running body.withoutNops.instructions.length s'))) ∧
    ∀ p, body.keep[p]? = some true → ∀ handler ∈ body.handlers,
      (handler.covers p = true ↔
        handler.mapPositions body.survivorsBefore ∈ body.withoutNops.handlers ∧
        (handler.mapPositions body.survivorsBefore).covers (body.survivorsBefore p) = true) := by
  have hend : body.survivorsBefore body.instructions.length =
      body.withoutNops.instructions.length := by
    rw [length_withoutNops, survivorsBefore_of_length_le (Nat.le_refl _)]
  refine ⟨validate_withoutNops hvalid, ?_, ?_⟩
  · intro σ ε machine
    refine ⟨fun c event c' h => h.simulated, fun c events d h => h.withoutNops,
      fun c events' d' h => exists_run_of_withoutNops h c rfl, ?_⟩
    intro p s events' s' hp
    rw [← hend]
    constructor
    · rintro ⟨events, rfl, h⟩
      exact h.withoutNops
    · intro h
      obtain ⟨events, d, hrun, rfl, hd⟩ := exists_run_of_withoutNops h (.running p s) rfl
      refine ⟨events, rfl, ?_⟩
      cases d with
      | escaped exception state => exact absurd hd (by simp [Config.move])
      | running q state =>
        -- From where the run of the old body stands, only `nop`s that go lead to its end.
        obtain ⟨hq, rfl⟩ : _ ∧ s' = state := Config.running.inj hd
        have hle : q ≤ body.instructions.length := hrun.inside hvalid hp
        have hrest := run_to_end machine s' hle (hq.symm.trans hend)
        rw [← List.append_nil events]
        exact hrun.trans hrest
  · intro p hk handler hhandler
    rw [covers_mapPositions hk]
    refine ⟨fun hc => ⟨?_, hc⟩, fun hc => hc.2⟩
    rw [withoutNops_handlers, List.mem_filter]
    refine ⟨List.mem_map.mpr ⟨handler, hhandler, rfl⟩, decide_eq_true ?_⟩
    rw [← covers_mapPositions hk] at hc
    obtain ⟨hstart, hstop⟩ := Handler.covers_iff.mp hc
    exact Nat.lt_of_le_of_lt hstart hstop

/-- A body that starts with a `nop`, protected by a handler of its own, and jumps over a return to
the `nop` at its end. -/
def nopSample : Body where
  instructions := [⟨.plain .nop, 1, .bare⟩, ⟨.goto, 1, .regDisp .pc (.branch 3)⟩,
    ⟨.plain .returnVoid, 2, .bare⟩, ⟨.plain .nop, 3, .bare⟩]
  handlers := [⟨0, 1, 2, some 7⟩, ⟨0, 3, 2, none⟩]
  maxStack := 0
  maxLocals := 0

/-- The first `nop` goes with its handler, the one that is jumped to stays. -/
theorem nopSample_simulation :
    nopSample.validate = .ok () ∧ nopSample.withoutNops.validate = .ok () ∧
    nopSample.withoutNops.handlers = [⟨0, 2, 1, none⟩] ∧
    (∀ (machine : Machine Nat Nat) s events s',
      Run machine nopSample (.running 0 s) events (.running 4 s') →
        Run machine nopSample.withoutNops (.running 0 s)
          (events.map (Event.move nopSample.survivorsBefore)) (.running 3 s')) ∧
    ∀ handler ∈ nopSample.handlers, handler.covers 1 = true →
      (handler.mapPositions nopSample.survivorsBefore).covers 0 = true := by
  have hvalid : nopSample.validate = .ok () := by decide +kernel
  obtain ⟨hvalid', hmachine, hcovers⟩ := withoutNops_simulation nopSample hvalid
  refine ⟨hvalid, hvalid', by decide +kernel, fun machine s events s' h => ?_,
    fun handler hmem h => ?_⟩
  · exact (hmachine machine).2.1 _ events _ h
  · exact ((hcovers 1 (by decide +kernel) handler hmem).mp h).2

end ClassImage.Body
