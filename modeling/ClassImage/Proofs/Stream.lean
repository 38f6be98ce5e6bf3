import ClassImage.Stream
import ClassImage.Proofs.Bytes

/-!
# Writers against encodings

To write one byte string after another into a sink is to write the two as one (`bytes_append`),
whatever room the sink has: what does not fit is cut off at the same place. So every writer of this
library either is `Writer.bytes s` for the encoding `s` of what it writes, or is given a sequence
that is too long for its count. `Emits w fits s` says exactly this of a writer `w`, with `fits` the
condition that every count fits, and it passes through `>>=`.
-/

namespace ClassImage

namespace Writer

theorem bind_apply {α β : Type} (w : Writer α) (next : α → Writer β) (sink : Sink) :
    (w >>= next).run.run sink =
      match w.run.run sink with
      | (.ok a, sink) => (next a).run.run sink
      | (.error e, sink) => (.error e, sink) := by
  show (match w sink with | (a, s) => ExceptT.bindCont next a s) = match w sink with
      | (.ok a, sink) => next a sink
      | (.error e, sink) => (.error e, sink)
  rcases w sink with ⟨_ | _, _⟩ <;> rfl

theorem bytes_unlimited (bs : Bytes) (taken : Array UInt8) :
    (bytes bs).run.run ⟨none, taken⟩ = (.ok (), ⟨none, taken ++ bs⟩) := rfl

theorem bytes_limited (bs : Bytes) (room : Nat) (taken : Array UInt8) :
    (bytes bs).run.run ⟨some room, taken⟩ =
      (if bs.length ≤ room then .ok () else .error .sinkFull,
        ⟨some (room - bs.length), taken ++ bs.take room⟩) := by
  have hroom : room - (bs.take room).length = room - bs.length := by
    rw [List.length_take]
    omega
  show (if bs.length ≤ room then (_, ⟨some (room - (bs.take room).length), _⟩)
    else (_, ⟨some (room - (bs.take room).length), _⟩) : Except StreamFault Unit × Sink) = _
  rw [hroom]
  split <;> rfl

theorem append_append_list (taken : Array UInt8) (a b : Bytes) :
    taken ++ a ++ b = taken ++ (a ++ b) := by
  apply Array.toList_inj.mp
  simp

theorem bytes_nil : bytes [] = pure () := by
  funext ⟨room, taken⟩
  cases room with
  | none => exact (bytes_unlimited [] taken).trans (by simp; rfl)
  | some room => exact (bytes_limited [] room taken).trans (by simp; rfl)

/-- **Two byte strings in a row are written as one**, into every sink. -/
theorem bytes_append (a b : Bytes) : (do bytes a; bytes b) = bytes (a ++ b) := by
  funext ⟨room, taken⟩
  refine (bind_apply (bytes a) (fun _ => bytes b) ⟨room, taken⟩).trans ?_
  cases room with
  | none =>
    refine Eq.trans ?_ (bytes_unlimited (a ++ b) taken).symm
    rw [bytes_unlimited, ← append_append_list]
    exact bytes_unlimited b (taken ++ a)
  | some room =>
    refine Eq.trans ?_ (bytes_limited (a ++ b) room taken).symm
    rw [bytes_limited]
    by_cases ha : a.length ≤ room
    · -- The first part fits, so the second one finds the room that is left.
      rw [if_pos ha]
      refine (bytes_limited b _ _).trans ?_
      rw [append_append_list, List.length_append, List.take_append, List.take_of_length_le ha,
        Nat.sub_sub]
      congr 2
      exact propext ⟨fun h => by omega, fun h => by omega⟩
    · have hab : ¬ (a ++ b).length ≤ room := by
        rw [List.length_append]
        omega
      have hle : room ≤ a.length := by omega
      rw [if_neg ha, if_neg hab, List.take_append_of_le_length hle]
      show (Except.error StreamFault.sinkFull, Sink.mk (some (room - a.length)) _) = _
      rw [List.length_append, Nat.sub_eq_zero_of_le hle, Nat.sub_eq_zero_of_le (by omega)]

end Writer

/-- What a writer does: if `fits` holds it writes `s` into every sink, and otherwise some count is
too large, which an unlimited sink finds out. -/
structure Emits (w : Writer Unit) (fits : Prop) (s : Bytes) : Prop where
  written : fits → w = Writer.bytes s
  refused : ¬ fits → ∀ taken, ∃ n sink, 0xFFFF < n ∧
    w.run.run ⟨none, taken⟩ = (.error (.tooLong n), sink)

namespace Emits

variable {w w' : Writer Unit} {p p' : Prop} {s s' : Bytes}

theorem congr (h : Emits w p s) (hp : p ↔ p') (hs : s = s') : Emits w p' s' := by
  obtain rfl := propext hp
  subst hs
  exact h

theorem bytes (s : Bytes) : Emits (Writer.bytes s) True s where
  written _ := rfl
  refused h := absurd trivial h

theorem pure : Emits (Pure.pure ()) True [] where
  written _ := Writer.bytes_nil.symm
  refused h := absurd trivial h

/-- **Writers follow each other as encodings do.** -/
theorem bind (h : Emits w p s) (h' : Emits w' p' s') :
    Emits (do w; w') (p ∧ p') (s ++ s') where
  written hp := by
    rw [h.written hp.1, h'.written hp.2]
    exact Writer.bytes_append s s'
  refused hp taken := by
    have hb := Writer.bind_apply w (fun _ => w') ⟨none, taken⟩
    by_cases hp₁ : p
    · obtain ⟨n, sink, hn, hr⟩ := h'.refused (fun hp₂ => hp ⟨hp₁, hp₂⟩) (taken ++ s)
      refine ⟨n, sink, hn, ?_⟩
      rw [hb, h.written hp₁, Writer.bytes_unlimited]
      exact hr
    · obtain ⟨n, sink, hn, hr⟩ := h.refused hp₁ taken
      exact ⟨n, sink, hn, by rw [hb, hr]⟩

theorem nat (width n : Nat) : Emits (Writer.nat width n) True (digits width n) := bytes _

theorem byte (b : UInt8) : Emits (Writer.byte b) True [b] := by
  refine (nat 1 b.toNat).congr Iff.rfl ?_
  rw [digits, digits, UInt8.ofNat_toNat]

theorem word16 (w : UInt16) : Emits (Writer.word16 w) True (digits 2 w.toNat) := nat _ _

theorem word32 (w : UInt32) : Emits (Writer.word32 w) True (digits 4 w.toNat) := nat _ _

theorem word64 (w : UInt64) : Emits (Writer.word64 w) True (digits 8 w.toNat) := nat _ _

theorem count (length : Nat) : Emits (Writer.count length) (length ≤ 0xFFFF) (digits 2 length) where
  written h := by
    rw [Writer.count, if_pos h, Writer.word16, UInt16.toNat_ofNat', Nat.mod_eq_of_lt (by omega)]
    rfl
  refused h taken := by
    refine ⟨length, ⟨none, taken⟩, by omega, ?_⟩
    rw [Writer.count, if_neg h]
    rfl

theorem forM {α : Type} {item : α → Writer Unit} {fits : α → Prop} {encode : α → Bytes}
    (h : ∀ a, Emits (item a) (fits a) (encode a)) (as : List α) :
    Emits (as.forM item) (∀ a ∈ as, fits a) (as.flatMap encode) := by
  induction as with
  | nil => exact pure.congr (by simp) rfl
  | cons a as ih => exact ((h a).bind ih).congr List.forall_mem_cons.symm rfl

theorem counted {α : Type} {item : α → Writer Unit} {fits : α → Prop} {encode : α → Bytes}
    (h : ∀ a, Emits (item a) (fits a) (encode a)) (as : List α) :
    Emits (Writer.counted item as) (as.length ≤ 0xFFFF ∧ ∀ a ∈ as, fits a)
      (digits 2 as.length ++ as.flatMap encode) :=
  (count as.length).bind (forM h as)

/-- The bytes that come out of a writer whose counts fit. -/
theorem toBytes (h : Emits w p s) (hp : p) : w.toBytes = .ok s := by
  rw [Writer.toBytes, h.written hp]
  show Except.ok (Sink.bytes ⟨none, (#[] : Array UInt8) ++ s⟩) = _
  simp [Sink.bytes]

/-- A writer fails without a limit only because of a count, and then names a length that is too
large. -/
theorem toBytes_eq_error (h : Emits w p s) {e : StreamFault} (he : w.toBytes = .error e) :
    ¬ p ∧ ∃ n, 0xFFFF < n ∧ e = .tooLong n := by
  have hp : ¬ p := by
    intro hp
    rw [h.toBytes hp] at he
    exact absurd he (by simp)
  obtain ⟨n, sink, hn, hr⟩ := h.refused hp #[]
  refine ⟨hp, n, hn, ?_⟩
  rw [Writer.toBytes, Sink.unlimited, hr] at he
  exact (Except.error.inj he).symm

theorem toBytes_refused (h : Emits w p s) (hp : ¬ p) :
    ∃ n, 0xFFFF < n ∧ w.toBytes = .error (.tooLong n) := by
  obtain ⟨n, sink, hn, hr⟩ := h.refused hp #[]
  exact ⟨n, hn, by rw [Writer.toBytes, Sink.unlimited, hr]⟩

end Emits

end ClassImage
