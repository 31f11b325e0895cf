import HttpC.L6Harness.Decode

/-!
# A negative `seconds` ends the runner

`decode` casts `SLEEP`'s `seconds` and `RECV_PARTIAL`'s `size` from `i64` to
an unsigned type with `@intCast` (ztest/src/events.zig:74,91), which panics on
a negative number. The README promises that malformed workloads fail at decode
time with a report of the event (ztest/README.md:100-104), and every other
malformed field does: it is `MissingField` or `UnknownEventType`, with a
diagnostic.

`decodesTotally_iff`: decoding is total on exactly the texts in which every
table with such a negative number comes after one that is rejected anyway.

Fix: check the sign and return an error with a diagnostic.
-/
namespace HttpC.Bugs.NegativeCast
open HttpC.L6 HttpC.L6.Toml

/-- Decoding the tables of a text gives one event for each table, in order and
with the fields of the table, or one of the two errors. -/
def DecodesTotally (text : Bytes) : Prop :=
  ∀ tables, parse text = .ok tables →
    (∃ evs, decode tables = .ok evs ∧ List.Forall₂ Carries tables evs) ∨
      ∃ e, decode tables = .error (.error e)

/-- **Exactly when decoding is total.** -/
theorem decodesTotally_iff (text : Bytes) :
    DecodesTotally text ↔ ∀ tables, parse text = .ok tables → CastsFit tables := by
  constructor
  · intro h tables hp
    by_contra hfit
    have hpanic := (decodeFrom_spec 0 tables).2 hfit
    rcases h tables hp with ⟨evs, hd, -⟩ | ⟨e, hd⟩
    · cases hd.symm.trans hpanic
    · cases hd.symm.trans hpanic
  · intro h tables hp
    have hret := (decodeFrom_spec 0 tables).1 (h tables hp)
    unfold decode
    generalize decodeFrom 0 tables = r at hret
    cases hret with
    | events hf => exact .inl ⟨_, rfl, hf⟩
    | error => exact .inr ⟨_, rfl⟩

/-- A `SLEEP` of minus one second. -/
def negativeSleep : Bytes := ascii "[[events]]\ntype = \"SLEEP\"\nseconds = -1\n"

theorem parse_negativeSleep : parse negativeSleep =
    .ok [⟨[(ascii "type", .str (ascii "SLEEP")), (ascii "seconds", .int (-1))]⟩] := by
  rfl

/-- The text parses, and decoding it panics. -/
theorem negativeSleep_panics : ¬ DecodesTotally negativeSleep := by
  intro h
  rcases h _ parse_negativeSleep with ⟨evs, hd, -⟩ | ⟨e, hd⟩
  · cases hd
  · cases hd

end HttpC.Bugs.NegativeCast
