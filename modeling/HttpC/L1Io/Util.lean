import Mathlib.Data.List.Infix
import HttpC.Core.Bytes

/-!
# The I/O helpers: `read_until`, `write_all`, `pass_bytes`

`src/util.c`. A readable descriptor (`Src`) is the bytes still to come and a
finite script of what the next `read()` calls do: deliver up to `n + 1` bytes,
report end of file, or fail. Past the script `read()` delivers all it is asked
for, so a script is exactly a way the stream is cut into `read()` results,
with finitely many `EINTR`. A writable descriptor (`Dst`) is the bytes written
so far and a script for `write()`.

The loops are bounded by fuel that is never used up: every round of
`read_until` and `pass_bytes` takes at least one pending byte or returns, so
more fuel changes nothing (`readUntilLoop_fuel`, `passBytesLoop_fuel`).

A stream may carry a label on each octet (`Octet`), which no operation looks
at; at `UInt8 × Nat` the label is the position in the client's stream, so a
statement about where a byte came from is a statement about labels.
-/
namespace HttpC

/-- The `errno` values the server tells apart (on Linux `EWOULDBLOCK` is
`EAGAIN`). -/
inductive Errno where
  | EINTR | EAGAIN | EACCES | EISDIR | ENOENT | other
  deriving DecidableEq, Repr

/-- An octet, possibly labelled. -/
class Octet (α : Type) where
  val : α → UInt8

instance : Octet UInt8 := ⟨id⟩
instance : Octet (UInt8 × Nat) := ⟨Prod.fst⟩

def octets {α : Type} [Octet α] (s : List α) : Bytes := s.map Octet.val

@[simp] theorem octets_self (s : Bytes) : octets s = s := by
  simp [octets, Octet.val]

@[simp] theorem octets_length {α : Type} [Octet α] (s : List α) :
    (octets s).length = s.length := by simp [octets]

theorem octets_append {α : Type} [Octet α] (s t : List α) :
    octets (s ++ t) = octets s ++ octets t := by simp [octets]

theorem octets_take {α : Type} [Octet α] (s : List α) (n : Nat) :
    octets (s.take n) = (octets s).take n := by simp [octets, List.map_take]

namespace L1.Util

/-- What one `read()` call does. -/
inductive ReadEv where
  | got (n : Nat)
  | eof
  | err (e : Errno)
  deriving DecidableEq, Repr

structure Src (α : Type) where
  pending : List α
  script : List ReadEv
  deriving DecidableEq, Repr

/-- Result of a `read()`: the bytes (none: end of file), or `-1` and `errno`. -/
inductive ReadRes (α : Type) where
  | data (bs : List α)
  | fail (e : Errno)
  deriving DecidableEq, Repr

inductive WriteEv where
  | put (n : Nat)
  | err (e : Errno)
  deriving DecidableEq, Repr

structure Dst (α : Type) where
  written : List α
  script : List WriteEv
  deriving DecidableEq, Repr

variable {α : Type}

/-- `read(fd, buf, want)`. -/
def Src.read (s : Src α) (want : Nat) : ReadRes α × Src α :=
  match s.script with
  | [] => (.data (s.pending.take want), ⟨s.pending.drop want, []⟩)
  | .got n :: es =>
    (.data (s.pending.take (min (n + 1) want)), ⟨s.pending.drop (min (n + 1) want), es⟩)
  | .eof :: es => (.data [], ⟨s.pending, es⟩)
  | .err e :: es => (.fail e, ⟨s.pending, es⟩)

/-- The `do ... while (n < 0 && errno == EINTR)` of both loops.
mirrors src/util.c:54-56,83-85 -/
def retryRead (want : Nat) (pending : List α) : List ReadEv → ReadRes α × Src α
  | .err .EINTR :: es => retryRead want pending es
  | es => Src.read ⟨pending, es⟩ want

/-- `none` is `-1` with `errno` set; the fuel is spent only on rounds that
read something.
mirrors src/util.c:81-102 -/
def readUntilLoop [Octet α] (nbytes : Nat) (string : Bytes) :
    Nat → Src α → List α → Except Errno (List α) × Src α
  | 0, s, buf => (.ok buf, s)
  | fuel + 1, s, buf =>
    if buf.length < nbytes then
      match retryRead (nbytes - buf.length) s.pending s.script with
      | (.fail e, s') => (.error e, s')
      | (.data [], s') => (.ok buf, s')
      | (.data (b :: bs), s') =>
        let buf' := buf ++ (b :: bs)
        -- the memcmp scan over every offset: does `string` occur in `buf'`
        if 0 < string.length ∧ string.length ≤ buf'.length ∧
            (indexOf string (octets buf')).isSome then (.ok buf', s')
        else readUntilLoop nbytes string fuel s' buf'
    else (.ok buf, s)

/-- mirrors src/util.c:77-103 -/
def readUntil [Octet α] (s : Src α) (nbytes : Nat) (string : Bytes) :
    Except Errno (List α) × Src α :=
  readUntilLoop nbytes string (s.pending.length + 1) s []

/-- mirrors src/util.c:24-37. One `write()` a round, so the script drives the
loop; past its end `write()` takes everything. -/
def writeAllLoop : List WriteEv → List α → List α → Except Errno Unit × Dst α
  | es, [], out => (.ok (), ⟨out, es⟩)
  | [], bs, out => (.ok (), ⟨out ++ bs, []⟩)
  | .err e :: es, bs, out => if e = .EINTR then writeAllLoop es bs out else (.error e, ⟨out, es⟩)
  | .put n :: es, bs, out => writeAllLoop es (bs.drop n) (out ++ bs.take n)

def writeAll (d : Dst α) (buffer : List α) : Except Errno Unit × Dst α :=
  writeAllLoop d.script buffer d.written

/-- `sizeof(buf)` of `pass_bytes`, and `BUFFER_SIZE` of the connection. -/
def BUFFER_SIZE : Nat := 4096

/-- How one round of the `pass_bytes` loop ends. -/
inductive Round where
  | stop (res : Except Errno Nat)
  | again (total : Nat)

/-- mirrors src/util.c:48-67 -/
def passRound (nbytes : Nat) (s : Src α) (d : Dst α) (total : Nat) : Round × Src α × Dst α :=
  if total < nbytes then
    let want := if nbytes - total > BUFFER_SIZE then BUFFER_SIZE else nbytes - total
    match retryRead want s.pending s.script with
    | (.fail e, s') => (.stop (.error e), s', d)
    | (.data [], s') => (.stop (.ok total), s', d)
    | (.data (b :: bs), s') =>
      match writeAll d (b :: bs) with
      | (.error e, d') => (.stop (.error e), s', d')
      | (.ok (), d') => (.again (total + (b :: bs).length), s', d')
  else (.stop (.ok total), s, d)

/-- mirrors src/util.c:48-68 -/
def passBytesLoop (nbytes : Nat) :
    Nat → Src α → Dst α → Nat → Except Errno Nat × Src α × Dst α
  | 0, s, d, total => (.ok total, s, d)
  | fuel + 1, s, d, total =>
    match passRound nbytes s d total with
    | (.stop res, s', d') => (res, s', d')
    | (.again total', s', d') => passBytesLoop nbytes fuel s' d' total'

/-- mirrors src/util.c:44-71 -/
def passBytes (s : Src α) (d : Dst α) (nbytes : Nat) : Except Errno Nat × Src α × Dst α :=
  passBytesLoop nbytes (s.pending.length + 1) s d 0

/-! ## One `read()` with its retries -/

/-- A script that only cuts the stream: data and interrupted calls, no
end of file before the stream's own, no failure. -/
def ReadEv.isCut : ReadEv → Bool
  | .got _ => true
  | .err .EINTR => true
  | _ => false

def Cut (es : List ReadEv) : Prop := ∀ e ∈ es, e.isCut = true

instance (es : List ReadEv) : Decidable (Cut es) := by unfold Cut; exact inferInstance

theorem Cut.suffix {es fs : List ReadEv} (h : Cut es) (hs : fs <:+ es) : Cut fs :=
  fun e he => h e (hs.mem he)

theorem Cut.no_eof {es : List ReadEv} (h : Cut es) : ReadEv.eof ∉ es := by
  intro he
  have := h _ he
  cases this

theorem retryRead_data {want : Nat} {pending bs : List α} {es : List ReadEv} {s' : Src α}
    (h : retryRead want pending es = (.data bs, s')) :
    pending = bs ++ s'.pending ∧ bs.length ≤ want ∧ s'.script <:+ es := by
  induction es with
  | nil =>
    simp only [retryRead, Src.read, Prod.mk.injEq, ReadRes.data.injEq] at h
    obtain ⟨rfl, rfl⟩ := h
    exact ⟨by simp, List.length_take_le _ _, List.suffix_refl _⟩
  | cons e es ih =>
    rcases e with n | _ | e
    · simp only [retryRead, Src.read, Prod.mk.injEq, ReadRes.data.injEq] at h
      obtain ⟨rfl, rfl⟩ := h
      simp only [List.take_append_drop, true_and, List.length_take]
      exact ⟨by omega, List.suffix_cons _ _⟩
    · simp only [retryRead, Src.read, Prod.mk.injEq, ReadRes.data.injEq] at h
      obtain ⟨rfl, rfl⟩ := h
      exact ⟨rfl, Nat.zero_le _, List.suffix_cons _ _⟩
    · cases e <;> simp only [retryRead, Src.read, Prod.mk.injEq, reduceCtorEq, false_and] at h
      obtain ⟨h1, h2, h3⟩ := ih h
      exact ⟨h1, h2, h3.trans (List.suffix_cons _ _)⟩

/-- A failing read fails with an `errno` of the script other than `EINTR`, and
takes nothing. -/
theorem retryRead_fail {want : Nat} {pending : List α} {es : List ReadEv} {s' : Src α} {e : Errno}
    (h : retryRead want pending es = (.fail e, s')) :
    s'.pending = pending ∧ s'.script <:+ es ∧ e ≠ .EINTR ∧ .err e ∈ es := by
  induction es with
  | nil => simp [retryRead, Src.read] at h
  | cons x es ih =>
    rcases x with n | _ | x
    · simp [retryRead, Src.read] at h
    · simp [retryRead, Src.read] at h
    · cases x <;>
        simp only [retryRead, Src.read, Prod.mk.injEq, ReadRes.fail.injEq] at h
      case EINTR =>
        obtain ⟨h1, h2, h3, h4⟩ := ih h
        exact ⟨h1, h2.trans (List.suffix_cons _ _), h3, List.mem_cons_of_mem _ h4⟩
      all_goals
        obtain ⟨rfl, rfl⟩ := h
        exact ⟨rfl, List.suffix_cons _ _, by decide, List.mem_cons_self⟩

theorem Cut.no_fail {want : Nat} {pending : List α} {es : List ReadEv} {s' : Src α} {e : Errno}
    (hc : Cut es) : retryRead want pending es ≠ (.fail e, s') := by
  intro h
  obtain ⟨-, -, hne, hm⟩ := retryRead_fail h
  have := hc _ hm
  cases e <;> simp_all [ReadEv.isCut]

/-- Without an early end of file, a read of a positive size returns nothing
only at the end of the stream. -/
theorem retryRead_nil {want : Nat} {pending : List α} {es : List ReadEv} {s' : Src α}
    (hw : 0 < want) (he : ReadEv.eof ∉ es) (h : retryRead want pending es = (.data [], s')) :
    pending = [] := by
  induction es with
  | nil =>
    simp only [retryRead, Src.read, Prod.mk.injEq, ReadRes.data.injEq] at h
    rcases List.take_eq_nil_iff.mp h.1 with h | h
    · omega
    · exact h
  | cons x es ih =>
    rcases x with n | _ | x
    · simp only [retryRead, Src.read, Prod.mk.injEq, ReadRes.data.injEq] at h
      rcases List.take_eq_nil_iff.mp h.1 with h | h
      · omega
      · exact h
    · exact absurd List.mem_cons_self he
    · cases x <;> simp only [retryRead, Src.read, Prod.mk.injEq, reduceCtorEq, false_and] at h
      exact ih (fun hm => he (List.mem_cons_of_mem _ hm)) h

/-- On a cut every read returns data, none only at the end of the stream. -/
theorem retryRead_cut {want : Nat} (pending : List α) {es : List ReadEv} (hc : Cut es)
    (hw : 0 < want) :
    ∃ bs s', retryRead want pending es = (.data bs, s') ∧ (bs = [] → pending = []) := by
  cases hr : retryRead want pending es with
  | mk r s' =>
    cases r with
    | data bs =>
      refine ⟨bs, s', rfl, ?_⟩
      intro h
      subst h
      exact retryRead_nil hw hc.no_eof hr
    | fail e => exact absurd hr hc.no_fail

/-- A read that returned bytes leaves fewer of them. -/
theorem retryRead_lt {want : Nat} {pending bs : List α} {es : List ReadEv} {b : α} {s' : Src α}
    (h : retryRead want pending es = (.data (b :: bs), s')) : s'.pending.length < pending.length := by
  rw [(retryRead_data h).1, List.length_append, List.length_cons]
  omega

/-! ## `read_until` -/

section ReadUntil
variable [Octet α] {nbytes : Nat} {string : Bytes}

/-- One round of the loop, for any outcome. -/
theorem readUntilLoop_ok {fuel : Nat} {s s' : Src α} {buf b : List α} (hb : buf.length ≤ nbytes)
    (h : readUntilLoop nbytes string fuel s buf = (.ok b, s')) :
    ∃ c, b = buf ++ c ∧ s.pending = c ++ s'.pending ∧ b.length ≤ nbytes ∧
      s'.script <:+ s.script := by
  induction fuel generalizing s buf with
  | zero =>
    simp only [readUntilLoop, Prod.mk.injEq, Except.ok.injEq] at h
    obtain ⟨rfl, rfl⟩ := h
    exact ⟨[], by simp, by simp, hb, List.suffix_refl _⟩
  | succ fuel ih =>
    simp only [readUntilLoop] at h
    split at h
    · rename_i hlt
      split at h
      · simp at h
      · rename_i s₁ hr
        simp only [Prod.mk.injEq, Except.ok.injEq] at h
        obtain ⟨rfl, rfl⟩ := h
        obtain ⟨h1, -, h3⟩ := retryRead_data hr
        exact ⟨[], by simp, h1, hb, h3⟩
      · rename_i x xs s₁ hr
        obtain ⟨h1, h2, h3⟩ := retryRead_data hr
        have hb' : (buf ++ x :: xs).length ≤ nbytes := by
          simp only [List.length_append]; omega
        split at h
        · simp only [Prod.mk.injEq, Except.ok.injEq] at h
          obtain ⟨rfl, rfl⟩ := h
          exact ⟨x :: xs, rfl, h1, hb', h3⟩
        · obtain ⟨c, h4, h5, h6, h7⟩ := ih hb' h
          refine ⟨x :: xs ++ c, by simp [h4], by rw [h1, h5]; simp, h6, h7.trans h3⟩
    · simp only [Prod.mk.injEq, Except.ok.injEq] at h
      obtain ⟨rfl, rfl⟩ := h
      exact ⟨[], by simp, by simp, hb, List.suffix_refl _⟩

/-- **The fuel is not used up**: with one unit more than there are bytes, more
of it changes nothing. -/
theorem readUntilLoop_fuel {fuel fuel' : Nat} {s : Src α} (buf : List α)
    (hf : s.pending.length < fuel) (hf' : s.pending.length < fuel') :
    readUntilLoop nbytes string fuel s buf = readUntilLoop nbytes string fuel' s buf := by
  induction fuel generalizing fuel' s buf with
  | zero => omega
  | succ fuel ih =>
    obtain ⟨fuel', rfl⟩ := Nat.exists_eq_succ_of_ne_zero (Nat.ne_zero_of_lt hf')
    simp only [readUntilLoop]
    split
    · split
      · rfl
      · rfl
      · rename_i b bs s₁ hr
        have hlt := retryRead_lt hr
        split
        · rfl
        · exact ih _ (by omega) (by omega)
    · rfl

/-- Why the loop stopped, on a cut. -/
theorem readUntilLoop_cut {fuel : Nat} {s : Src α} (buf : List α) (hc : Cut s.script)
    (hf : s.pending.length < fuel) :
    ∃ b s', readUntilLoop nbytes string fuel s buf = (.ok b, s') ∧
      (string <:+: octets b ∨ nbytes ≤ b.length ∨ s'.pending = []) := by
  induction fuel generalizing s buf with
  | zero => omega
  | succ fuel ih =>
    simp only [readUntilLoop]
    split
    · rename_i hlt
      obtain ⟨bs, s₁, hr, hnil⟩ := retryRead_cut s.pending hc
        (show 0 < nbytes - buf.length by omega)
      obtain ⟨h1, -, h3⟩ := retryRead_data hr
      rw [hr]
      cases bs with
      | nil =>
        refine ⟨buf, s₁, rfl, .inr (.inr ?_)⟩
        rw [hnil rfl] at h1
        exact h1.symm
      | cons x xs =>
        simp only
        split
        · rename_i hfound
          exact ⟨_, _, rfl, .inl ((indexOf_isSome_iff _ _).mp hfound.2.2)⟩
        · have hlt := retryRead_lt hr
          exact ih _ (hc.suffix h3) (by omega)
    · exact ⟨buf, s, rfl, .inr (.inl (by omega))⟩

/-- **Spec of `read_until`, any script.** The bytes returned are the next
bytes of the stream, at most `nbytes` of them. -/
theorem readUntil_ok {s s' : Src α} {b : List α} (h : readUntil s nbytes string = (.ok b, s')) :
    s.pending = b ++ s'.pending ∧ b.length ≤ nbytes ∧ s'.script <:+ s.script := by
  obtain ⟨c, h1, h2, h3, h4⟩ := readUntilLoop_ok (Nat.zero_le _) h
  rw [List.nil_append] at h1; subst h1
  exact ⟨h2, h3, h4⟩

/-- **Spec of `read_until` on a cut.** It returns, and stops only once it
holds `string`, the buffer is full, or the stream has ended. -/
theorem readUntil_cut (nbytes : Nat) (string : Bytes) {s : Src α} (hc : Cut s.script) :
    ∃ b s', readUntil s nbytes string = (.ok b, s') ∧ s.pending = b ++ s'.pending ∧
      b.length ≤ nbytes ∧ Cut s'.script ∧
      (string <:+: octets b ∨ b.length = nbytes ∨ s'.pending = []) := by
  obtain ⟨b, s', h, hstop⟩ := readUntilLoop_cut [] hc (Nat.lt_succ_self s.pending.length)
  obtain ⟨h1, h2, h3⟩ := readUntil_ok h
  refine ⟨b, s', h, h1, h2, hc.suffix h3, ?_⟩
  rcases hstop with h | h | h
  · exact .inl h
  · exact .inr (.inl (by omega))
  · exact .inr (.inr h)

/-- A first `read()` that already delivers `string` is the only one. -/
theorem readUntil_first {s : Src α} {n : Nat} {es : List ReadEv} (hs : 0 < string.length)
    (he : s.script = .got n :: es) (hn : n + 1 ≤ nbytes) (hp : n + 1 ≤ s.pending.length)
    (hi : string <:+: octets (s.pending.take (n + 1))) :
    readUntil s nbytes string = (.ok (s.pending.take (n + 1)), ⟨s.pending.drop (n + 1), es⟩) := by
  have hr : retryRead nbytes s.pending s.script =
      (.data (s.pending.take (n + 1)), ⟨s.pending.drop (n + 1), es⟩) := by
    rw [he]; simp [retryRead, Src.read, Nat.min_eq_left hn]
  obtain ⟨x, xs, hx⟩ : ∃ x xs, s.pending.take (n + 1) = x :: xs := by
    cases hq : s.pending with
    | nil => rw [hq] at hp; simp at hp
    | cons x xs => exact ⟨x, xs.take n, rfl⟩
  unfold readUntil readUntilLoop
  rw [if_pos (by simp; omega), List.length_nil, Nat.sub_zero, hr, hx]
  simp only [List.nil_append]
  rw [hx] at hi
  rw [if_pos ⟨hs, by simpa using hi.length_le, (indexOf_isSome_iff _ _).mpr hi⟩]

/-- It returns nothing exactly when the first `read()` found the stream
ended. -/
theorem readUntil_nil_iff {s : Src α} (hn : 0 < nbytes) :
    (readUntil s nbytes string).1 = .ok [] ↔
      (retryRead nbytes s.pending s.script).1 = .data [] := by
  unfold readUntil
  simp only [readUntilLoop, List.length_nil, hn, if_true, Nat.sub_zero, List.nil_append]
  split
  · rename_i e s' hr; rw [hr]; simp
  · rename_i s' hr; rw [hr]; simp
  · rename_i b bs s' hr
    rw [hr]
    simp only [ReadRes.data.injEq, reduceCtorEq, iff_false]
    split
    · simp
    · intro h
      obtain ⟨-, h2, -⟩ := retryRead_data hr
      cases hl : readUntilLoop nbytes string s.pending.length s' (b :: bs) with
      | mk r s₂ =>
        rw [hl] at h
        simp only at h
        subst h
        obtain ⟨c, hc, -⟩ := readUntilLoop_ok h2 hl
        simp at hc

end ReadUntil

/-! ## `write_all` and `pass_bytes` -/

/-- A script on which every `write()` eventually goes through. -/
def WriteEv.isOk : WriteEv → Bool
  | .put _ => true
  | .err .EINTR => true
  | _ => false

def Writes (es : List WriteEv) : Prop := ∀ e ∈ es, e.isOk = true

instance (es : List WriteEv) : Decidable (Writes es) := by unfold Writes; exact inferInstance

theorem Writes.suffix {es fs : List WriteEv} (h : Writes es) (hs : fs <:+ es) : Writes fs :=
  fun e he => h e (hs.mem he)

theorem writeAllLoop_spec (es : List WriteEv) (bs out : List α) :
    ∃ p, p <+: bs ∧ (writeAllLoop es bs out).2.written = out ++ p ∧
      (writeAllLoop es bs out).2.script <:+ es ∧
      ((writeAllLoop es bs out).1 = .ok () → p = bs) ∧
      (Writes es → (writeAllLoop es bs out).1 = .ok ()) := by
  induction es generalizing bs out with
  | nil => cases bs <;> exact ⟨_, List.prefix_refl _, by simp [writeAllLoop]⟩
  | cons e es ih =>
    cases bs with
    | nil => exact ⟨[], List.prefix_refl _, by simp [writeAllLoop]⟩
    | cons b bs =>
      cases e with
      | put n =>
        obtain ⟨p, h1, h2, h3, h4, h5⟩ := ih ((b :: bs).drop n) (out ++ (b :: bs).take n)
        refine ⟨(b :: bs).take n ++ p, ?_, by simp [writeAllLoop, h2], ?_, ?_, ?_⟩
        · conv_rhs => rw [← List.take_append_drop n (b :: bs)]
          exact (List.prefix_append_right_inj _).mpr h1
        · exact h3.trans (List.suffix_cons _ _)
        · intro h; rw [h4 h, List.take_append_drop]
        · exact fun h => h5 (h.suffix (List.suffix_cons _ _))
      | err e =>
        by_cases he : e = .EINTR
        · subst he
          obtain ⟨p, h1, h2, h3, h4, h5⟩ := ih (b :: bs) out
          exact ⟨p, h1, h2, h3.trans (List.suffix_cons _ _), h4,
            fun h => h5 (h.suffix (List.suffix_cons _ _))⟩
        · refine ⟨[], List.nil_prefix, by simp [writeAllLoop, he], ?_, ?_, ?_⟩
          · simp only [writeAllLoop, if_neg he]; exact List.suffix_cons _ _
          · simp [writeAllLoop, he]
          · intro h
            have := h _ List.mem_cons_self
            cases e <;> simp_all [WriteEv.isOk]

/-- **Spec of `write_all`.** It appends a prefix of the buffer, all of it on
success, and succeeds when no `write()` fails. -/
theorem writeAll_spec (d : Dst α) (bs : List α) :
    ∃ p, p <+: bs ∧ (writeAll d bs).2.written = d.written ++ p ∧
      (writeAll d bs).2.script <:+ d.script ∧
      ((writeAll d bs).1 = .ok () → p = bs) ∧
      (Writes d.script → (writeAll d bs).1 = .ok ()) :=
  writeAllLoop_spec d.script bs d.written

/-- All of a buffer goes out when no `write()` fails. -/
theorem writeAll_writes {d : Dst α} (bs : List α) (h : Writes d.script) :
    ∃ d', writeAll d bs = (.ok (), d') ∧ d'.written = d.written ++ bs ∧ Writes d'.script := by
  obtain ⟨p, -, p2, p3, p4, p5⟩ := writeAll_spec d bs
  have hok := p5 h
  cases hw : writeAll d bs with
  | mk r d' =>
    rw [hw] at hok p2 p3 p4
    simp only at hok
    subst hok
    rw [p4 rfl] at p2
    exact ⟨d', rfl, p2, h.suffix p3⟩

theorem writeAllLoop_shift (es : List WriteEv) (bs pre out : List α) :
    writeAllLoop es bs (pre ++ out) = ((writeAllLoop es bs out).1,
      ⟨pre ++ (writeAllLoop es bs out).2.written, (writeAllLoop es bs out).2.script⟩) := by
  induction es generalizing bs out with
  | nil => cases bs <;> simp [writeAllLoop]
  | cons e es ih =>
    cases bs with
    | nil => simp [writeAllLoop]
    | cons b bs =>
      cases e with
      | put n => simp only [writeAllLoop, List.append_assoc, ih]
      | err e =>
        simp only [writeAllLoop]
        split
        · exact ih _ _
        · rfl

/-- What a round does does not depend on what was written before. -/
theorem passRound_shift (n : Nat) (s : Src α) (pre : List α) (es : List WriteEv) (total : Nat) :
    passRound n s ⟨pre, es⟩ total = ((passRound n s ⟨[], es⟩ total).1,
      (passRound n s ⟨[], es⟩ total).2.1,
      ⟨pre ++ (passRound n s ⟨[], es⟩ total).2.2.written,
        (passRound n s ⟨[], es⟩ total).2.2.script⟩) := by
  unfold passRound
  split
  · simp only
    split
    · simp
    · simp
    · rename_i b bs s' hr
      have hw := writeAllLoop_shift es (b :: bs) pre []
      rw [List.append_nil] at hw
      simp only [writeAll, hw]
      cases hd : writeAllLoop es (b :: bs) [] with
      | mk r d => cases r <;> rfl
  · simp

/-- What a transfer of at most `n` bytes leaves behind: `c` taken from the
source, `q` appended to the destination. -/
structure Passed (s : Src α) (d : Dst α) (n : Nat) (s' : Src α) (d' : Dst α) (c q : List α) :
    Prop where
  taken : s.pending = c ++ s'.pending
  put : d'.written = d.written ++ q
  le : c.length ≤ n
  pre : q <+: c
  src : s'.script <:+ s.script
  dst : d'.script <:+ d.script

/-- **Spec of one round.** It moves a chunk and goes on, finds nothing to do,
or fails. -/
theorem passRound_spec (n : Nat) (s : Src α) (d : Dst α) (total : Nat) :
    ∃ c q, Passed s d (n - total) (passRound n s d total).2.1 (passRound n s d total).2.2 c q ∧
      match (passRound n s d total).1 with
      | .again t => t = total + c.length ∧ q = c ∧ c ≠ []
      | .stop (.ok k) => k = total ∧ c = [] ∧ q = [] ∧
          (ReadEv.eof ∉ s.script → n ≤ total ∨ (passRound n s d total).2.1.pending = [])
      | .stop (.error _) => ¬ (Cut s.script ∧ Writes d.script) := by
  unfold passRound
  split
  · rename_i hlt
    generalize hw : (if n - total > BUFFER_SIZE then BUFFER_SIZE else n - total) = want
    have hw' : 0 < want ∧ want ≤ n - total := by
      subst hw; unfold BUFFER_SIZE; split <;> omega
    simp only
    split
    · rename_i e s₁ hr
      obtain ⟨h1, h2, -⟩ := retryRead_fail hr
      exact ⟨[], [], ⟨by simp [h1], by simp, by simp, by simp, h2, List.suffix_refl _⟩,
        fun ⟨hc, _⟩ => hc.no_fail hr⟩
    · rename_i s₁ hr
      obtain ⟨h1, -, h3⟩ := retryRead_data hr
      refine ⟨[], [], ⟨h1, by simp, by simp, by simp, h3, List.suffix_refl _⟩, rfl, rfl, rfl,
        fun he => .inr ?_⟩
      rw [retryRead_nil hw'.1 he hr] at h1
      exact h1.symm
    · rename_i b bs s₁ hr
      obtain ⟨h1, h2, h3⟩ := retryRead_data hr
      obtain ⟨p, p1, p2, p3, p4, p5⟩ := writeAll_spec d (b :: bs)
      split
      · rename_i e d₁ hwr
        rw [hwr] at p2 p3 p5
        refine ⟨b :: bs, p, ⟨h1, p2, by omega, p1, h3, p3⟩, fun ⟨_, hw⟩ => ?_⟩
        have := p5 hw; simp at this
      · rename_i d₁ hwr
        rw [hwr] at p2 p3 p4
        obtain rfl := p4 rfl
        exact ⟨b :: bs, b :: bs, ⟨h1, p2, by omega, p1, h3, p3⟩, rfl, rfl, by simp⟩
  · exact ⟨[], [], ⟨by simp, by simp, by simp, by simp, List.suffix_refl _, List.suffix_refl _⟩,
      rfl, rfl, rfl, fun _ => .inl (by omega)⟩

theorem Passed.trans {s s₁ s₂ : Src α} {d d₁ d₂ : Dst α} {n m k : Nat} {c q c' q' : List α}
    (h : Passed s d n s₁ d₁ c q) (h' : Passed s₁ d₁ m s₂ d₂ c' q') (hq : q = c)
    (hk : c.length + m ≤ k) : Passed s d k s₂ d₂ (c ++ c') (q ++ q') := by
  refine ⟨?_, ?_, ?_, ?_, h'.src.trans h.src, h'.dst.trans h.dst⟩
  · rw [h.taken, h'.taken, List.append_assoc]
  · rw [h'.put, h.put, List.append_assoc]
  · have := h'.le; rw [List.length_append]; omega
  · rw [hq]; exact (List.prefix_append_right_inj _).mpr h'.pre

/-- A round that goes on leaves fewer bytes. -/
theorem passRound_lt {n total total' : Nat} {s s' : Src α} {d d' : Dst α}
    (h : passRound n s d total = (.again total', s', d')) : s'.pending.length < s.pending.length := by
  obtain ⟨c, q, hP, hres⟩ := passRound_spec n s d total
  rw [h] at hP hres
  have hpos := List.length_pos_of_ne_nil hres.2.2
  have hlen := congrArg List.length hP.taken
  simp only [List.length_append] at hlen
  omega

/-- **The fuel is not used up** here either. -/
theorem passBytesLoop_fuel (n : Nat) {fuel fuel' : Nat} {s : Src α} (d : Dst α) (total : Nat)
    (hf : s.pending.length < fuel) (hf' : s.pending.length < fuel') :
    passBytesLoop n fuel s d total = passBytesLoop n fuel' s d total := by
  induction fuel generalizing fuel' s d total with
  | zero => omega
  | succ fuel ih =>
    obtain ⟨fuel', rfl⟩ := Nat.exists_eq_succ_of_ne_zero (Nat.ne_zero_of_lt hf')
    simp only [passBytesLoop]
    split
    · rfl
    · rename_i total' s₁ d₁ hr
      have hlt := passRound_lt hr
      exact ih d₁ total' (by omega) (by omega)

theorem passBytesLoop_spec (n fuel : Nat) (s : Src α) (d : Dst α) (total : Nat)
    (hf : s.pending.length < fuel) :
    ∃ c q, Passed s d (n - total) (passBytesLoop n fuel s d total).2.1
        (passBytesLoop n fuel s d total).2.2 c q ∧
      (∀ k, (passBytesLoop n fuel s d total).1 = .ok k → q = c ∧ k = total + c.length) ∧
      (Cut s.script → Writes d.script →
        (passBytesLoop n fuel s d total).1 = .ok (total + c.length) ∧
          (n ≤ total + c.length ∨ (passBytesLoop n fuel s d total).2.1.pending = [])) := by
  induction fuel generalizing s d total with
  | zero => omega
  | succ fuel ih =>
    obtain ⟨c, q, hP, hres⟩ := passRound_spec n s d total
    simp only [passBytesLoop]
    cases hr : passRound n s d total with
    | mk o sd =>
      obtain ⟨s₁, d₁⟩ := sd
      rw [hr] at hP hres
      cases o with
      | stop res =>
        cases res with
        | error e =>
          exact ⟨c, q, hP, by simp, fun hc hw => absurd ⟨hc, hw⟩ hres⟩
        | ok k =>
          obtain ⟨rfl, rfl, rfl, hstop⟩ := hres
          exact ⟨[], [], hP, by simp [eq_comm], fun hc _ => ⟨by simp, by simpa using hstop hc.no_eof⟩⟩
      | again t =>
        obtain ⟨rfl, rfl, -⟩ := hres
        have hlt := passRound_lt hr
        have hle := hP.le
        obtain ⟨c', q', hP', hok, hcl⟩ := ih s₁ d₁ (total + q.length) (by omega)
        refine ⟨q ++ c', q ++ q', hP.trans hP' rfl (by omega), ?_, ?_⟩
        · intro k hk
          obtain ⟨rfl, rfl⟩ := hok k hk
          exact ⟨rfl, by rw [List.length_append]; omega⟩
        · intro hc hw
          obtain ⟨h6, h7⟩ := hcl (hc.suffix hP.src) (hw.suffix hP.dst)
          simp only at h6 h7 ⊢
          rw [h6, List.length_append, ← Nat.add_assoc]
          exact ⟨rfl, h7⟩

/-- **Spec of `pass_bytes`.** The bytes appended are a prefix of those taken
from the source, all of them on success; without a failing call it moves `n`
bytes or all there are. -/
theorem passBytes_spec (s : Src α) (d : Dst α) (n : Nat) :
    ∃ c q, Passed s d n (passBytes s d n).2.1 (passBytes s d n).2.2 c q ∧
      (∀ k, (passBytes s d n).1 = .ok k → q = c ∧ k = c.length) ∧
      (Cut s.script → Writes d.script →
        (passBytes s d n).1 = .ok c.length ∧
          (n ≤ c.length ∨ (passBytes s d n).2.1.pending = [])) := by
  have := passBytesLoop_spec n (s.pending.length + 1) s d 0 (Nat.lt_succ_self _)
  simp only [Nat.sub_zero, Nat.zero_add] at this
  exact this

end L1.Util
end HttpC
