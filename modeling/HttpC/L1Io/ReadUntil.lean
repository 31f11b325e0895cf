import HttpC.L1Io.Util

/-!
# Where `read_until` stops

`src/util.c:77-103`, for every script of `read()` results. `Reads` lists the
completed reads of one call: `buf` is what they delivered together. The loop
carries one invariant, `buf` comes from such a list and does not hold the
needle, and every way out of the loop is read off it.

* `readUntilLoop_stops`: the loop from any such point.
* `readUntil_stops`: the call as a whole.
-/
namespace HttpC.L1.Util

variable {α : Type}

/-- The next `read()` that is not interrupted finds the stream ended. -/
def endedAt (pending : List α) : List ReadEv → Prop
  | .err .EINTR :: es => endedAt pending es
  | .eof :: _ => True
  | .err _ :: _ => False
  | _ => pending = []

def Src.Ended (s : Src α) : Prop := endedAt s.pending s.script

/-- A completed `read()` of a positive size returns 0 exactly at the end of
the stream. -/
theorem retryRead_nil_iff {want : Nat} (hw : 0 < want) (pending : List α) (es : List ReadEv) :
    (retryRead want pending es).1 = .data [] ↔ endedAt pending es := by
  have hmin : ∀ n, min (n + 1) want ≠ 0 := by omega
  induction es with
  | nil =>
    simp only [retryRead, Src.read, ReadRes.data.injEq, endedAt]
    rw [List.take_eq_nil_iff]
    simp [Nat.ne_of_gt hw]
  | cons e es ih =>
    rcases e with n | _ | e
    · simp only [retryRead, Src.read, ReadRes.data.injEq, endedAt]
      rw [List.take_eq_nil_iff]
      simp [hmin n]
    · simp [retryRead, Src.read, endedAt]
    · cases e
      case EINTR => simpa only [retryRead, endedAt] using ih
      all_goals simp [retryRead, Src.read, endedAt]

/-- A failing `read()` is the last of the script's events it used. -/
theorem retryRead_fail_at {want : Nat} {pending : List α} {es : List ReadEv} {s' : Src α}
    {e : Errno} (h : retryRead want pending es = (.fail e, s')) :
    .err e :: s'.script <:+ es := by
  induction es with
  | nil => simp [retryRead, Src.read] at h
  | cons x es ih =>
    rcases x with n | _ | x
    · simp [retryRead, Src.read] at h
    · simp [retryRead, Src.read] at h
    · cases x
      case EINTR => exact (ih h).trans (List.suffix_cons _ _)
      all_goals
        simp only [retryRead, Src.read, Prod.mk.injEq, ReadRes.fail.injEq] at h
        obtain ⟨rfl, rfl⟩ := h
        exact List.suffix_refl _

/-- The completed reads of one call with room for `nbytes`: from `s` they
delivered `buf` and left `s'`. Each asks for the room left and gets at least
one byte. -/
inductive Reads (nbytes : Nat) (s : Src α) : List α → Src α → Prop where
  | nil : Reads nbytes s [] s
  | snoc {buf bs : List α} {s₁ s₂ : Src α} (h : Reads nbytes s buf s₁) (hne : bs ≠ [])
      (hr : retryRead (nbytes - buf.length) s₁.pending s₁.script = (.data bs, s₂)) :
      Reads nbytes s (buf ++ bs) s₂

/-- What the reads delivered is the start of the stream. -/
theorem Reads.pending {nbytes : Nat} {s s' : Src α} {buf : List α} (h : Reads nbytes s buf s') :
    s.pending = buf ++ s'.pending := by
  induction h with
  | nil => rfl
  | snoc _ _ hr ih =>
    obtain ⟨h1, -, -⟩ := retryRead_data hr
    rw [ih, h1, List.append_assoc]

theorem Reads.script {nbytes : Nat} {s s' : Src α} {buf : List α} (h : Reads nbytes s buf s') :
    s'.script <:+ s.script := by
  induction h with
  | nil => exact List.suffix_refl _
  | snoc _ _ hr ih =>
    obtain ⟨-, -, h3⟩ := retryRead_data hr
    exact h3.trans ih

theorem Reads.length_le {nbytes : Nat} {s s' : Src α} {buf : List α}
    (h : Reads nbytes s buf s') : buf.length ≤ nbytes := by
  induction h with
  | nil => exact Nat.zero_le _
  | snoc _ _ hr ih =>
    obtain ⟨-, h2, -⟩ := retryRead_data hr
    rw [List.length_append]
    omega

/-- No bytes, no reads. -/
theorem Reads.eq_of_nil {nbytes : Nat} {s s' : Src α} {buf : List α}
    (h : Reads nbytes s buf s') (hb : buf = []) : s' = s := by
  cases h with
  | nil => rfl
  | snoc _ hne _ => exact absurd (List.append_eq_nil_iff.mp hb).2 hne

section Stops
variable [Octet α] {nbytes : Nat} {string : Bytes}

/-- Why a call ended. -/
inductive Stops (nbytes : Nat) (string : Bytes) (s : Src α) :
    Except Errno (List α) × Src α → Prop where
  /-- `return -1`: a `read()` failed, not by an interruption -/
  | failed {buf : List α} {s₁ s' : Src α} {e : Errno} (h : Reads nbytes s buf s₁)
      (hr : retryRead (nbytes - buf.length) s₁.pending s₁.script = (.fail e, s')) :
      Stops nbytes string s (.error e, s')
  /-- the last `read()` completed the needle -/
  | found {before last : List α} {s₁ s' : Src α} (h : Reads nbytes s before s₁)
      (hne : last ≠ [])
      (hr : retryRead (nbytes - before.length) s₁.pending s₁.script = (.data last, s'))
      (hi : string <:+: octets (before ++ last)) (ho : ¬ string <:+: octets before) :
      Stops nbytes string s (.ok (before ++ last), s')
  /-- the buffer is full -/
  | full {buf : List α} {s' : Src α} (h : Reads nbytes s buf s') (ho : ¬ string <:+: octets buf)
      (hl : buf.length = nbytes) : Stops nbytes string s (.ok buf, s')
  /-- a `read()` returned 0 -/
  | ended {buf : List α} {s₁ s' : Src α} (h : Reads nbytes s buf s₁)
      (ho : ¬ string <:+: octets buf) (hl : buf.length < nbytes)
      (hr : retryRead (nbytes - buf.length) s₁.pending s₁.script = (.data [], s')) :
      Stops nbytes string s (.ok buf, s')

/-- The loop from a buffer without the needle. The fuel outlasts the pending
bytes, of which every round that goes on takes one. -/
theorem readUntilLoop_stops {fuel : Nat} {s s₁ : Src α} {buf : List α} (hs : string ≠ [])
    (hR : Reads nbytes s buf s₁) (ho : ¬ string <:+: octets buf)
    (hf : s₁.pending.length < fuel) :
    Stops nbytes string s (readUntilLoop nbytes string fuel s₁ buf) := by
  induction fuel generalizing s₁ buf with
  | zero => omega
  | succ fuel ih =>
    simp only [readUntilLoop]
    split
    · rename_i hlt
      split
      · rename_i e s₂ hr
        exact .failed hR hr
      · rename_i s₂ hr
        exact .ended hR ho hlt hr
      · rename_i x xs s₂ hr
        have hne : x :: xs ≠ [] := List.cons_ne_nil _ _
        split
        · rename_i hfound
          exact .found hR hne hr ((indexOf_isSome_iff _ _).mp hfound.2.2) ho
        · rename_i hmiss
          -- the guard `total >= needle_len` hides no occurrence
          have ho' : ¬ string <:+: octets (buf ++ x :: xs) := by
            intro hi
            have hle := hi.length_le
            rw [octets_length] at hle
            exact hmiss ⟨List.length_pos_of_ne_nil hs, hle, (indexOf_isSome_iff _ _).mpr hi⟩
          have hless := retryRead_lt hr
          exact ih (.snoc hR hne hr) ho' (by omega)
    · rename_i hge
      have hle := hR.length_le
      exact .full hR ho (by omega)

theorem readUntil_stops_by (s : Src α) (nbytes : Nat) (hs : string ≠ []) :
    Stops nbytes string s (readUntil s nbytes string) := by
  apply readUntilLoop_stops hs .nil
  · intro h
    exact hs (by simpa [octets] using h)
  · exact Nat.lt_succ_self _

/-- **Where `read_until` stops.** It fails only by a `read()` that failed for
another reason than an interruption. Otherwise it returns the first bytes of
the stream, at most `nbytes`: up to and with the `read()` that completed the
needle, or all that fit, or all there were. -/
theorem readUntil_stops (s : Src α) (nbytes : Nat) (string : Bytes) (hs : string ≠ []) :
    match readUntil s nbytes string with
    | (.error e, s') => e ≠ .EINTR ∧ ∃ es, s.script = es ++ .err e :: s'.script
    | (.ok b, s') =>
      b.length ≤ nbytes ∧ b = s.pending.take b.length ∧
      ((string <:+: octets b ∧ ∃ before last s₁, b = before ++ last ∧ Reads nbytes s before s₁ ∧
          last ≠ [] ∧
          retryRead (nbytes - before.length) s₁.pending s₁.script = (.data last, s') ∧
          ¬ string <:+: octets before) ∨
        (¬ string <:+: octets b ∧
          (b.length = nbytes ∨ ∃ s₁, Reads nbytes s b s₁ ∧ s₁.Ended))) ∧
      (b = [] → 0 < nbytes → s.Ended) := by
  have hst := readUntil_stops_by s nbytes hs
  generalize readUntil s nbytes string = r at hst
  cases hst with
  | failed h hr =>
    obtain ⟨-, -, hne, -⟩ := retryRead_fail hr
    obtain ⟨es, hes⟩ := (retryRead_fail_at hr).trans h.script
    exact ⟨hne, es, hes.symm⟩
  | found h hne hr hi ho =>
    have hR := h.snoc hne hr
    refine ⟨hR.length_le, ?_, .inl ⟨hi, _, _, _, rfl, h, hne, hr, ho⟩, ?_⟩
    · rw [hR.pending, List.take_left']
      rfl
    · intro hnil
      exact absurd (List.append_eq_nil_iff.mp hnil).2 hne
  | full h ho hl =>
    refine ⟨h.length_le, ?_, .inr ⟨ho, .inl hl⟩, ?_⟩
    · rw [h.pending, List.take_left']
      rfl
    · intro hnil hn
      rw [hnil] at hl
      simp at hl
      omega
  | @ended buf s₁ s' h ho hl hr =>
    have hw : 0 < nbytes - buf.length := by omega
    have hend : s₁.Ended := (retryRead_nil_iff hw _ _).mp (by rw [hr])
    refine ⟨h.length_le, ?_, .inr ⟨ho, .inr ⟨_, h, hend⟩⟩, ?_⟩
    · rw [h.pending, List.take_left']
      rfl
    · intro hnil _
      obtain rfl := h.eq_of_nil hnil
      exact hend

/-- `ab CR LF CR LF c`, cut inside the needle, with an interruption. -/
def straddle : Src UInt8 :=
  ⟨ascii "ab\r\n\r\nc", [.got 3, .err .EINTR, .got 1]⟩

theorem readUntil_straddle :
    readUntil straddle 4096 (ascii "\r\n\r\n") = (.ok (ascii "ab\r\n\r\n"), ⟨ascii "c", []⟩) := by
  decide

theorem readUntil_stops_straddle :
    ascii "\r\n\r\n" ≠ [] ∧
    (ascii "ab\r\n\r\n").length ≤ 4096 ∧
    ∃ before last s₁, ascii "ab\r\n\r\n" = before ++ last ∧ Reads 4096 straddle before s₁ ∧
      last ≠ [] ∧ ¬ ascii "\r\n\r\n" <:+: octets before := by
  have hne : ascii "\r\n\r\n" ≠ [] := by decide
  have h := readUntil_stops straddle 4096 (ascii "\r\n\r\n") hne
  rw [readUntil_straddle] at h
  obtain ⟨hle, -, hwhy, -⟩ := h
  refine ⟨hne, hle, ?_⟩
  rcases hwhy with ⟨-, before, last, s₁, hb, hR, hl, -, ho⟩ | ⟨ho, -⟩
  · exact ⟨before, last, s₁, hb, hR, hl, ho⟩
  · exact absurd ((indexOf_isSome_iff _ _).mp (by decide)) ho

end Stops
end HttpC.L1.Util
