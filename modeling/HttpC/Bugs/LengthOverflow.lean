import HttpC.L2Parse.Body

/-!
# The subtraction in `conn_recv_file` overflows

src/connection.c:325 computes `content_length - total_written` in `ssize_t`,
and the comment above it counts on the result: "`remaining` below then just
goes negative". `content_length` is whatever `strtoull` made of the header,
cast (src/connection.c:146), so it can be as low as -2^63; with body bytes in
the buffer the difference then leaves the type.

`noOverflow_iff`: it stays inside exactly when the number `strtoull` reads is
not one of the `total_written` numbers from 2^63 on.

Fix: compare before subtracting, or refuse a `Content-Length` above
`SSIZE_MAX`.
-/
namespace HttpC.Bugs.LengthOverflow
open HttpC.L1.Util HttpC.L2

/-- `z` is a value of `ssize_t`. -/
def InRange (z : Int) : Prop := -2 ^ 63 ≤ z ∧ z < 2 ^ 63

/-- `content_length - total_written` of every PUT accepted on this
connection. -/
def NoOverflow (s : Src UInt8) : Prop :=
  ∀ rc c s', connParse rc s = (none, c, s') → c.request = .PUT →
    InRange (c.contentLength - (leftover c).length)

/-- What `strtoull` makes of the last `Content-Length`. -/
def declared (fs : List Field) : Nat :=
  fs.foldl (fun a f => if f.key = CONTENT_LENGTH_KEY then strtoull f.value else a) 0

/-- How much of the buffer is behind the header lines, blank line included. -/
def behind (buf : Bytes) (r : ReqLine) (n : Nat) : Nat := buf.length - (r.text.length + (n + 2))

/-- The declared length is not just above 2^63. -/
def Clear (s : Src UInt8) : Prop :=
  ∀ buf s' r fs n, readUntil s BUFFER_SIZE BLANK_LINE = (.ok buf, s') → LineOf (cstr buf) r →
    r.minor = ascii "1" → r.request = .PUT → Scan (cstr (buf.drop r.text.length)) fs n →
      declared fs < 2 ^ 63 ∨ 2 ^ 63 + behind buf r n ≤ declared fs

theorem strtoull_lt (v : Bytes) : strtoull v < 2 ^ 64 := by
  unfold strtoull
  simp only
  generalize valueOf _ = n
  split
  · omega
  · split
    · exact Nat.mod_lt _ (by decide)
    · omega

theorem lastLength_eq_declared (fs : List Field) :
    lastLength fs 0 = ssize (declared fs) ∧ declared fs < 2 ^ 64 := by
  unfold lastLength declared
  have h0 : (0 : Int) = ssize 0 := rfl
  rw [h0]
  have hlt : 0 < 2 ^ 64 := by decide
  generalize 0 = a at hlt
  induction fs generalizing a with
  | nil => exact ⟨rfl, hlt⟩
  | cons f fs ih =>
    simp only [List.foldl_cons]
    split
    · exact ih _ (strtoull_lt _)
    · exact ih a hlt

/-- The cast, then the subtraction. -/
theorem inRange_iff {v : Nat} (hv : v < 2 ^ 64) (k : Nat) (hk : k ≤ BUFFER_SIZE) :
    InRange (ssize v - k) ↔ v < 2 ^ 63 ∨ 2 ^ 63 + k ≤ v := by
  unfold InRange ssize
  unfold BUFFER_SIZE at hk
  split <;> omega

theorem inRange_accepted (buf : Bytes) (r : ReqLine) (fs : List Field) (n : Nat)
    (hbuf : buf.length ≤ BUFFER_SIZE) :
    InRange ((accepted buf r fs n).contentLength - (leftover (accepted buf r fs n)).length) ↔
      declared fs < 2 ^ 63 ∨ 2 ^ 63 + behind buf r n ≤ declared fs := by
  obtain ⟨hlen, hlt⟩ := lastLength_eq_declared fs
  have hleft : (leftover (accepted buf r fs n)).length = behind buf r n := by
    rw [leftover_accepted, List.length_drop, behind]
  rw [hleft]
  show InRange (lastLength fs 0 - _) ↔ _
  rw [hlen]
  exact inRange_iff hlt _ (Nat.le_trans (Nat.sub_le _ _) hbuf)

/-- **Exactly when the subtraction stays in range.** -/
theorem noOverflow_iff (s : Src UInt8) : NoOverflow s ↔ Clear s := by
  constructor
  · intro h buf s' r fs n hr hl hm hput hs
    have hp := connParse_accept hr (by rw [octets_self]; exact hl) hm (by rw [octets_self]; exact hs)
    exact (inRange_accepted buf r fs n (readUntil_ok hr).2.1).mp (h .ok _ s' hp hput)
  · intro h rc c s' hp hput
    obtain ⟨-, buf, r, fs, n, hr, hl, hm, hs, rfl⟩ := connParse_accepted hp
    rw [octets_self] at hl hs
    exact (inRange_accepted buf r fs n (readUntil_ok hr).2.1).mpr (h buf s' r fs n hr hl hm hput hs)

/-- A PUT that declares 2^63 bytes and brings one. -/
def putMin : Src UInt8 :=
  ⟨ascii "PUT /a HTTP/1.1\r\nContent-Length: 9223372036854775808\r\n\r\nx", []⟩

/-- **Counterexample**: `content_length` is -2^63, and one byte is written. -/
theorem put_overflows : ¬ NoOverflow putMin := by
  intro h
  have hr := (h .ok _ _ rfl (by decide)).1
  revert hr
  decide

end HttpC.Bugs.LengthOverflow
