import HttpC.Core.Bytes

/-!
# Fixed-size `char` arrays

An array is the list of its octets; its length never changes. Every access is
checked: `none` is a read or a write outside the array. `str` reads the C
string at an offset and needs its NUL inside the array.

The lemmas say when an access goes through and what string is then stored;
proofs about callers use these and not the definitions.
-/
namespace HttpC.CBuf

/-- `buf[i] = x` -/
def put (buf : Bytes) (i : Nat) (x : UInt8) : Option Bytes :=
  if i < buf.length then some (buf.set i x) else none

/-- The string at `buf + p`. -/
def str (buf : Bytes) (p : Nat) : Option Bytes :=
  if 0 ∈ buf.drop p then some (cstr (buf.drop p)) else none

/-- `memcpy(dst, src + p, n)` -/
def memcpy (dst src : Bytes) (p n : Nat) : Option Bytes :=
  if n ≤ dst.length ∧ p + n ≤ src.length then some ((src.drop p).take n ++ dst.drop n) else none

/-- `strncpy(dst, s, n)`: `n` octets are written, NULs after the string. -/
def strncpy (dst s : Bytes) (n : Nat) : Option Bytes :=
  if n ≤ dst.length then some ((s ++ List.replicate n 0).take n ++ dst.drop n) else none

/-- `snprintf(buf, sizeof buf, ...)` of a conversion to `text`: what fits is
stored and terminated, the full length is returned. -/
def snprintf (buf text : Bytes) : Bytes × Nat :=
  if buf.length = 0 then (buf, text.length)
  else (text.take (buf.length - 1) ++ 0 :: buf.drop ((text.take (buf.length - 1)).length + 1),
    text.length)

theorem put_eq {buf : Bytes} {i : Nat} (h : i < buf.length) (x : UInt8) :
    put buf i x = some (buf.set i x) := by
  simp [put, h]

/-- A NUL ends the string at the latest. -/
theorem cstr_append_zero (s t : Bytes) : cstr (s ++ 0 :: t) = cstr s := by
  by_cases h : (0 : UInt8) ∈ s
  · exact cstr_append_of_mem _ h
  · rw [cstr_append_of_not_mem _ h, cstr_eq_self h]
    simp [cstr]

theorem cstr_append_nul {s : Bytes} (h : (0 : UInt8) ∉ s) (t : Bytes) :
    cstr (s ++ 0 :: t) = s := by
  rw [cstr_append_zero, cstr_eq_self h]

theorem cstr_cstr (s : Bytes) : cstr (cstr s) = cstr s := cstr_eq_self (not_mem_cstr s)

theorem str_eq {buf : Bytes} {p : Nat} (h : (0 : UInt8) ∈ buf.drop p) :
    str buf p = some (cstr (buf.drop p)) := by
  simp [str, h]

/-- The next octet of an array whose first octets are already written. -/
theorem put_filled {dst s : Bytes} (h : s.length < dst.length) (x : UInt8) :
    put (s ++ dst.drop s.length) s.length x = some (s ++ x :: dst.drop (s.length + 1)) := by
  have hlen : s.length < (s ++ dst.drop s.length).length := by
    rw [List.length_append, List.length_drop]
    omega
  rw [put_eq hlen, List.set_append_right _ _ (Nat.le_refl _), Nat.sub_self,
    List.drop_eq_getElem_cons h, List.set_cons_zero]

/-- **A terminated copy.** `memcpy` of a non-empty piece that leaves room for
its terminator, and the store of the terminator. -/
theorem memcpy_put {dst src s t : Bytes} {p : Nat} (hs : src.drop p = s ++ t)
    (hpos : 0 < s.length) (hlen : s.length < dst.length) :
    ∃ d, memcpy dst src p s.length = some d ∧
      put d s.length 0 = some (s ++ 0 :: dst.drop (s.length + 1)) := by
  have hp : p + s.length ≤ src.length := by
    have h := congrArg List.length hs
    rw [List.length_drop, List.length_append] at h
    omega
  have hcopy : memcpy dst src p s.length = some (s ++ dst.drop s.length) := by
    rw [memcpy, if_pos ⟨Nat.le_of_lt hlen, hp⟩, hs, List.take_left]
  exact ⟨_, hcopy, put_filled hlen 0⟩

/-- `strncpy` of a string that fits, with the last octet set to NUL. -/
theorem strncpy_put {dst s : Bytes} {n : Nat} (hd : dst.length = n + 1) (hs : s.length ≤ n) :
    ∃ d, strncpy dst s n = some d ∧
      put d n 0 = some (s ++ 0 :: List.replicate (n - s.length) 0) := by
  have htake : (s ++ List.replicate n (0 : UInt8)).take n = s ++ List.replicate (n - s.length) 0 := by
    rw [List.take_append, List.take_of_length_le hs, List.take_replicate]
    congr 2
    omega
  have hcopy : strncpy dst s n = some ((s ++ List.replicate (n - s.length) 0) ++ dst.drop n) := by
    rw [strncpy, if_pos (by omega), htake]
  refine ⟨_, hcopy, ?_⟩
  have hl : (s ++ List.replicate (n - s.length) (0 : UInt8)).length = n := by simp; omega
  obtain ⟨x, hx⟩ : ∃ x, dst.drop n = [x] := List.length_eq_one_iff.mp (by simp [hd])
  rw [hx, put_eq (by simp; omega), List.set_append_right _ _ (by omega), hl, Nat.sub_self,
    List.set_cons_zero, List.append_assoc, ← List.replicate_succ', List.replicate_succ]

/-- A text that fits is stored whole. -/
theorem snprintf_fits {buf text : Bytes} (h : text.length < buf.length) :
    snprintf buf text = (text ++ 0 :: buf.drop (text.length + 1), text.length) := by
  have htake : text.take (buf.length - 1) = text := List.take_of_length_le (by omega)
  rw [snprintf, if_neg (by omega), htake]

end HttpC.CBuf
