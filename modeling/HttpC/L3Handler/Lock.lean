import HttpC.Core.Decimal
import HttpC.L2Parse.Parse

/-!
# The lockfile of a URI

`lockdir_init` and `lock_path_for`, src/httpserver.c:72-106. The directory is
named after device and inode of the working directory; the file in it after
the URI, with `/` written `%`. `%` is outside the URI alphabet, so the mapping
is injective on accepted URIs (`lockPathFor_inj`), and nothing is cut off by
the 192-byte buffer.
-/
namespace HttpC.L3
open HttpC.L2

/-- The text `snprintf` stores in a buffer of `n` bytes. -/
def snprintf (n : Nat) (text : Bytes) : Bytes := text.take (n - 1)

/-- mirrors src/httpserver.c:76-77 -/
def lockDir (dev ino : UInt64) : Bytes :=
  snprintf 96 (ascii "/tmp/.httpserver.locks." ++ decimal dev.toNat ++ ascii "." ++
    decimal ino.toNat)

/-- mirrors src/httpserver.c:101-106 -/
def lockPathFor (dir uri : Bytes) (n : Nat) : Bytes :=
  let off := (dir ++ ascii "/").length
  snprintf n (dir ++ ascii "/") ++
    ((cstr uri).take (n - 1 - off)).map fun c => if c = 47 then 37 else c

/-- `sizeof(path)` of `uri_lock`. -/
def PATH_SIZE : Nat := 192

theorem lockDir_length (dev ino : UInt64) : (lockDir dev ino).length ≤ 95 := by
  unfold lockDir snprintf
  exact List.length_take_le _ _

/-- Nothing is cut off. -/
theorem lockPathFor_eq (dev ino : UInt64) {uri : Bytes} (h : UriOk uri) :
    lockPathFor (lockDir dev ino) uri PATH_SIZE =
      lockDir dev ino ++ 47 :: uri.map fun c => if c = 47 then 37 else c := by
  have hd := lockDir_length dev ino
  have h2 := h.le
  have e : ascii "/" = [47] := by decide
  unfold lockPathFor snprintf PATH_SIZE
  simp only [e, List.length_append, List.length_cons, List.length_nil]
  rw [List.take_of_length_le (by simp; omega), cstr_eq_self h.no_nul,
    List.take_of_length_le (by omega)]
  simp

/-- The last part of a lockfile's path has no `/` left. -/
theorem no_slash_name (uri : Bytes) :
    (47 : UInt8) ∉ uri.map fun c => if c = 47 then (37 : UInt8) else c := by
  intro hm
  obtain ⟨c, -, he⟩ := List.mem_map.mp hm
  split at he
  · cases he
  · contradiction

/-- **Distinct accepted URIs have distinct lockfiles.** -/
theorem lockPathFor_inj (dev ino : UInt64) {u v : Bytes} (hu : UriOk u) (hv : UriOk v)
    (h : lockPathFor (lockDir dev ino) u PATH_SIZE = lockPathFor (lockDir dev ino) v PATH_SIZE) :
    u = v := by
  rw [lockPathFor_eq dev ino hu, lockPathFor_eq dev ino hv, List.append_cancel_left_eq,
    List.cons.injEq] at h
  have key : ∀ (u v : Bytes), (∀ x ∈ u, isUri x = true) → (∀ x ∈ v, isUri x = true) →
      u.map (fun c => if c = 47 then (37 : UInt8) else c) = v.map (fun c => if c = 47 then 37 else c) →
      u = v := by
    intro u
    induction u with
    | nil =>
      intro v _ _ he
      exact (List.map_eq_nil_iff.mp he.symm).symm
    | cons x u ih =>
      intro v hx hy he
      cases v with
      | nil => simp at he
      | cons y v =>
        obtain ⟨hx1, hx⟩ := List.forall_mem_cons.mp hx
        obtain ⟨hy1, hy⟩ := List.forall_mem_cons.mp hy
        rw [List.map_cons, List.map_cons, List.cons.injEq] at he
        have hne : isUri 37 = false := by decide
        have hxy : x = y := by
          have h37 := he.1
          split at h37 <;> split at h37
          · simp_all
          · rw [← h37, hne] at hy1; cases hy1
          · rw [h37, hne] at hx1; cases hx1
          · exact h37
        rw [hxy, ih v hx hy he.2]
  exact key u v hu.cls hv.cls h.2

end HttpC.L3
