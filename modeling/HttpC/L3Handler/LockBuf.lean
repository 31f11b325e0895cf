import HttpC.Core.CBuf
import HttpC.L3Handler.Lock

/-!
# `lock_path_for` in its buffers

src/httpserver.c:64,76-77,101-106 with the arrays as the source has them:
`lock_dir[96]`, `path[192]`, and a URI behind its terminator. `snprintf`
returns the length it wanted to write and the copy loop ends silently where
the buffer does, so a path could be cut short or, with a longer `lock_dir`,
the terminator land outside; the widths of device and inode rule both out.

* `lockPathLoop_copies`: the loop, with room for the URI.
* `lockPathForBuf_spec`: the array holds the text `lockPathFor` computes.
* `lockPaths_apart`: distinct URIs, distinct paths.
-/
namespace HttpC.L3
open HttpC.L2

/-- The format of `lockdir_init`, before any buffer. -/
def lockDirText (dev ino : UInt64) : Bytes :=
  ascii "/tmp/.httpserver.locks." ++ decimal dev.toNat ++ ascii "." ++ decimal ino.toNat

/-- `lock_dir`, a zeroed static array, once `lockdir_init` has run.
mirrors src/httpserver.c:64,76-77 -/
def lockDirBuf (dev ino : UInt64) : Bytes :=
  (CBuf.snprintf (List.replicate 96 0) (lockDirText dev ino)).1

/-- The copy loop; the first argument is `uri` from `p` on.
mirrors src/httpserver.c:103-104 -/
def lockPathLoop : Bytes → Bytes → Nat → Option (Bytes × Nat)
  | [], _, _ => none
  | c :: p, buf, off =>
    if c ≠ 0 ∧ off + 1 < buf.length then do
      let buf' ← CBuf.put buf off (if c = 47 then 37 else c)
      lockPathLoop p buf' (off + 1)
    else some (buf, off)

/-- `none` is an access outside an array; `n` is `sizeof buf`.
mirrors src/httpserver.c:101-106 -/
def lockPathForBuf (lockDir uri buf : Bytes) : Option Bytes := do
  let dir ← CBuf.str lockDir 0
  let (buf, off) := CBuf.snprintf buf (dir ++ ascii "/")
  let (buf, off) ← lockPathLoop uri buf off
  CBuf.put buf off 0

theorem lockDirText_length (dev ino : UInt64) : (lockDirText dev ino).length ≤ 64 := by
  have hw : ∀ x : UInt64, (decimal x.toNat).length ≤ 20 := by
    intro x
    apply decimal_length_le (by decide)
    exact Nat.lt_trans x.toNat_lt (by decide)
  have hdev := hw dev
  have hino := hw ino
  have htext : (ascii "/tmp/.httpserver.locks.").length = 23 := by decide
  have hdot : (ascii ".").length = 1 := by decide
  simp only [lockDirText, List.length_append, htext, hdot]
  omega

/-- The 96 bytes are never used up. -/
theorem lockDir_eq (dev ino : UInt64) : lockDir dev ino = lockDirText dev ino := by
  have h := lockDirText_length dev ino
  unfold lockDir snprintf
  exact List.take_of_length_le (Nat.le_trans h (by decide))

theorem lockDirText_no_nul (dev ino : UInt64) : (0 : UInt8) ∉ lockDirText dev ino := by
  have hd : ∀ n : Nat, (0 : UInt8) ∉ decimal n := by
    intro n h
    have := (decimal_digits h).1
    simp at this
  have htext : (0 : UInt8) ∉ ascii "/tmp/.httpserver.locks." := by decide
  have hdot : (0 : UInt8) ∉ ascii "." := by decide
  simp [lockDirText, hd, htext, hdot]

theorem str_lockDirBuf (dev ino : UInt64) :
    CBuf.str (lockDirBuf dev ino) 0 = some (lockDirText dev ino) := by
  have h := lockDirText_length dev ino
  have hfit : (lockDirText dev ino).length < (List.replicate 96 (0 : UInt8)).length := by
    rw [List.length_replicate]
    omega
  unfold lockDirBuf
  rw [CBuf.snprintf_fits hfit, CBuf.str_eq (by simp), List.drop_zero,
    CBuf.cstr_append_nul (lockDirText_no_nul dev ino)]

/-- With room for the URI and a terminator the loop copies it all. `s` is
what the array holds so far. -/
theorem lockPathLoop_copies {uri s dst : Bytes} (t : Bytes) (h0 : (0 : UInt8) ∉ uri)
    (hroom : s.length + uri.length < dst.length) :
    lockPathLoop (uri ++ 0 :: t) (s ++ dst.drop s.length) s.length =
      some (s ++ uri.map (fun c => if c = 47 then 37 else c) ++
          dst.drop (s.length + uri.length), s.length + uri.length) := by
  induction uri generalizing s with
  | nil => simp [lockPathLoop]
  | cons c uri ih =>
    obtain ⟨hc, h0⟩ := not_or.mp (fun h => h0 (List.mem_cons.mpr h))
    rw [List.length_cons] at hroom
    have hlen : (s ++ dst.drop s.length).length = dst.length := by
      rw [List.length_append, List.length_drop]
      omega
    have hgo : c ≠ 0 ∧ s.length + 1 < (s ++ dst.drop s.length).length :=
      ⟨fun h => hc h.symm, by omega⟩
    simp only [List.cons_append, lockPathLoop, if_pos hgo,
      CBuf.put_filled (show s.length < dst.length by omega), Option.bind_eq_bind, Option.bind_some]
    -- one octet further: `s` grows by the one just stored
    have hnext := ih h0 (show (s ++ [if c = 47 then 37 else c]).length + uri.length < dst.length by
      rw [List.length_append, List.length_singleton]
      omega)
    rw [List.length_append, List.length_singleton] at hnext
    rw [List.append_assoc, List.singleton_append] at hnext
    rw [hnext]
    simp [Nat.add_comm, Nat.add_left_comm]

/-- The whole function, with room for directory, `/`, URI and terminator. -/
theorem lockPathForBuf_copies {lockDir dir uri buf : Bytes} (t : Bytes)
    (hd : CBuf.str lockDir 0 = some dir) (h0 : (0 : UInt8) ∉ uri)
    (hroom : dir.length + 1 + uri.length < buf.length) :
    ∃ rest, lockPathForBuf lockDir (uri ++ 0 :: t) buf =
        some (dir ++ 47 :: uri.map (fun c => if c = 47 then 37 else c) ++ 0 :: rest) ∧
      dir.length + 1 + uri.length + 1 + rest.length = buf.length := by
  generalize hs : dir ++ ascii "/" = s
  have hsl : s.length = dir.length + 1 := by
    rw [← hs, List.length_append]
    rfl
  have hfit : s.length < buf.length := by omega
  -- the array after `snprintf`: the directory, and room behind it
  generalize hdst : s ++ 0 :: buf.drop (s.length + 1) = dst
  have hdstl : dst.length = buf.length := by
    rw [← hdst, List.length_append, List.length_cons, List.length_drop]
    omega
  have hfilled : s ++ dst.drop s.length = dst := by rw [← hdst, List.drop_left]
  have hloop := lockPathLoop_copies t h0 (show s.length + uri.length < dst.length by omega)
  rw [hfilled] at hloop
  generalize hname : uri.map (fun c => if c = 47 then (37 : UInt8) else c) = name at hloop
  have hlen : (s ++ name).length = s.length + uri.length := by
    rw [List.length_append, ← hname, List.length_map]
  rw [← hlen] at hloop
  have hput := CBuf.put_filled (show (s ++ name).length < dst.length by omega) 0
  refine ⟨dst.drop ((s ++ name).length + 1), ?_, ?_⟩
  · simp only [lockPathForBuf, hd, Option.bind_eq_bind, Option.bind_some, hs,
      CBuf.snprintf_fits hfit, hdst, hloop, hput]
    rw [← hs, show ascii "/" = [47] by decide]
    simp
  · rw [List.length_drop]
    omega

/-- **Spec of `lock_path_for`.** For an accepted URI every access is inside
its array, and the array holds the whole path. -/
theorem lockPathForBuf_spec (dev ino : UInt64) {uri buf : Bytes} (t : Bytes) (h : UriOk uri)
    (hb : buf.length = PATH_SIZE) :
    ∃ path, lockPathForBuf (lockDirBuf dev ino) (uri ++ 0 :: t) buf = some path ∧
      path.length = PATH_SIZE ∧
      CBuf.str path 0 = some (lockPathFor (lockDir dev ino) uri PATH_SIZE) := by
  have hdir := lockDirText_length dev ino
  have huri := h.le
  obtain ⟨rest, hp, hrest⟩ := lockPathForBuf_copies t (str_lockDirBuf dev ino) h.no_nul
    (show (lockDirText dev ino).length + 1 + uri.length < buf.length by rw [hb, PATH_SIZE]; omega)
  refine ⟨_, hp, ?_, ?_⟩
  · simp only [List.length_append, List.length_cons, List.length_map]
    omega
  · have hno : (0 : UInt8) ∉
        lockDirText dev ino ++ 47 :: uri.map (fun c => if c = 47 then 37 else c) := by
      intro hm
      rcases List.mem_append.mp hm with hm | hm
      · exact lockDirText_no_nul dev ino hm
      · rcases List.mem_cons.mp hm with hm | hm
        · cases hm
        · obtain ⟨c, hc, he⟩ := List.mem_map.mp hm
          split at he
          · cases he
          · exact h.no_nul (he ▸ hc)
    rw [CBuf.str_eq (by simp), List.drop_zero, CBuf.cstr_append_nul hno, lockPathFor_eq dev ino h,
      lockDir_eq]

/-- **Distinct URIs get distinct locks.** Whatever the arrays held before and
whatever follows the URIs' terminators, `lock_path_for` stays inside its
arrays and stores two different paths, each of them whole: the directory, `/`,
and one octet for each octet of the URI, none of them a `/`. -/
theorem lockPaths_apart (dev ino : UInt64) {u v bu bv : Bytes} (tu tv : Bytes) (hu : UriOk u)
    (hv : UriOk v) (hne : u ≠ v) (hbu : bu.length = PATH_SIZE) (hbv : bv.length = PATH_SIZE) :
    ∃ pu pv nu nv,
      lockPathForBuf (lockDirBuf dev ino) (u ++ 0 :: tu) bu = some pu ∧
      lockPathForBuf (lockDirBuf dev ino) (v ++ 0 :: tv) bv = some pv ∧
      CBuf.str (lockDirBuf dev ino) 0 = some (lockDirText dev ino) ∧
      CBuf.str pu 0 = some (lockDirText dev ino ++ 47 :: nu) ∧
      CBuf.str pv 0 = some (lockDirText dev ino ++ 47 :: nv) ∧
      nu.length = u.length ∧ nv.length = v.length ∧ (47 : UInt8) ∉ nu ∧ (47 : UInt8) ∉ nv ∧
      CBuf.str pu 0 ≠ CBuf.str pv 0 := by
  obtain ⟨pu, hpu, -, hsu⟩ := lockPathForBuf_spec dev ino tu hu hbu
  obtain ⟨pv, hpv, -, hsv⟩ := lockPathForBuf_spec dev ino tv hv hbv
  have hapart : CBuf.str pu 0 ≠ CBuf.str pv 0 := by
    intro he
    rw [hsu, hsv] at he
    exact hne (lockPathFor_inj dev ino hu hv (Option.some.inj he))
  rw [lockPathFor_eq dev ino hu, lockDir_eq] at hsu
  rw [lockPathFor_eq dev ino hv, lockDir_eq] at hsv
  exact ⟨pu, pv, _, _, hpu, hpv, str_lockDirBuf dev ino, hsu, hsv, List.length_map _,
    List.length_map _, no_slash_name u, no_slash_name v, hapart⟩

/-- `/a/b` and `/a_b`, in arrays of zeros. -/
theorem lockPaths_apart_ab :
    UriOk (ascii "a/b") ∧ UriOk (ascii "a_b") ∧
    ∃ pu pv,
      lockPathForBuf (lockDirBuf 1 2) (ascii "a/b" ++ [0]) (List.replicate 192 0) = some pu ∧
      lockPathForBuf (lockDirBuf 1 2) (ascii "a_b" ++ [0]) (List.replicate 192 0) = some pv ∧
      CBuf.str pu 0 ≠ CBuf.str pv 0 := by
  have hu : UriOk (ascii "a/b") := by decide
  have hv : UriOk (ascii "a_b") := by decide
  obtain ⟨pu, pv, _, _, hpu, hpv, -, -, -, -, -, -, -, hapart⟩ :=
    lockPaths_apart 1 2 [] [] hu hv (by decide) (List.length_replicate : _ = PATH_SIZE)
      (List.length_replicate : _ = PATH_SIZE)
  exact ⟨hu, hv, pu, pv, hpu, hpv, hapart⟩

end HttpC.L3
