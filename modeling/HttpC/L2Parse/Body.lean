import HttpC.L2Parse.Block

/-!
# What `conn_recv_file` writes

The buffered leftover first, then the connection, up to `content_length`
bytes in all (src/connection.c:307-334). `leftover` is the slice it writes
from the buffer; `connRecvFile_spec` says, for any scripts, that the file gets
an initial part of leftover and connection, and exactly which part when no
call fails.
-/
namespace HttpC.L2
open HttpC.L1.Util

variable {α : Type}

/-- The buffered body bytes `conn_recv_file` starts with. -/
def leftover (c : Conn α) : List α :=
  if 0 < c.inMessage then (c.buffer.drop c.messageStart).take c.inMessage.toNat else []

/-- How many bytes it then asks the connection for. -/
def remaining (c : Conn α) : Nat := (c.contentLength - (leftover c).length).toNat

/-- The slice and the rest, without the branches. -/
theorem connRecvFile_eq (c : Conn α) (s : Src α) (fd : Dst α) :
    connRecvFile c s fd =
      match writeAll fd (leftover c) with
      | (.error _, fd') => (some .INTERNAL_SERVER_ERROR, s, fd')
      | (.ok (), fd') =>
        if 0 < remaining c then
          match passBytes s fd' (remaining c) with
          | (.error _, s', fd'') => (some .INTERNAL_SERVER_ERROR, s', fd'')
          | (.ok _, s', fd'') => (none, s', fd'')
        else (none, s, fd') := by
  have hif : (if 0 < c.inMessage then writeAll fd (leftover c) else (.ok (), fd)) =
      writeAll fd (leftover c) := by
    split
    · rfl
    · rename_i h
      simp only [leftover, h, if_false, writeAll]
      cases fd with | mk w es => cases es <;> rfl
  have hpos : 0 < c.contentLength - (leftover c).length ↔ 0 < remaining c := by
    unfold remaining; omega
  have hval : connRecvFile c s fd =
      match (if 0 < c.inMessage then writeAll fd (leftover c) else (.ok (), fd)) with
      | (.error _, fd') => (some .INTERNAL_SERVER_ERROR, s, fd')
      | (.ok (), fd') =>
        if 0 < c.contentLength - (leftover c).length then
          match passBytes s fd' (remaining c) with
          | (.error _, s', fd'') => (some .INTERNAL_SERVER_ERROR, s', fd'')
          | (.ok _, s', fd'') => (none, s', fd'')
        else (none, s, fd') := rfl
  rw [hval, hif]
  simp only [hpos]

/-- **Spec of `conn_recv_file`.** -/
theorem connRecvFile_spec (c : Conn α) (s : Src α) (fd : Dst α) :
    ∃ q, (connRecvFile c s fd).2.2.written = fd.written ++ q ∧ q <+: leftover c ++ s.pending ∧
      ((connRecvFile c s fd).1 = none → ∃ t, q = leftover c ++ t ∧ t.length ≤ remaining c) ∧
      (Cut s.script → Writes fd.script → (connRecvFile c s fd).1 = none ∧
        q = leftover c ++ s.pending.take (remaining c) ∧
        (connRecvFile c s fd).2.1.pending = s.pending.drop (remaining c)) := by
  rw [connRecvFile_eq]
  obtain ⟨p, p1, p2, p3, p4, p5⟩ := writeAll_spec fd (leftover c)
  split
  · rename_i e fd' hw
    rw [hw] at p2 p5
    refine ⟨p, p2, p1.trans (List.prefix_append _ _), by simp, fun _ hwr => ?_⟩
    have := p5 hwr; simp at this
  · rename_i fd' hw
    rw [hw] at p2 p3 p4
    obtain rfl := p4 rfl
    split
    · rename_i hpos
      obtain ⟨a, q, hP, hok, hcl⟩ := passBytes_spec s fd' (remaining c)
      have hle := hP.le
      have htk := hP.taken
      -- the two branches of `pass_bytes` leave the same descriptors
      have hput : ∀ r : Option Response, ∃ q',
          (r, (passBytes s fd' (remaining c)).2).2.2.written = fd.written ++ q' ∧
          q' = leftover c ++ q := by
        intro r; exact ⟨_, by rw [hP.put, p2, List.append_assoc], rfl⟩
      have hpre : leftover c ++ q <+: leftover c ++ s.pending := by
        refine (List.prefix_append_right_inj _).mpr (hP.pre.trans ?_)
        rw [htk]; exact List.prefix_append _ _
      split
      · rename_i e s' fd'' hpb
        rw [hpb] at hput hcl
        obtain ⟨q', h1, rfl⟩ := hput (some .INTERNAL_SERVER_ERROR)
        refine ⟨_, h1, hpre, by simp, fun hc hwr => ?_⟩
        have := (hcl hc (hwr.suffix p3)).1
        simp at this
      · rename_i k s' fd'' hpb
        rw [hpb] at hput hok hcl htk
        obtain ⟨q', h1, rfl⟩ := hput none
        obtain ⟨rfl, -⟩ := hok k rfl
        refine ⟨_, h1, hpre, fun _ => ⟨q, rfl, hle⟩, fun hc hwr => ⟨rfl, ?_⟩⟩
        have hlen : q.length = remaining c ∨ s'.pending = [] := by
          rcases (hcl hc (hwr.suffix p3)).2 with h | h
          · exact .inl (by omega)
          · exact .inr h
        simp only at htk ⊢
        rw [htk]
        rcases hlen with h | h
        · rw [← h, List.take_left, List.drop_left]; exact ⟨rfl, rfl⟩
        · rw [h, List.append_nil, List.take_of_length_le hle, List.drop_of_length_le hle]
          exact ⟨rfl, rfl⟩
    · rename_i hpos
      have h0 : remaining c = 0 := by omega
      exact ⟨leftover c, p2, List.prefix_append _ _, fun _ => ⟨[], by simp, by simp⟩,
        fun _ _ => ⟨rfl, by simp [h0], by simp [h0]⟩⟩

/-- Of an accepted request, all that is buffered behind `message_start`. -/
theorem leftover_accepted (buf : List α) (r : ReqLine) (fs : List Field) (n : Nat) :
    leftover (accepted buf r fs n) = buf.drop (r.text.length + (n + 2)) := by
  unfold leftover accepted
  split
  · rename_i h
    simp only at h ⊢
    apply List.take_of_length_le
    rw [List.length_drop]; omega
  · rename_i h
    simp only at h
    rw [List.drop_of_length_le (by omega)]

end HttpC.L2
