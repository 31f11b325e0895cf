import HttpC.Core.LTS
import HttpC.L3Handler.Worker

/-!
# One lockfile for each URI, whatever others do in `/tmp`

`flock` locks an inode, not a path. The handlers rely on one path naming one
inode, for all threads of all servers of a directory and for as long as any
of them runs (src/httpserver.c:57-62). `/tmp` is everybody's: another user may
have put a directory, a symbolic link or a file under the name of the lock
directory, before the server starts or between two of its calls.
`lockdir_init` (src/httpserver.c:72-98) makes the directory, or takes the one
that is there if `lstat` says it is a directory of its own user.

`Ns` is `/tmp` as far as it matters: entries with their owners, the files in
each directory, and the inodes that `uri_lock` opened. The other users make
entries where there is none, remove their own (the sticky bit keeps them from
the others'), and do what they like in directories of theirs. The users the
servers run as make and remove nothing by hand.

Of the calls, `stat(".")` alone fails without a word: `main` exits and says
nothing (`Startup.failed none`), although its comment has it that
`lockdir_init` printed a diagnostic.
-/
namespace HttpC.L8
open HttpC.L2 HttpC.L3 HttpC.Flock

/-! ## The name of a lockfile -/

/-- What `lock_path_for` writes behind the directory. -/
def lockBase (E : Env) (uri : Bytes) : Bytes :=
  ((cstr uri).take (PATH_SIZE - 1 - (lockDir E.dev E.ino ++ ascii "/").length)).map
    fun c => if c = 47 then 37 else c

theorem lockOf_eq (E : Env) (uri : Bytes) :
    E.lockOf uri = lockDir E.dev E.ino ++ 47 :: lockBase E uri := by
  have hd := lockDir_length E.dev E.ino
  have hs : ascii "/" = [47] := by decide
  have hfit : snprintf PATH_SIZE (lockDir E.dev E.ino ++ ascii "/") =
      lockDir E.dev E.ino ++ [47] := by
    unfold snprintf
    rw [hs, List.take_of_length_le]
    simp only [List.length_append, List.length_cons, List.length_nil, PATH_SIZE]
    omega
  unfold Env.lockOf lockPathFor lockBase
  rw [hfit, List.append_assoc]
  rfl

/-- What is behind the last `/` of a path is one thing. -/
theorem last_slash_inj {a b c d : Bytes} (hb : (47 : UInt8) ∉ b) (hd : (47 : UInt8) ∉ d) :
    a ++ 47 :: b = c ++ 47 :: d ↔ a = c ∧ b = d := by
  constructor
  · intro h
    rcases List.append_eq_append_iff.mp h with ⟨as, rfl, has⟩ | ⟨as, rfl, has⟩
    · cases as with
      | nil => simpa using has
      | cons x as =>
        rw [List.cons_append, List.cons.injEq] at has
        exact absurd (by rw [has.2]; simp) hb
    · cases as with
      | nil => simpa [eq_comm] using has
      | cons x as =>
        rw [List.cons_append, List.cons.injEq] at has
        exact absurd (by rw [has.2]; simp) hd
  · intro h
    rw [h.1, h.2]

/-- Directory and name make the path. -/
theorem lockOf_inj (E F : Env) (u v : Bytes) :
    E.lockOf u = F.lockOf v ↔
      lockDir E.dev E.ino = lockDir F.dev F.ino ∧ lockBase E u = lockBase F v := by
  rw [lockOf_eq, lockOf_eq]
  exact last_slash_inj (no_slash_name _) (no_slash_name _)

/-! ## `/tmp` -/

inductive EntryKind where
  | dir | link (target : Nat) | other
  deriving DecidableEq, Repr

structure Entry where
  ino : Nat
  kind : EntryKind
  uid : Nat
  deriving DecidableEq, Repr

/-- The directory a path through the entry leads to. -/
def Entry.resolve (e : Entry) : Option Nat :=
  match e.kind with
  | .dir => some e.ino
  | .link target => some target
  | .other => none

structure Folder where
  uid : Nat
  files : Bytes → Option Nat

/-- What `lockdir_init` prints. -/
inductive Diag where
  | mkdir | lstat | squatted
  deriving DecidableEq, Repr

inductive Startup where
  | begin | named | found | up | failed (d : Option Diag)
  deriving DecidableEq, Repr

/-- `opened` is every lockfile `uri_lock` opened: by which process, for which
URI, and the inode. -/
structure Ns (k : Nat) where
  tmp : Bytes → Option Entry
  folders : Nat → Option Folder
  fresh : Nat
  pcs : Fin k → Startup
  opened : List (Fin k × Bytes × Nat)

/-- A server's next call in `lockdir_init` (`ok`: it does not fail of itself),
a server's `uri_lock`; another user makes an entry, removes one, or changes a
directory. -/
inductive NsEv (k : Nat) where
  | call (p : Fin k) (ok : Bool)
  | lock (p : Fin k) (uri : Bytes)
  | make (u : Nat) (path : Bytes) (kind : EntryKind)
  | drop (u : Nat) (path : Bytes)
  | edit (u : Nat) (folder : Nat) (name : Bytes) (x : Option Nat)

variable {k : Nat}

section
variable (Es : Fin k → Env) (uid : Fin k → Nat)

/-- mirrors src/httpserver.c:76-77 -/
def dirOf (p : Fin k) : Bytes := lockDir (Es p).dev (Es p).ino

/-- An entry is made, of user `u`; a directory is empty. -/
def Ns.made (s : Ns k) (path : Bytes) (kind : EntryKind) (u : Nat) : Ns k :=
  { s with
    tmp := Function.update s.tmp path (some ⟨s.fresh, kind, u⟩)
    folders := if kind = .dir then Function.update s.folders s.fresh (some ⟨u, fun _ => none⟩)
      else s.folders
    fresh := s.fresh + 1 }

/-- One call of `lockdir_init`.
mirrors src/httpserver.c:72-98 -/
def Ns.call (s : Ns k) (p : Fin k) (ok : Bool) : Option (Ns k) :=
  match s.pcs p with
  | .begin =>
    some { s with pcs := Function.update s.pcs p (if ok then .named else .failed none) }
  | .named =>
    if ok = false then some { s with pcs := Function.update s.pcs p (.failed (some .mkdir)) }
    else
      match s.tmp (dirOf Es p) with
      | some _ => some { s with pcs := Function.update s.pcs p .found }
      | none =>
        some { s.made (dirOf Es p) .dir (uid p) with pcs := Function.update s.pcs p .up }
  | .found =>
    match ok, s.tmp (dirOf Es p) with
    | true, some e =>
      -- `!S_ISDIR(lock_st.st_mode) || lock_st.st_uid != geteuid()`
      some { s with
        pcs := Function.update s.pcs p
          (if e.kind = .dir ∧ e.uid = uid p then .up else .failed (some .squatted)) }
    | _, _ => some { s with pcs := Function.update s.pcs p (.failed (some .lstat)) }
  | .up | .failed _ => none

/-- `open(path, O_CREAT | O_RDONLY, 0600)` of a server that is up; a directory
cannot be opened so.
mirrors src/httpserver.c:111-117 -/
def Ns.lock (s : Ns k) (p : Fin k) (uri : Bytes) : Option (Ns k) :=
  let name := lockBase (Es p) uri
  if s.pcs p = .up ∧ name ≠ [] ∧ name ≠ [46] ∧ name ≠ [46, 46] then
    (s.tmp (dirOf Es p)).bind Entry.resolve |>.bind fun d =>
    (s.folders d).map fun D =>
      match D.files name with
      | some x => { s with opened := s.opened ++ [(p, uri, x)] }
      | none =>
        { s with
          folders := Function.update s.folders d
            (some { D with files := Function.update D.files name (some s.fresh) })
          fresh := s.fresh + 1
          opened := s.opened ++ [(p, uri, s.fresh)] }
  else none

/-- Somebody a server runs as. -/
def Serves (u : Nat) : Prop := ∃ p, uid p = u

instance (u : Nat) : Decidable (Serves uid u) := inferInstanceAs (Decidable (∃ p, uid p = u))

def Ns.step (s : Ns k) : NsEv k → Option (Ns k)
  | .call p ok => s.call Es uid p ok
  | .lock p uri => s.lock Es p uri
  | .make u path kind =>
    if Serves uid u ∨ (s.tmp path).isSome then none
    else some (s.made path kind u)
  | .drop u path =>
    if Serves uid u ∨ (s.tmp path).map Entry.uid ≠ some u then none
    else some { s with tmp := Function.update s.tmp path none }
  | .edit u d name x =>
    match s.folders d with
    | none => none
    | some D =>
      if Serves uid u ∨ D.uid ≠ u then none
      else some { s with
        folders := Function.update s.folders d
          (some { D with files := Function.update D.files name x }) }

/-- An empty `/tmp`, and nothing started. -/
def Ns.start : Ns k where
  tmp _ := none
  folders _ := none
  fresh := 0
  pcs _ := .begin
  opened := []

def lockNamespace : LTS (Ns k) (NsEv k) := .ofFn (· = Ns.start) (Ns.step Es uid)

end

/-! ## What others cannot do -/

/-- Entries and directories go together, the lockfiles of the servers' own
directories are all different, a server that is up has its directory, and what
it opened is still there. -/
structure Ns.Kept (Es : Fin k → Env) (uid : Fin k → Nat) (s : Ns k) : Prop where
  folder : ∀ path e, s.tmp path = some e → e.kind = .dir →
    ∃ D, s.folders e.ino = some D ∧ D.uid = e.uid
  apart : ∀ path path' e e', s.tmp path = some e → s.tmp path' = some e' → e.ino = e'.ino →
    path = path'
  used : ∀ path e, s.tmp path = some e → e.ino < s.fresh
  known : ∀ d D, s.folders d = some D → d < s.fresh
  file : ∀ d D name x, s.folders d = some D → Serves uid D.uid → D.files name = some x →
    x < s.fresh
  inj : ∀ d D name d' D' name' x, s.folders d = some D → Serves uid D.uid →
    s.folders d' = some D' → Serves uid D'.uid → D.files name = some x → D'.files name' = some x →
    d = d' ∧ name = name'
  up : ∀ p, s.pcs p = .up → ∃ d, s.tmp (dirOf Es p) = some ⟨d, .dir, uid p⟩
  opened : ∀ p u x, (p, u, x) ∈ s.opened → s.pcs p = .up ∧
    ∃ d D, s.tmp (dirOf Es p) = some ⟨d, .dir, uid p⟩ ∧ s.folders d = some D ∧
      D.files (lockBase (Es p) u) = some x

section
variable {Es : Fin k → Env} {uid : Fin k → Nat} {s s' : Ns k}

/-- A server goes on in `lockdir_init`. -/
theorem Ns.Kept.goes (h : s.Kept Es uid) {p : Fin k} {pc : Startup} (hp : s.pcs p ≠ .up)
    (hup : pc = .up → ∃ d, s.tmp (dirOf Es p) = some ⟨d, .dir, uid p⟩) :
    Ns.Kept Es uid { s with pcs := Function.update s.pcs p pc } := by
  refine ⟨h.folder, h.apart, h.used, h.known, h.file, h.inj, fun q hq => ?_, fun q u x hm => ?_⟩
  · simp only at hq
    by_cases hqp : q = p
    · subst hqp
      rw [Function.update_self] at hq
      exact hup hq
    · rw [Function.update_of_ne hqp] at hq
      exact h.up q hq
  · obtain ⟨hq, hrest⟩ := h.opened q u x hm
    have hqp : q ≠ p := by
      intro hh
      subst hh
      exact hp hq
    exact ⟨(Function.update_of_ne hqp _ _).trans hq, hrest⟩

/-! ### A new entry -/

section
variable {path : Bytes} {kind : EntryKind} {u : Nat}

theorem made_tmp {x : Bytes} {e : Entry} (h : (s.made path kind u).tmp x = some e) :
    (x = path ∧ e = ⟨s.fresh, kind, u⟩) ∨ s.tmp x = some e := by
  simp only [Ns.made] at h
  by_cases hx : x = path
  · subst hx
    rw [Function.update_self, Option.some.injEq] at h
    exact .inl ⟨rfl, h.symm⟩
  · rw [Function.update_of_ne hx] at h
    exact .inr h

theorem made_tmp_keep (hfree : s.tmp path = none) {x : Bytes} {e : Entry} (h : s.tmp x = some e) :
    (s.made path kind u).tmp x = some e := by
  have hx : x ≠ path := by
    intro hh
    rw [hh, hfree] at h
    cases h
  simp only [Ns.made, Function.update_of_ne hx]
  exact h

theorem made_folder {d : Nat} {D : Folder} (h : (s.made path kind u).folders d = some D) :
    (d = s.fresh ∧ D = ⟨u, fun _ => none⟩) ∨ s.folders d = some D := by
  simp only [Ns.made] at h
  split at h
  · by_cases hd : d = s.fresh
    · rw [hd, Function.update_self, Option.some.injEq] at h
      exact .inl ⟨hd, h.symm⟩
    · rw [Function.update_of_ne hd] at h
      exact .inr h
  · exact .inr h

theorem made_folder_keep {d : Nat} (hd : d < s.fresh) :
    (s.made path kind u).folders d = s.folders d := by
  simp only [Ns.made]
  split
  · exact Function.update_of_ne (Nat.ne_of_lt hd) _ _
  · rfl

/-- Somebody makes an entry where there is none. -/
theorem Ns.Kept.makes (h : s.Kept Es uid) (hfree : s.tmp path = none) :
    (s.made path kind u).Kept Es uid := by
  refine ⟨fun x e he hk => ?_, fun x y e e' he he' hi => ?_, fun x e he => ?_, fun d D hD => ?_,
    fun d D name x hD hs hx => ?_, fun d D name d' D' name' x hD hs hD' hs' hx hx' => ?_,
    fun p hp => ?_, fun p v x hm => ?_⟩
  · rcases made_tmp he with ⟨rfl, rfl⟩ | he
    · simp only at hk
      subst hk
      exact ⟨⟨u, fun _ => none⟩, by simp [Ns.made], rfl⟩
    · obtain ⟨D, hD, hu⟩ := h.folder x e he hk
      exact ⟨D, (made_folder_keep (h.used x e he)).trans hD, hu⟩
  · rcases made_tmp he with ⟨rfl, rfl⟩ | hx <;> rcases made_tmp he' with ⟨rfl, rfl⟩ | hy
    · rfl
    · exact absurd hi (Nat.ne_of_gt (h.used y e' hy))
    · exact absurd hi (Nat.ne_of_lt (h.used x e hx))
    · exact h.apart x y e e' hx hy hi
  · rcases made_tmp he with ⟨rfl, rfl⟩ | he
    · exact Nat.lt_succ_self _
    · exact Nat.lt_succ_of_lt (h.used x e he)
  · rcases made_folder hD with ⟨rfl, rfl⟩ | hD
    · exact Nat.lt_succ_self _
    · exact Nat.lt_succ_of_lt (h.known d D hD)
  · rcases made_folder hD with ⟨rfl, rfl⟩ | hD
    · cases hx
    · exact Nat.lt_succ_of_lt (h.file d D name x hD hs hx)
  · rcases made_folder hD with ⟨rfl, rfl⟩ | hD
    · cases hx
    · rcases made_folder hD' with ⟨rfl, rfl⟩ | hD'
      · cases hx'
      · exact h.inj d D name d' D' name' x hD hs hD' hs' hx hx'
  · obtain ⟨d, hd⟩ := h.up p hp
    exact ⟨d, made_tmp_keep hfree hd⟩
  · obtain ⟨hp, d, D, hd, hD, hx⟩ := h.opened p v x hm
    exact ⟨hp, d, D, made_tmp_keep hfree hd, (made_folder_keep (h.known d D hD)).trans hD, hx⟩

end

/-! ### What is there changes -/

/-- Somebody else removes an entry of theirs. -/
theorem Ns.Kept.drops (h : s.Kept Es uid) {path : Bytes} {u : Nat} (hu : ¬ Serves uid u)
    (hown : (s.tmp path).map Entry.uid = some u) :
    Ns.Kept Es uid { s with tmp := Function.update s.tmp path none } := by
  have hentry : ∀ x e, Function.update s.tmp path none x = some e → s.tmp x = some e := by
    intro x e he
    by_cases hx : x = path
    · rw [hx, Function.update_self] at he; cases he
    · rwa [Function.update_of_ne hx] at he
  have hkeep : ∀ p d, s.tmp (dirOf Es p) = some ⟨d, .dir, uid p⟩ →
      Function.update s.tmp path none (dirOf Es p) = some ⟨d, .dir, uid p⟩ := by
    intro p d hd
    have hx : dirOf Es p ≠ path := by
      intro hh
      subst hh
      rw [hd, Option.map_some, Option.some.injEq] at hown
      exact hu ⟨p, hown⟩
    rw [Function.update_of_ne hx]
    exact hd
  refine ⟨fun x e he => h.folder x e (hentry x e he), fun x y e e' he he' =>
    h.apart x y e e' (hentry x e he) (hentry y e' he'), fun x e he => h.used x e (hentry x e he),
    h.known, h.file, h.inj, fun p hp => ?_, fun p v x hm => ?_⟩
  · obtain ⟨d, hd⟩ := h.up p hp
    exact ⟨d, hkeep p d hd⟩
  · obtain ⟨hp, d, D, hd, hrest⟩ := h.opened p v x hm
    exact ⟨hp, d, D, hkeep p d hd, hrest⟩

/-- A directory gets other files: a server's own keeps what it has, and gets at
most one, with a new inode. -/
theorem Ns.Kept.writes (h : s.Kept Es uid) {d : Nat} {D : Folder} (hD : s.folders d = some D)
    {files : Bytes → Option Nat} {m : Nat} (hm : s.fresh ≤ m)
    (hkeep : Serves uid D.uid → ∀ name x, D.files name = some x → files name = some x)
    (hnew : Serves uid D.uid → ∀ name x, files name = some x →
      D.files name = some x ∨ (x = s.fresh ∧ s.fresh < m))
    (hone : Serves uid D.uid → ∀ name name', files name = some s.fresh →
      files name' = some s.fresh → name = name') :
    Ns.Kept Es uid { s with
      folders := Function.update s.folders d (some { D with files }), fresh := m } := by
  have hfolder : ∀ d' D', Function.update s.folders d (some { D with files }) d' = some D' →
      (d' = d ∧ D' = { D with files }) ∨ (d' ≠ d ∧ s.folders d' = some D') := by
    intro d' D' hD'
    by_cases hd : d' = d
    · subst hd
      rw [Function.update_self, Option.some.injEq] at hD'
      exact .inl ⟨rfl, hD'.symm⟩
    · rw [Function.update_of_ne hd] at hD'
      exact .inr ⟨hd, hD'⟩
  refine ⟨fun x e he hk => ?_, h.apart, fun x e he => Nat.lt_of_lt_of_le (h.used x e he) hm,
    fun d' D' hD' => ?_, fun d' D' name x hD' hs hx => ?_,
    fun d₁ D₁ n₁ d₂ D₂ n₂ x h₁ s₁ h₂ s₂ hx₁ hx₂ => ?_, h.up, fun p v x hmem => ?_⟩
  · obtain ⟨D', hD', hu⟩ := h.folder x e he hk
    by_cases hd : e.ino = d
    · rw [hd, hD, Option.some.injEq] at hD'
      subst hD'
      exact ⟨{ D with files }, by simp only [hd, Function.update_self], hu⟩
    · exact ⟨D', by simp only [Function.update_of_ne hd]; exact hD', hu⟩
  · rcases hfolder d' D' hD' with ⟨rfl, -⟩ | ⟨-, hD'⟩
    · exact Nat.lt_of_lt_of_le (h.known _ _ hD) hm
    · exact Nat.lt_of_lt_of_le (h.known _ _ hD') hm
  · rcases hfolder d' D' hD' with ⟨rfl, rfl⟩ | ⟨-, hD'⟩
    · rcases hnew hs name x hx with hx | ⟨rfl, hlt⟩
      · exact Nat.lt_of_lt_of_le (h.file _ _ name x hD hs hx) hm
      · exact hlt
    · exact Nat.lt_of_lt_of_le (h.file _ _ name x hD' hs hx) hm
  · rcases hfolder d₁ D₁ h₁ with ⟨rfl, rfl⟩ | ⟨-, f₁⟩ <;>
      rcases hfolder d₂ D₂ h₂ with ⟨hd, rfl⟩ | ⟨-, f₂⟩
    · refine ⟨hd.symm, ?_⟩
      rcases hnew s₁ n₁ x hx₁ with hx | ⟨rfl, -⟩
      · rcases hnew s₂ n₂ x hx₂ with hx' | ⟨rfl, -⟩
        · exact (h.inj _ _ n₁ _ _ n₂ x hD s₁ hD s₂ hx hx').2
        · exact absurd (h.file _ _ n₁ _ hD s₁ hx) (Nat.lt_irrefl _)
      · exact hone s₁ n₁ n₂ hx₁ hx₂
    · rcases hnew s₁ n₁ x hx₁ with hx | ⟨rfl, -⟩
      · exact h.inj _ _ n₁ _ _ n₂ x hD s₁ f₂ s₂ hx hx₂
      · exact absurd (h.file _ _ n₂ _ f₂ s₂ hx₂) (Nat.lt_irrefl _)
    · subst hd
      rcases hnew s₂ n₂ x hx₂ with hx | ⟨rfl, -⟩
      · exact h.inj _ _ n₁ _ _ n₂ x f₁ s₁ hD s₂ hx₁ hx
      · exact absurd (h.file _ _ n₁ _ f₁ s₁ hx₁) (Nat.lt_irrefl _)
    · exact h.inj _ _ n₁ _ _ n₂ x f₁ s₁ f₂ s₂ hx₁ hx₂
  · obtain ⟨hp, d', D', hd', hD', hx⟩ := h.opened p v x hmem
    refine ⟨hp, d', ?_⟩
    by_cases hdd : d' = d
    · subst hdd
      rw [hD, Option.some.injEq] at hD'
      subst hD'
      obtain ⟨D', hD', hu⟩ := h.folder _ _ hd' rfl
      rw [hD, Option.some.injEq] at hD'
      subst hD'
      exact ⟨{ D with files }, hd', by simp only [Function.update_self],
        hkeep ⟨p, hu.symm⟩ _ _ hx⟩
    · exact ⟨D', hd', by simp only [Function.update_of_ne hdd]; exact hD', hx⟩

/-- A lockfile that was not there. -/
theorem Ns.Kept.creates (h : s.Kept Es uid) {d : Nat} {D : Folder} (hD : s.folders d = some D)
    {base : Bytes} (hnone : D.files base = none) :
    Ns.Kept Es uid { s with
      folders := Function.update s.folders d
        (some { D with files := Function.update D.files base (some s.fresh) })
      fresh := s.fresh + 1 } := by
  refine h.writes hD (Nat.le_succ s.fresh) (fun _ name x hx => ?_) (fun _ name x hx => ?_)
    (fun hs name name' hx hx' => ?_)
  · have hne : name ≠ base := by
      intro hh
      rw [hh, hnone] at hx
      cases hx
    rw [Function.update_of_ne hne]
    exact hx
  · by_cases hne : name = base
    · rw [hne, Function.update_self, Option.some.injEq] at hx
      exact .inr ⟨hx.symm, Nat.lt_succ_self _⟩
    · rw [Function.update_of_ne hne] at hx
      exact .inl hx
  · have hfresh : ∀ name, Function.update D.files base (some s.fresh) name = some s.fresh →
        name = base := by
      intro name hx
      by_contra hne
      rw [Function.update_of_ne hne] at hx
      exact absurd (h.file d D name _ hD hs hx) (Nat.lt_irrefl _)
    rw [hfresh name hx, hfresh name' hx']

/-- A server that is up opens a lockfile that is in its directory. -/
theorem Ns.Kept.opens (h : s.Kept Es uid) {p : Fin k} {u : Bytes} {x d : Nat} {D : Folder}
    (hp : s.pcs p = .up) (hd : s.tmp (dirOf Es p) = some ⟨d, .dir, uid p⟩)
    (hD : s.folders d = some D) (hx : D.files (lockBase (Es p) u) = some x) :
    Ns.Kept Es uid { s with opened := s.opened ++ [(p, u, x)] } := by
  refine ⟨h.folder, h.apart, h.used, h.known, h.file, h.inj, h.up, fun q v y hm => ?_⟩
  rcases List.mem_append.mp hm with hm | hm
  · exact h.opened q v y hm
  · simp only [List.mem_singleton, Prod.mk.injEq] at hm
    obtain ⟨rfl, rfl, rfl⟩ := hm
    exact ⟨hp, d, D, hd, hD, hx⟩

theorem kept_call {p : Fin k} {ok : Bool} (h : s.Kept Es uid)
    (hst : s.call Es uid p ok = some s') : s'.Kept Es uid := by
  unfold Ns.call at hst
  split at hst
  · rename_i hpc
    cases hst
    exact h.goes (by rw [hpc]; simp) (by split <;> simp)
  · rename_i hpc
    split at hst
    · cases hst
      exact h.goes (by rw [hpc]; simp) (by simp)
    · split at hst
      · cases hst
        exact h.goes (by rw [hpc]; simp) (by simp)
      · rename_i hfree
        cases hst
        exact (h.makes hfree).goes (by simp [Ns.made, hpc]) fun _ => ⟨s.fresh, by simp [Ns.made]⟩
  · rename_i hpc
    split at hst
    · rename_i e he
      cases hst
      refine h.goes (by rw [hpc]; simp) fun hup => ?_
      split at hup
      · rename_i hown
        obtain ⟨ino, kind, u⟩ := e
        obtain ⟨hk, hu⟩ := hown
        simp only at hk hu
        subst hk hu
        exact ⟨ino, he⟩
      · cases hup
    · cases hst
      exact h.goes (by rw [hpc]; simp) (by simp)
  · cases hst
  · cases hst

theorem kept_lock {p : Fin k} {uri : Bytes} (h : s.Kept Es uid)
    (hst : s.lock Es p uri = some s') : s'.Kept Es uid := by
  unfold Ns.lock at hst
  simp only at hst
  split at hst
  case isFalse => cases hst
  rename_i hpc
  obtain ⟨hup, -⟩ := hpc
  obtain ⟨d, hd⟩ := h.up p hup
  obtain ⟨D, hD, hu⟩ := h.folder _ _ hd rfl
  simp only at hD hu
  simp only [hd, Option.bind_some, Entry.resolve, hD, Option.map_some, Option.some.injEq] at hst
  subst hst
  split
  · rename_i x hx
    exact h.opens hup hd hD hx
  · rename_i hnone
    refine (h.creates hD hnone).opens hup hd (Function.update_self d _ _) ?_
    simp only [Function.update_self]

theorem kept_step {e : NsEv k} (h : s.Kept Es uid) (hst : s.step Es uid e = some s') :
    s'.Kept Es uid := by
  cases e with
  | call p ok => exact kept_call h hst
  | lock p uri => exact kept_lock h hst
  | make u path kind =>
    simp only [Ns.step] at hst
    split at hst
    · cases hst
    · rename_i hc
      cases hst
      exact h.makes (by simpa using fun hs => hc (.inr hs))
  | drop u path =>
    simp only [Ns.step] at hst
    split at hst
    · cases hst
    · rename_i hc
      cases hst
      exact h.drops (fun hs => hc (.inl hs)) (by by_contra hne; exact hc (.inr hne))
  | edit u d name x =>
    simp only [Ns.step] at hst
    split at hst
    · cases hst
    · rename_i D hD
      split at hst
      · cases hst
      · rename_i hc
        cases hst
        have hu : D.uid = u := by by_contra hne; exact hc (.inr hne)
        have hn : ¬ Serves uid D.uid := by rw [hu]; exact fun hs => hc (.inl hs)
        exact h.writes hD (Nat.le_refl _) (fun hs => absurd hs hn) (fun hs => absurd hs hn)
          (fun hs => absurd hs hn)

/-- Two opened lockfiles are one inode exactly when they have one path. -/
theorem Ns.Kept.one_path (h : s.Kept Es uid) {p q : Fin k} {u v : Bytes} {x y : Nat}
    (hp : (p, u, x) ∈ s.opened) (hq : (q, v, y) ∈ s.opened) :
    x = y ↔ (Es p).lockOf u = (Es q).lockOf v := by
  obtain ⟨-, d, D, hd, hD, hx⟩ := h.opened p u x hp
  obtain ⟨-, d', D', hd', hD', hy⟩ := h.opened q v y hq
  obtain ⟨D₁, hD₁, hu⟩ := h.folder _ _ hd rfl
  obtain ⟨D₂, hD₂, hu'⟩ := h.folder _ _ hd' rfl
  simp only [hD, hD', Option.some.injEq] at hD₁ hD₂
  subst hD₁ hD₂
  rw [lockOf_inj]
  constructor
  · intro hxy
    subst hxy
    obtain ⟨rfl, hname⟩ := h.inj d D _ d' D' _ x hD ⟨p, hu.symm⟩ hD' ⟨q, hu'.symm⟩ hx hy
    exact ⟨h.apart _ _ _ _ hd hd' rfl, hname⟩
  · intro hpath
    obtain ⟨hdir, hname⟩ := hpath
    have hdir' : dirOf Es p = dirOf Es q := hdir
    rw [hdir', hd', Option.some.injEq, Entry.mk.injEq] at hd
    obtain ⟨rfl, -⟩ := hd
    rw [hD', Option.some.injEq] at hD
    subst hD
    rw [hname, hy, Option.some.injEq] at hx
    exact hx.symm

end

/-- **The lock namespace.** Whatever other users do in `/tmp` and when, before,
between and after the calls of `lockdir_init`: a server that has come up has,
from then on, a real directory of its own user under the name of its lock
directory; two lockfiles that any two servers ever opened are one inode exactly
when they have one path; so among threads that hold any of them, `flock`
decides on the inodes as the lock table of `L5Concurrency` does on the
paths. -/
theorem lock_namespace (Es : Fin k → Env) (uid : Fin k → Nat) (s : Ns k)
    (hs : (lockNamespace Es uid).Reachable s) :
    (∀ p, s.pcs p = .up → ∃ d, s.tmp (dirOf Es p) = some ⟨d, .dir, uid p⟩) ∧
    (∀ p u x q v y, (p, u, x) ∈ s.opened → (q, v, y) ∈ s.opened →
      (x = y ↔ (Es p).lockOf u = (Es q).lockOf v)) ∧
    ∀ (n : Nat) (held : Fin n → Option ((Fin k × Bytes × Nat) × Mode)),
      (∀ i f m, held i = some (f, m) → f ∈ s.opened) → ∀ f ∈ s.opened, ∀ i m,
      (Free (fun j => (held j).map fun h => (h.1.2.2, h.2)) i f.2.2 m ↔
        Free (fun j => (held j).map fun h => ((Es h.1.1).lockOf h.1.2.1, h.2)) i
          ((Es f.1).lockOf f.2.1) m) := by
  have hI : (lockNamespace Es uid).Inductive (Ns.Kept Es uid) := by
    refine ⟨?_, fun s e s' h hst => kept_step h hst⟩
    intro s hh
    subst hh
    refine ⟨?_, ?_, ?_, ?_, ?_, ?_, ?_, ?_⟩ <;> simp [Ns.start]
  have h := hI.reachable s hs
  refine ⟨h.up, fun p u x q v y hp hq => h.one_path hp hq, fun n held hheld f hf i m =>
    free_congr_key (fun j m => ?_) i m⟩
  -- a holder of the inode is a holder of the path
  cases hj : held j with
  | none => simp
  | some g =>
    obtain ⟨⟨q, v, y⟩, m'⟩ := g
    obtain ⟨p, u, x⟩ := f
    have := h.one_path (hheld j _ _ hj) hf
    simp only [Option.map_some, Option.some.injEq, Prod.mk.injEq, this]

/-- A link is in the way when the first server calls `mkdir`, and gone when it
calls `lstat`: by then the second server has made the directory. -/
theorem lock_namespace_two : ∃ s,
    (lockNamespace (fun _ : Fin 2 => ⟨[], 1, 2⟩) fun _ => 1000).Reachable s ∧
    s.opened.map (·.2.1) = [ascii "a", ascii "a", ascii "b"] ∧
    ∀ p u x q v y, (p, u, x) ∈ s.opened → (q, v, y) ∈ s.opened →
      (x = y ↔ Env.lockOf ⟨[], 1, 2⟩ u = Env.lockOf ⟨[], 1, 2⟩ v) := by
  have hrun : ((LTS.exec (Ns.step (fun _ : Fin 2 => ⟨[], 1, 2⟩) fun _ => 1000) Ns.start
      [.make 7 (lockDir 1 2) (.link 5), .call 0 true, .call 0 true, .drop 7 (lockDir 1 2),
        .call 1 true, .call 1 true, .call 0 true, .lock 0 (ascii "a"), .lock 1 (ascii "a"),
        .lock 1 (ascii "b")]).map fun s => s.opened) =
      some [(0, ascii "a", 2), (1, ascii "a", 2), (1, ascii "b", 3)] := by decide
  obtain ⟨s, hs, hd⟩ := Option.map_eq_some_iff.mp hrun
  have hr : (lockNamespace (fun _ : Fin 2 => ⟨[], 1, 2⟩) fun _ => 1000).Reachable s :=
    ⟨_, _, rfl, LTS.run_of_exec _ _ _ hs⟩
  exact ⟨s, hr, by rw [hd]; rfl, (lock_namespace _ _ s hr).2.1⟩

end HttpC.L8
