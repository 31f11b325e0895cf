import Mathlib.Logic.Function.Basic
import HttpC.Core.Path

/-!
# A tree of files and directories

What `open(2)` and `access(2)` say of a path, for one user and without
symbolic links. A node carries what this user may do with it. Every component
of a path is looked up in the directory reached so far, which must be there
(`noEntry`), be a directory (`notDir`) and be searchable (`denied`); a path
that gets through names what its text resolves to (`locate_eq`). A trailing
`/` asks for a directory, and with `O_CREAT` only a plain last component names
a file.

`locate_touch`: a new file changes nothing for paths that do not ask for it by
its name.
-/
namespace HttpC.FileSys

inductive Node where
  | file (content : Bytes) (r w : Bool)
  | dir (r w x : Bool)
  deriving DecidableEq, Repr

inductive Fail where
  | noEntry | denied | isDir | notDir
  deriving DecidableEq, Repr

/-- What an `open` asks for. -/
inductive Access where
  | read | write
  deriving DecidableEq, Repr

def Node.isDir : Node → Bool
  | .file .. => false
  | .dir .. => true

def Node.allows : Node → Access → Bool
  | .file _ r _, .read | .dir r _ _, .read => r
  | .file _ _ w, .write | .dir _ w _, .write => w

/-- What reading it gives. -/
def Node.content : Node → Bytes
  | .file c _ _ => c
  | .dir .. => []

/-- There is a root, and whatever there is lies in a directory. -/
structure Tree where
  node : List Bytes → Option Node
  root : node [] ≠ none
  parent : ∀ p n, node p = some n → ∃ d, node p.dropLast = some d ∧ d.isDir = true

/-- The components that are looked up. -/
def names (u : Bytes) : List Bytes := (Path.comps u).filter (· ≠ [])

def slashed (u : Bytes) : Bool := u.getLast? == some 47

def start (cwd : List Bytes) (u : Bytes) : List Bytes := if Path.isAbsolute u then [] else cwd

/-- A last component that can name a file. -/
def plainLast (u : Bytes) : Bool :=
  match (names u).getLast? with
  | none => false
  | some c => c ≠ [46] && c ≠ [46, 46] && !slashed u

namespace Tree
variable (σ : Tree)

/-- Component `c`, from `p`. -/
def look (p : List Bytes) (c : Bytes) : Except Fail (List Bytes) :=
  match σ.node p with
  | none => .error .noEntry
  | some (.file ..) => .error .notDir
  | some (.dir _ _ x) => if x then .ok (Path.walk p c) else .error .denied

def reach : List Bytes → List Bytes → Except Fail (List Bytes)
  | p, [] => .ok p
  | p, c :: cs =>
    match σ.look p c with
    | .error e => .error e
    | .ok q => reach q cs

/-- The place a path text names. -/
def locate (cwd : List Bytes) (u : Bytes) : Except Fail (List Bytes) :=
  σ.reach (start cwd u) (names u)

/-- `open(u, O_RDONLY)` -/
def openRead (cwd : List Bytes) (u : Bytes) : Except Fail Node :=
  match σ.locate cwd u with
  | .error e => .error e
  | .ok p =>
    match σ.node p with
    | none => .error .noEntry
    | some n =>
      if slashed u ∧ n.isDir = false then .error .notDir
      else if n.allows .read then .ok n
      else .error .denied

/-- `open(u, O_CREAT | a)`: the file that is open then. -/
def openCreate (a : Access) (cwd : List Bytes) (u : Bytes) : Except Fail (List Bytes) :=
  match σ.locate cwd u with
  | .error e => .error e
  | .ok p =>
    if plainLast u = false then .error .isDir
    else
      match σ.node p with
      | some n =>
        if n.isDir then .error .isDir else if n.allows a then .ok p else .error .denied
      | none =>
        if (σ.node p.dropLast).any (·.allows .write) then .ok p else .error .denied

/-- `access(u, F_OK) == 0` -/
def exists_ (cwd : List Bytes) (u : Bytes) : Bool :=
  match σ.locate cwd u with
  | .error _ => false
  | .ok p => (σ.node p).any fun n => n.isDir || !slashed u

/-- What there is to read at each path. -/
def files (p : List Bytes) : Option Bytes := (σ.node p).map Node.content

/-- The file `O_CREAT` makes where there is none, with mode 0600. -/
def touch (p : List Bytes) : Tree :=
  if h : σ.node p = none ∧ (σ.node p.dropLast).any (·.isDir) then
    { node := Function.update σ.node p (some (.file [] true true))
      root := by
        have hp : p ≠ [] := fun he => σ.root (he ▸ h.1)
        rw [Function.update_of_ne hp.symm]
        exact σ.root
      parent := by
        intro q n hq
        have hdir : ∀ d, σ.node q.dropLast = some d → q.dropLast ≠ p := by
          intro d hd he
          rw [he, h.1] at hd
          cases hd
        by_cases hqp : q = p
        · obtain ⟨d, hd, hdd⟩ := (Option.any_eq_true _ _).mp h.2
          rw [← hqp] at hd
          exact ⟨d, by rw [Function.update_of_ne (hdir d hd)]; exact hd, hdd⟩
        · rw [Function.update_of_ne hqp] at hq
          obtain ⟨d, hd, hdd⟩ := σ.parent q n hq
          exact ⟨d, by rw [Function.update_of_ne (hdir d hd)]; exact hd, hdd⟩ }
  else σ

/-! ## Lookups -/

section
variable {σ : Tree} {p q cwd : List Bytes} {cs : List Bytes} {u : Bytes}

theorem look_ok {c : Bytes} (h : σ.look p c = .ok q) :
    q = Path.walk p c ∧ ∃ d, σ.node p = some d ∧ d.isDir = true := by
  unfold look at h
  split at h
  · cases h
  · cases h
  · rename_i r w x hn
    split at h
    · cases h
      exact ⟨rfl, _, hn, rfl⟩
    · cases h

theorem reach_eq (h : σ.reach p cs = .ok q) : q = cs.foldl Path.walk p := by
  induction cs generalizing p with
  | nil => cases h; rfl
  | cons c cs ih =>
    simp only [reach] at h
    split at h
    · cases h
    · rename_i p' hl
      rw [ih h, (look_ok hl).1, List.foldl_cons]

theorem reach_append (cs ds : List Bytes) :
    σ.reach p (cs ++ ds) = (σ.reach p cs).bind fun q => σ.reach q ds := by
  induction cs generalizing p with
  | nil => rfl
  | cons c cs ih =>
    simp only [List.cons_append, reach]
    split
    · rfl
    · exact ih

/-- Empty components walk nowhere. -/
theorem foldl_walk_filter (cs : List Bytes) (p : List Bytes) :
    (cs.filter (· ≠ [])).foldl Path.walk p = cs.foldl Path.walk p := by
  induction cs generalizing p with
  | nil => rfl
  | cons c cs ih =>
    by_cases hc : c = []
    · subst hc
      simp [Path.walk, ← ih]
    · rw [List.filter_cons_of_pos (by simpa using hc), List.foldl_cons, List.foldl_cons, ih]

/-- **A path names what its text resolves to.** -/
theorem locate_eq (h : σ.locate cwd u = .ok p) : p = Path.resolve cwd u := by
  rw [reach_eq h, names, foldl_walk_filter]
  rfl

theorem names_flat (hs : (47 : UInt8) ∉ u) (hu : u ≠ []) : names u = [u] := by
  rw [names, Path.comps, List.splitOn_eq_singleton hs]
  simp [hu]

theorem start_flat (cwd : List Bytes) (hs : (47 : UInt8) ∉ u) : start cwd u = cwd := by
  cases u with
  | nil => rfl
  | cons x xs =>
    have hx : x ≠ 47 := fun he => hs (by rw [he]; exact List.mem_cons_self)
    simp [start, Path.isAbsolute, hx]

/-- What a path names lies in a directory, there or not. -/
theorem reach_parent (hp : ∃ d, σ.node p.dropLast = some d ∧ d.isDir = true)
    (h : σ.reach p cs = .ok q) : ∃ d, σ.node q.dropLast = some d ∧ d.isDir = true := by
  induction cs generalizing p with
  | nil => cases h; exact hp
  | cons c cs ih =>
    simp only [reach] at h
    split at h
    · cases h
    · rename_i p' hl
      obtain ⟨rfl, d, hd, hdd⟩ := look_ok hl
      refine ih ?_ h
      unfold Path.walk
      split
      · exact hp
      · split
        · obtain ⟨d', hd', -⟩ := hp
          exact σ.parent _ d' hd'
        · rw [List.dropLast_concat]
          exact ⟨d, hd, hdd⟩

theorem locate_parent (hcwd : ∃ d, σ.node cwd = some d) (h : σ.locate cwd u = .ok p) :
    ∃ d, σ.node p.dropLast = some d ∧ d.isDir = true := by
  refine reach_parent ?_ h
  unfold start
  split
  · obtain ⟨d, hd⟩ := Option.ne_none_iff_exists'.mp σ.root
    exact σ.parent _ d hd
  · obtain ⟨d, hd⟩ := hcwd
    exact σ.parent _ d hd

/-! ## A new file -/

variable {L : List Bytes}

theorem touch_node (h : σ.node L = none) (hd : (σ.node L.dropLast).any (·.isDir)) :
    (σ.touch L).node = Function.update σ.node L (some (.file [] true true)) := by
  rw [touch, dif_pos ⟨h, hd⟩]

theorem touch_of_some (h : σ.node L ≠ none) : σ.touch L = σ := by
  rw [touch, dif_neg (fun hc => h hc.1)]

/-- Nothing there changes. -/
theorem touch_other (h : p ≠ L) : (σ.touch L).node p = σ.node p := by
  unfold touch
  split
  · exact Function.update_of_ne h _ _
  · rfl

/-- A walk from a directory does not come by a place where nothing is, except
under its name. -/
theorem walk_ne {c : Bytes} (hL : σ.node L = none) (hp : ∃ d, σ.node p = some d)
    (hc : L ≠ p ++ [c]) : Path.walk p c ≠ L := by
  obtain ⟨d, hd⟩ := hp
  unfold Path.walk
  split
  · intro h
    subst h
    rw [hL] at hd; cases hd
  · split
    · intro h
      subst h
      obtain ⟨d', hd', -⟩ := σ.parent p d hd
      rw [hL] at hd'; cases hd'
    · exact hc.symm

/-- No lookup along `cs` asks for `L` by its name. -/
def Avoids (σ : Tree) (p cs L : List Bytes) : Prop :=
  ∀ a c b q, cs = a ++ c :: b → σ.reach p a = .ok q → q ++ [c] ≠ L

theorem avoids_of_name (h : ∀ c ∈ cs, L.getLast? ≠ some c) : σ.Avoids p cs L := by
  intro a c b q hh _ hx
  subst hh
  subst hx
  exact h c (by simp) (by simp)

theorem avoids_singleton {c : Bytes} (h : p ++ [c] ≠ L) : σ.Avoids p [c] L := by
  intro a c' b q he hq
  obtain ⟨rfl, he'⟩ | ⟨l, rfl, he'⟩ := List.cons_eq_append_iff.mp he
  · cases he'
    cases hq
    exact h
  · simp at he'

theorem reach_touch (hL : σ.node L = none) (hp : p ≠ L) (hcs : σ.Avoids p cs L) :
    (σ.touch L).reach p cs = σ.reach p cs ∧ (∀ q, σ.reach p cs = .ok q → q ≠ L) := by
  induction cs generalizing p with
  | nil =>
    refine ⟨rfl, fun q hq => ?_⟩
    cases hq
    exact hp
  | cons c cs ih =>
    have hlook : (σ.touch L).look p c = σ.look p c := by
      unfold look
      rw [touch_other hp]
    simp only [reach, hlook]
    cases hl : σ.look p c with
    | error e => exact ⟨rfl, fun q hq => by cases hq⟩
    | ok p' =>
      obtain ⟨rfl, d, hd, -⟩ := look_ok hl
      refine ih (walk_ne hL ⟨d, hd⟩ (hcs [] c cs p rfl rfl).symm) ?_
      intro a c' b q he hq
      apply hcs (c :: a) c' b q (by rw [he]; rfl)
      simp only [reach, hl, hq]

/-- **A new file is seen by its name only.** -/
theorem locate_touch (hL : σ.node L = none) (hcwd : ∃ d, σ.node cwd = some d)
    (hu : σ.Avoids (start cwd u) (names u) L) :
    (σ.touch L).locate cwd u = σ.locate cwd u ∧ (∀ q, σ.locate cwd u = .ok q → q ≠ L) := by
  refine reach_touch hL ?_ hu
  unfold start
  split
  · intro h
    subst h
    exact σ.root hL
  · intro h
    subst h
    obtain ⟨d, hd⟩ := hcwd
    rw [hL] at hd; cases hd

theorem openRead_touch (hL : σ.node L = none) (hcwd : ∃ d, σ.node cwd = some d)
    (hu : σ.Avoids (start cwd u) (names u) L) :
    (σ.touch L).openRead cwd u = σ.openRead cwd u := by
  obtain ⟨h1, h2⟩ := locate_touch hL hcwd hu
  unfold openRead
  rw [h1]
  cases hl : σ.locate cwd u with
  | error e => rfl
  | ok q => simp only [touch_other (h2 q hl)]

theorem openCreate_touch (a : Access) (hL : σ.node L = none) (hcwd : ∃ d, σ.node cwd = some d)
    (hu : σ.Avoids (start cwd u) (names u) L) :
    (σ.touch L).openCreate a cwd u = σ.openCreate a cwd u := by
  obtain ⟨h1, h2⟩ := locate_touch hL hcwd hu
  unfold openCreate
  rw [h1]
  cases hl : σ.locate cwd u with
  | error e => rfl
  | ok q =>
    have hpar : q.dropLast ≠ L := by
      intro h
      subst h
      obtain ⟨d, hd, -⟩ := locate_parent hcwd hl
      rw [hL] at hd; cases hd
    simp only [touch_other (h2 q hl), touch_other hpar]

theorem exists_touch (hL : σ.node L = none) (hcwd : ∃ d, σ.node cwd = some d)
    (hu : σ.Avoids (start cwd u) (names u) L) :
    (σ.touch L).exists_ cwd u = σ.exists_ cwd u := by
  obtain ⟨h1, h2⟩ := locate_touch hL hcwd hu
  unfold exists_
  rw [h1]
  cases hl : σ.locate cwd u with
  | error e => rfl
  | ok q => simp only [touch_other (h2 q hl)]

theorem openCreate_ok {a : Access} (h : σ.openCreate a cwd u = .ok p) :
    σ.locate cwd u = .ok p ∧ plainLast u = true := by
  unfold openCreate at h
  split at h
  · cases h
  · rename_i q hq
    split at h
    · cases h
    · rename_i hplain
      refine ⟨?_, by simpa using hplain⟩
      rw [hq]
      split at h
      · split at h
        · cases h
        · split at h
          · cases h; rfl
          · cases h
      · split at h
        · cases h; rfl
        · cases h

/-- `access` finds what `O_CREAT` opens. -/
theorem openCreate_exists {a : Access} (h : σ.openCreate a cwd u = .ok p) (hp : σ.node p ≠ none) :
    σ.exists_ cwd u = true := by
  obtain ⟨hl, hplain⟩ := openCreate_ok h
  have hs : slashed u = false := by
    unfold plainLast at hplain
    split at hplain
    · cases hplain
    · simp only [Bool.and_eq_true, Bool.not_eq_true'] at hplain
      exact hplain.2
  obtain ⟨n, hn⟩ := Option.ne_none_iff_exists'.mp hp
  simp [exists_, hl, hn, hs]

/-! ## A file in a usable directory -/

/-- `dir` leads to `D`, where files may be made. -/
structure Usable (σ : Tree) (cwd : List Bytes) (dir : Bytes) (D : List Bytes) : Prop where
  nonempty : dir ≠ []
  located : σ.locate cwd dir = .ok D
  node : ∃ r, σ.node D = some (.dir r true true)

variable {D : List Bytes} {dir name : Bytes}

theorem names_child (dir : Bytes) (hs : (47 : UInt8) ∉ name) (hn : name ≠ []) :
    names (dir ++ 47 :: name) = names dir ++ [name] := by
  rw [names, Path.comps, List.splitOn_append_cons_self, List.splitOn_eq_singleton hs,
    List.filter_append]
  simp [names, Path.comps, hn]

theorem slashed_flat (hs : (47 : UInt8) ∉ u) : slashed u = false := by
  have hne : u.getLast? ≠ some 47 := fun he => hs (List.mem_of_getLast? he)
  simpa [slashed] using hne

theorem slashed_child (dir : Bytes) (hs : (47 : UInt8) ∉ name) (hn : name ≠ []) :
    slashed (dir ++ 47 :: name) = false := by
  have hlast : (dir ++ 47 :: name).getLast? = name.getLast? := by
    rw [List.getLast?_append, List.getLast?_cons]
    simp [List.getLast?_eq_some_getLast hn]
  rw [slashed, hlast]
  exact slashed_flat hs

theorem Usable.child (h : Usable σ cwd dir D) (hs : (47 : UInt8) ∉ name) (hn : name ≠ []) :
    σ.locate cwd (dir ++ 47 :: name) = .ok (Path.walk D name) := by
  have hstart : start cwd (dir ++ 47 :: name) = start cwd dir := by
    cases hd : dir with
    | nil => exact absurd hd h.nonempty
    | cons x xs => rfl
  obtain ⟨r, hr⟩ := h.node
  have hl : σ.reach (start cwd dir) (names dir) = .ok D := h.located
  rw [locate, hstart, names_child dir hs hn, reach_append, hl]
  simp only [Except.bind, reach, look, hr, if_true]

/-- A file there can be opened unless something else has its name. -/
theorem Usable.openCreate (h : Usable σ cwd dir D) (a : Access) (hs : (47 : UInt8) ∉ name)
    (hn : name ≠ []) : σ.openCreate a cwd (dir ++ 47 :: name) =
      if name = [46] ∨ name = [46, 46] then .error .isDir
      else
        match σ.node (D ++ [name]) with
        | none => .ok (D ++ [name])
        | some n =>
          if n.isDir then .error .isDir else if n.allows a then .ok (D ++ [name]) else .error .denied := by
  have hplain : plainLast (dir ++ 47 :: name) = !decide (name = [46] ∨ name = [46, 46]) := by
    rw [plainLast, names_child dir hs hn, List.getLast?_concat, slashed_child dir hs hn]
    simp
  rw [Tree.openCreate, h.child hs hn, hplain]
  by_cases hdot : name = [46] ∨ name = [46, 46]
  · simp [hdot]
  · obtain ⟨h1, h2⟩ := not_or.mp hdot
    obtain ⟨r, hr⟩ := h.node
    have hwalk : Path.walk D name = D ++ [name] := by simp [Path.walk, hn, h1, h2]
    simp only [hdot, decide_false, Bool.not_false, Bool.true_eq_false, if_false, hwalk,
      List.dropLast_concat, hr]
    cases σ.node (D ++ [name]) <;> rfl

end

end Tree

end HttpC.FileSys
