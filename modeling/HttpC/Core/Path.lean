import Mathlib.Data.List.Infix
import HttpC.Core.Bytes

/-!
# Lexical path resolution

POSIX path text, without symbolic links: `/` separates components, empty ones
and `.` are dropped, `..` removes the component in front of it (nothing at the
root), a leading `/` starts at the root. A directory is the list of its
component names. `reduce` is the same computation without a starting
directory: how many levels the text climbs above its start, and the names it
then descends; `resolve_eq` puts the two together.
-/
namespace HttpC.Path

/-- The components of a path text. -/
def comps (u : Bytes) : List Bytes := u.splitOn 47

theorem mem_comps {u c : Bytes} {x : UInt8} (hc : c ∈ comps u) (hx : x ∈ c) : x ∈ u := by
  unfold comps at hc
  induction u generalizing c with
  | nil =>
    simp only [List.splitOn_nil, List.mem_singleton] at hc
    rwa [hc] at hx
  | cons y u ih =>
    rw [List.splitOn_cons_eq_if_modifyHead] at hc
    split at hc
    · rcases List.mem_cons.mp hc with rfl | hc
      · cases hx
      · exact List.mem_cons_of_mem _ (ih hc hx)
    · obtain ⟨l, ls, hls⟩ := List.exists_cons_of_ne_nil (List.splitOn_ne_nil 47 u)
      rw [hls] at ih hc
      rcases List.mem_cons.mp hc with rfl | hc
      · rcases List.mem_cons.mp hx with rfl | hx
        · exact List.mem_cons_self
        · exact List.mem_cons_of_mem _ (ih List.mem_cons_self hx)
      · exact List.mem_cons_of_mem _ (ih (List.mem_cons_of_mem _ hc) hx)

def isAbsolute (u : Bytes) : Bool := u.head? == some 47

/-- One component, from directory `p`. -/
def walk (p : List Bytes) (c : Bytes) : List Bytes :=
  if c = [] ∨ c = [46] then p else if c = [46, 46] then p.dropLast else p ++ [c]

/-- What `u` names, for a process in directory `cwd`. -/
def resolve (cwd : List Bytes) (u : Bytes) : List Bytes :=
  (comps u).foldl walk (if isAbsolute u then [] else cwd)

/-- A path text, reduced: climb `ups` levels, then descend `names`. -/
structure Reduced where
  ups : Nat
  names : List Bytes
  deriving DecidableEq, Repr

def Reduced.walk (r : Reduced) (c : Bytes) : Reduced :=
  if c = [] ∨ c = [46] then r
  else if c = [46, 46] then
    if r.names = [] then { r with ups := r.ups + 1 } else { r with names := r.names.dropLast }
  else { r with names := r.names ++ [c] }

def reduce (u : Bytes) : Reduced := (comps u).foldl Reduced.walk ⟨0, []⟩

/-- The directory a reduced path names from `base`. -/
def Reduced.place (r : Reduced) (base : List Bytes) : List Bytes :=
  base.take (base.length - r.ups) ++ r.names

theorem Reduced.place_walk (r : Reduced) (base : List Bytes) (c : Bytes) :
    (r.walk c).place base = Path.walk (r.place base) c := by
  unfold Reduced.walk Path.walk Reduced.place
  split
  · rfl
  · split
    · by_cases h : r.names = []
      · simp only [h, if_true, List.append_nil, List.dropLast_eq_take, List.length_take,
          List.take_take]
        congr 1; omega
      · simp only [h, if_false]
        rw [List.dropLast_append_of_ne_nil h]
    · simp

theorem foldl_walk (cs : List Bytes) (r : Reduced) (base : List Bytes) :
    cs.foldl Path.walk (r.place base) = (cs.foldl Reduced.walk r).place base := by
  induction cs generalizing r with
  | nil => rfl
  | cons c cs ih => rw [List.foldl_cons, List.foldl_cons, ← r.place_walk base c, ih]

/-- **Resolution is reduction, placed.** -/
theorem resolve_eq (cwd : List Bytes) (u : Bytes) :
    resolve cwd u = (reduce u).place (if isAbsolute u then [] else cwd) := by
  rw [resolve, reduce, ← foldl_walk]
  simp [Reduced.place]

/-- `base` lies on the way down from where `r` climbed to: `r` re-enters it. -/
def Reduced.reenters (r : Reduced) (base : List Bytes) : List Bytes :=
  base.drop (base.length - r.ups)

theorem Reduced.inside_iff (r : Reduced) (base : List Bytes) :
    base <+: r.place base ↔ r.reenters base <+: r.names := by
  unfold Reduced.place Reduced.reenters
  nth_rewrite 1 [← List.take_append_drop (base.length - r.ups) base]
  exact List.prefix_append_right_inj _

end HttpC.Path
