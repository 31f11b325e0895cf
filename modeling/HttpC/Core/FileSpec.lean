import Mathlib.Logic.Function.Basic
import HttpC.Core.Bytes

/-!
# What a file server is for

One operation at a time on a map of named files: GET returns a content or that
there is none, PUT stores one and says whether it was the first. `replay` runs
a list of operations. This is the sequential meaning a concurrent server's log
is held against; operations and answers depend on one file only
(`apply_other`, `apply_file`).
-/
namespace HttpC.Spec

variable {κ : Type}

inductive Op (κ : Type) where
  | get (file : κ)
  | put (file : κ) (body : Bytes)
  deriving DecidableEq, Repr

inductive Reply where
  | content (c : Bytes) | notFound | ok | created
  deriving DecidableEq, Repr

def Op.file : Op κ → κ
  | .get f => f
  | .put f _ => f

/-- The answer, from what the file holds. -/
def Op.reply : Op κ → Option Bytes → Reply
  | .get _, some c => .content c
  | .get _, none => .notFound
  | .put _ _, some _ => .ok
  | .put _ _, none => .created

/-- What the file holds afterwards. -/
def Op.after : Op κ → Option Bytes → Option Bytes
  | .get _, g => g
  | .put _ body, _ => some body

variable [DecidableEq κ]

def Op.apply (o : Op κ) (m : κ → Option Bytes) : κ → Option Bytes :=
  Function.update m o.file (o.after (m o.file))

def replay (m : κ → Option Bytes) (ops : List (Op κ)) : κ → Option Bytes :=
  ops.foldl (fun m o => o.apply m) m

@[simp] theorem apply_file (o : Op κ) (m : κ → Option Bytes) :
    o.apply m o.file = o.after (m o.file) := by simp [Op.apply]

theorem apply_other (o : Op κ) (m : κ → Option Bytes) {f : κ} (h : f ≠ o.file) :
    o.apply m f = m f := by simp [Op.apply, h]

theorem replay_snoc (m : κ → Option Bytes) (ops : List (Op κ)) (o : Op κ) :
    replay m (ops ++ [o]) = o.apply (replay m ops) := by simp [replay]

end HttpC.Spec
