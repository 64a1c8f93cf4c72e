import ArgoBbs.Lib.CString
import Mathlib.Logic.Function.Basic

/-! # Directories

Directories by the text of their paths, and what `rename` and `unlink` make of them: a directory is
moved to a path where there is none or an empty one. -/

namespace ArgoBbs

/-- A directory, with a number by which it can be told from another one, and the names in it. -/
structure Directory where
  inode : Nat
  names : List Bytes
  deriving DecidableEq, Repr

abbrev Directories := Bytes → Option Directory

namespace Directories

/-- There is no directory, or an empty one. -/
def free (dirs : Directories) (path : Bytes) : Bool := (dirs path).all fun d => d.names = []

/-- `rename(src, dst)` of directories, which may fail for reasons of its own. -/
def rename (dirs : Directories) (fails : Bool) (src dst : Bytes) : Directories :=
  match dirs src with
  | none => dirs
  | some d =>
    if fails || !dirs.free dst then dirs
    else Function.update (Function.update dirs src none) dst (some d)

/-- `unlink` of a name in a directory. -/
def unlink (dirs : Directories) (path name : Bytes) : Directories :=
  Function.update dirs path ((dirs path).map fun d => { d with names := d.names.erase name })

/-- What was at the first path is at the second one, and there is nothing at the first. -/
def Moved (dirs dirs' : Directories) (src dst : Bytes) : Prop :=
  dirs' src = none ∧ dirs' dst = dirs src

variable {dirs : Directories} {fails : Bool} {src dst path name : Bytes}

theorem rename_of_ne (hsrc : path ≠ src) (hdst : path ≠ dst) :
    dirs.rename fails src dst path = dirs path := by
  rw [rename]
  cases dirs src with
  | none => rfl
  | some d =>
    dsimp only
    split
    · rfl
    · rw [Function.update_of_ne hdst, Function.update_of_ne hsrc]

/-- Only what is at the two paths matters. -/
theorem rename_congr {dirs' : Directories} (hsrc : dirs src = dirs' src)
    (hdst : dirs dst = dirs' dst) (hpath : dirs path = dirs' path) :
    dirs.rename fails src dst path = dirs'.rename fails src dst path := by
  rw [rename, rename, free, free, hsrc, hdst]
  cases dirs' src with
  | none => exact hpath
  | some d =>
    dsimp only
    split
    · exact hpath
    · rcases eq_or_ne path dst with rfl | hne
      · rw [Function.update_self, Function.update_self]
      · rw [Function.update_of_ne hne, Function.update_of_ne hne]
        rcases eq_or_ne path src with rfl | hne'
        · rw [Function.update_self, Function.update_self]
        · rw [Function.update_of_ne hne', Function.update_of_ne hne', hpath]

/-- A directory is moved unless `rename` fails; where there is none, there must be none at the other
path either. -/
theorem moved_rename_iff (hne : src ≠ dst) : Moved dirs (dirs.rename fails src dst) src dst ↔
    if dirs src = none then dirs dst = none else fails = false ∧ dirs.free dst = true := by
  rw [Moved, rename]
  cases hsrc : dirs src with
  | none =>
    dsimp only
    rw [if_pos rfl, hsrc]
    exact and_iff_right rfl
  | some d =>
    dsimp only
    rw [if_neg (Option.some_ne_none d)]
    split
    case isTrue hfails =>
      rw [hsrc]
      refine iff_of_false (fun h => nomatch h.1) fun h => ?_
      rw [h.1, h.2] at hfails
      cases hfails
    case isFalse hok =>
      rw [Function.update_of_ne hne, Function.update_self, Function.update_self]
      rw [Bool.not_eq_true, Bool.or_eq_false_iff, Bool.not_eq_false'] at hok
      exact iff_of_true ⟨rfl, rfl⟩ hok

theorem unlink_of_ne (hpath : path ≠ src) : dirs.unlink src name path = dirs path :=
  Function.update_of_ne hpath _ _

/-- There is a directory at a path just if there is one before a name in it is removed. -/
theorem unlink_eq_none_iff : dirs.unlink src name path = none ↔ dirs path = none := by
  rcases eq_or_ne path src with rfl | hpath
  · rw [unlink, Function.update_self, Option.map_eq_none_iff]
  · rw [unlink_of_ne hpath]

end Directories

end ArgoBbs
