import Mathlib.Algebra.Group.Nat.Defs
import Mathlib.Tactic.Common
set_option autoImplicit false

/-!
Files as a process sees them: the inodes its paths lead to, which of the
permission bits apply to it, and what other processes may do to the files in
the meantime.
-/

namespace PosixFiles

structure Identity where
  euid : Nat
  groups : List Nat
  deriving DecidableEq, Repr

structure Inode where
  mode : Nat
  uid : Nat
  gid : Nat
  content : List UInt8
  deriving DecidableEq, Repr

/-- The one read bit that is looked at: of the owner, the group or the others. -/
def Inode.readBit (who : Identity) (node : Inode) : Nat :=
  if who.euid = node.uid then 0o400 else if node.gid ∈ who.groups then 0o040 else 0o004

/-- Opening for reading is allowed. Nothing is kept from the superuser. -/
def Inode.mayRead (who : Identity) (node : Inode) : Bool :=
  who.euid == 0 || node.readBit who &&& node.mode != 0

/-- The bytes of a path and its NUL together. -/
def PATH_MAX : Nat := 4096

/-- The inodes that paths lead to; no system call takes a longer path. -/
structure Tree where
  lookup : List UInt8 → Option Inode
  short : ∀ p, PATH_MAX ≤ p.length → lookup p = none

theorem Tree.length_lt {t : Tree} {p : List UInt8} {node : Inode} (h : t.lookup p = some node) :
    p.length < PATH_MAX := by
  by_contra hlong
  rw [t.short p (by omega)] at h
  cases h

def Tree.empty : Tree := ⟨fun _ => none,fun _ _ => rfl⟩

def Tree.set (t : Tree) (p : List UInt8) (o : Option Inode) : Tree where
  lookup q := if q = p ∧ q.length < PATH_MAX then o else t.lookup q
  short q hq := by
    rw [if_neg (by omega)]
    exact t.short q hq

def Inode.resize (node : Inode) (n : Nat) : Inode :=
  { node with content := (node.content ++ List.replicate (n-node.content.length) 0).take n }

inductive Change where
  | replace : List UInt8 → Inode → Change
  | remove : List UInt8 → Change
  | append : List UInt8 → List UInt8 → Change
  | truncate : List UInt8 → Nat → Change
  | chmod : List UInt8 → Nat → Change
  | chown : List UInt8 → Nat → Nat → Change

def Tree.edit (t : Tree) (p : List UInt8) (f : Inode → Inode) : Tree :=
  t.set p ((t.lookup p).map f)

def Change.apply (t : Tree) : Change → Tree
  | .replace p node => t.set p (some node)
  | .remove p => t.set p none
  | .append p bytes => t.edit p fun node => { node with content := node.content ++ bytes }
  | .truncate p n => t.edit p fun node => node.resize n
  | .chmod p mode => t.edit p fun node => { node with mode := mode }
  | .chown p uid gid => t.edit p fun node => { node with uid := uid, gid := gid }

def Tree.after (t : Tree) (changes : List Change) : Tree := changes.foldl Change.apply t

theorem Tree.after_replace {t : Tree} {files : List (List UInt8 × Inode)} {p : List UInt8}
    {node : Inode}
    (h : (t.after (files.map fun file => .replace file.1 file.2)).lookup p = some node) :
    (p,node) ∈ files ∨ t.lookup p = some node := by
  induction files generalizing t with
  | nil => exact .inr h
  | cons file files ih =>
    rcases ih h with hm | hl
    · exact .inl (List.mem_cons_of_mem file hm)
    · change (if p = file.1 ∧ p.length < PATH_MAX then some file.2 else t.lookup p) = _ at hl
      split_ifs at hl with hp
      · cases hl
        exact .inl (List.mem_cons.mpr (.inl (Prod.ext hp.1 rfl)))
      · exact .inr hl

theorem Tree.after_replace_found {t : Tree} {files : List (List UInt8 × Inode)} {p : List UInt8}
    (hshort : p.length < PATH_MAX) (h : p ∈ files.map Prod.fst ∨ t.lookup p ≠ none) :
    (t.after (files.map fun file => .replace file.1 file.2)).lookup p ≠ none := by
  induction files generalizing t with
  | nil =>
    rcases h with hm | hl
    · cases hm
    · exact hl
  | cons file files ih =>
    refine ih ?_
    change _ ∨ (if p = file.1 ∧ p.length < PATH_MAX then some file.2 else t.lookup p) ≠ none
    rw [List.map_cons,List.mem_cons,or_assoc] at h
    rcases h with hp | hm | hl
    · exact .inr (by rw [if_pos ⟨hp,hshort⟩]; simp)
    · exact .inl hm
    · by_cases hp : p = file.1 ∧ p.length < PATH_MAX
      · exact .inr (by rw [if_pos hp]; simp)
      · exact .inr (by rwa [if_neg hp])

end PosixFiles
