import Mathlib.Data.List.Basic
import Mathlib.Data.List.Count
import Mathlib.Data.List.Infix
import Mathlib.Tactic.Common
set_option autoImplicit false

/-!
Relative paths resolved lexically, a component at a time. A path is confined
when it never climbs above the directory it starts from; that is a matter of
counting.
-/

namespace LexicalPath

/-- What a component does: an empty one and "." stay, ".." goes to the parent,
a name descends. -/
inductive Move where
  | stay : Move
  | up : Move
  | down : Move
  deriving DecidableEq, Repr

def resolve : Nat → List Move → Option Nat
  | d, [] => some d
  | d, .stay :: ms => resolve d ms
  | 0, .up :: _ => none
  | d+1, .up :: ms => resolve d ms
  | d, .down :: ms => resolve (d+1) ms

def Confined (d : Nat) (ms : List Move) : Prop := (resolve d ms).isSome = true

instance (d : Nat) (ms : List Move) : Decidable (Confined d ms) :=
  inferInstanceAs (Decidable (_ = _))

@[simp] theorem confined_nil (d : Nat) : Confined d [] := rfl

@[simp] theorem confined_stay {d : Nat} {ms : List Move} :
    Confined d (.stay :: ms) ↔ Confined d ms := by
  cases d <;> rfl

@[simp] theorem confined_up_zero {ms : List Move} : ¬ Confined 0 (.up :: ms) := by
  intro h
  cases h

@[simp] theorem confined_up_succ {d : Nat} {ms : List Move} :
    Confined (d+1) (.up :: ms) ↔ Confined d ms := Iff.rfl

@[simp] theorem confined_down {d : Nat} {ms : List Move} :
    Confined d (.down :: ms) ↔ Confined (d+1) ms := by
  cases d <;> rfl

def Balanced (d : Nat) (ms : List Move) : Prop :=
  ∀ ns, ns <+: ms → ns.count .up ≤ d + ns.count .down

theorem balanced_cons {d : Nat} {m : Move} {ms : List Move} :
    Balanced d (m :: ms) ↔
      ∀ ns, ns <+: ms → (m :: ns).count .up ≤ d + (m :: ns).count .down := by
  constructor
  · intro h ns hns
    exact h (m :: ns) (List.cons_prefix_cons.mpr ⟨rfl,hns⟩)
  · intro h ns hns
    cases ns with
    | nil => simp
    | cons n ns =>
      obtain ⟨rfl,hp⟩ := List.cons_prefix_cons.mp hns
      exact h ns hp

theorem confined_iff_balanced {d : Nat} {ms : List Move} : Confined d ms ↔ Balanced d ms := by
  induction ms generalizing d with
  | nil =>
    simp only [confined_nil,true_iff]
    intro ns hns
    simp [List.prefix_nil.mp hns]
  | cons m ms ih =>
    rw [balanced_cons]
    cases m with
    | stay => simpa [Balanced] using ih
    | up =>
      cases d with
      | zero =>
        simp only [confined_up_zero,false_iff]
        intro h
        simpa using h [] List.nil_prefix
      | succ d =>
        rw [confined_up_succ,ih]
        constructor
        · intro h ns hns
          have hd := h ns hns
          simp
          omega
        · intro h ns hns
          have hd := h ns hns
          simp at hd
          omega
    | down =>
      rw [confined_down,ih]
      constructor
      · intro h ns hns
        have hd := h ns hns
        simp
        omega
      · intro h ns hns
        have hd := h ns hns
        simp at hd
        omega

theorem confined_concat {d : Nat} {ms : List Move} {m : Move} (hm : m ≠ .up) :
    Confined d (ms ++ [m]) ↔ Confined d ms := by
  induction ms generalizing d with
  | nil => cases m <;> simp_all
  | cons n ms ih =>
    cases n with
    | stay => simpa using ih
    | up => cases d <;> simp [ih]
    | down => simpa using ih

section Components

variable {α : Type} [DecidableEq α]

/-- The moves of a path, where `sep` separates and `dot` is the byte of "." and "..". -/
def move (dot : α) (c : List α) : Move :=
  if c = [] ∨ c = [dot] then .stay else if c = [dot,dot] then .up else .down

def moves (sep dot : α) (path : List α) : List Move := (path.splitOn sep).map (move dot)

theorem moves_concat {sep : α} (dot : α) (path : List α) {last : List α} (h : sep ∉ last) :
    moves sep dot (path ++ sep :: last) = moves sep dot path ++ [move dot last] := by
  rw [moves,moves,List.splitOn_append_cons_self,List.splitOn_eq_singleton h]
  simp

theorem moves_cons (sep dot : α) {x : α} (hx : x ≠ sep) (path : List α) :
    ∃ c cs, path.splitOn sep = c :: cs ∧
      moves sep dot (x :: path) = move dot (x :: c) :: cs.map (move dot) := by
  cases h : path.splitOn sep with
  | nil => exact absurd h (List.splitOn_ne_nil sep path)
  | cons c cs =>
    refine ⟨c,cs,rfl,?_⟩
    simp [moves,List.splitOn_cons_eq_if_modifyHead,hx,h]

end Components

end LexicalPath
