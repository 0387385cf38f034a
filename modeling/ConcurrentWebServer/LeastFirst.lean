import Mathlib.Data.List.Basic
import Mathlib.Order.Lattice
import Mathlib.Data.List.Perm.Basic
import Mathlib.Tactic.Common
set_option autoImplicit false

/-!
Serving the least entry of a list first, the leftmost one among equals, and the
stable sort that repeating it amounts to.
-/

namespace LeastFirst

variable {α K : Type} [LinearOrder K]

/-- Position `m` holds `x`, the leftmost entry of least key. -/
structure LeastAt (key : α → K) (l : List α) (m : Nat) (x : α) : Prop where
  get : l[m]? = some x
  le : ∀ y ∈ l, key x ≤ key y
  first : ∀ y ∈ l.take m, key x < key y

theorem LeastAt.lt {key : α → K} {l : List α} {m : Nat} {x : α} (h : LeastAt key l m x) :
    m < l.length := (List.getElem?_eq_some_iff.mp h.get).1

theorem LeastAt.split {key : α → K} {l : List α} {m : Nat} {x : α} (h : LeastAt key l m x) :
    l = l.take m ++ x :: l.drop (m+1) := by
  obtain ⟨hlt,hx⟩ := List.getElem?_eq_some_iff.mp h.get
  rw [← hx,List.getElem_cons_drop,List.take_append_drop]

theorem LeastAt.perm {key : α → K} {l : List α} {m : Nat} {x : α} (h : LeastAt key l m x) :
    l.Perm (x :: l.eraseIdx m) := by
  rw [List.eraseIdx_eq_take_drop_succ]
  exact (List.Perm.of_eq h.split).trans List.perm_middle

/-- Scanning positions left to right and moving only to a strictly smaller key
keeps the leftmost least one. `best` is the position kept so far. -/
theorem scan_step {f : Nat → K} {best i : Nat}
    (hle : ∀ j < i, f best ≤ f j) (hfirst : ∀ j < best, f best < f j) :
    (f i < f best → (∀ j < i+1, f i ≤ f j) ∧ ∀ j < i, f i < f j) ∧
    (¬ f i < f best → (∀ j < i+1, f best ≤ f j) ∧ ∀ j < best, f best < f j) := by
  constructor
  · intro hi
    have hlt : ∀ j < i, f i < f j := fun j hj => lt_of_lt_of_le hi (hle j hj)
    refine ⟨fun j hj => ?_,hlt⟩
    rcases Nat.lt_succ_iff_lt_or_eq.mp hj with h | rfl
    · exact (hlt j h).le
    · exact le_refl _
  · intro hi
    refine ⟨fun j hj => ?_,hfirst⟩
    rcases Nat.lt_succ_iff_lt_or_eq.mp hj with h | rfl
    · exact hle j h
    · exact not_lt.mp hi

inductive Drains (key : α → K) : List α → List α → Prop where
  | nil : Drains key [] []
  | cons {l out : List α} {m : Nat} {x : α} :
      LeastAt key l m x → Drains key (l.eraseIdx m) out → Drains key l (x :: out)

structure StableSort (key : α → K) (l out : List α) : Prop where
  perm : out.Perm l
  sorted : out.Pairwise fun a b => key a ≤ key b
  stable : ∀ k, out.filter (fun a => key a = k) = l.filter (fun a => key a = k)

theorem LeastAt.filter_eq {key : α → K} {l : List α} {m : Nat} {x : α}
    (h : LeastAt key l m x) (k : K) :
    l.filter (fun a => key a = k) = (x :: l.eraseIdx m).filter (fun a => key a = k) := by
  rw [List.eraseIdx_eq_take_drop_succ]
  by_cases hk : key x = k
  · -- what stands before `x` has a larger key
    have hbefore : (l.take m).filter (fun a => key a = k) = [] := by
      apply List.filter_eq_nil_iff.mpr
      intro y hy hyk
      exact absurd (of_decide_eq_true hyk) (hk ▸ (h.first y hy).ne')
    conv_lhs => rw [h.split]
    simp [hk,hbefore]
  · conv_lhs => rw [h.split]
    simp [hk]

theorem Drains.stableSort {key : α → K} {l out : List α} (h : Drains key l out) :
    StableSort key l out := by
  induction h with
  | nil => exact ⟨.refl _,.nil,fun _ => rfl⟩
  | @cons l out m x hm _ ih =>
    refine ⟨(ih.perm.cons x).trans hm.perm.symm,?_,fun k => ?_⟩
    · refine List.pairwise_cons.mpr ⟨fun y hy => hm.le y ?_,ih.sorted⟩
      exact hm.perm.symm.subset (List.mem_cons_of_mem x (ih.perm.subset hy))
    · rw [hm.filter_eq k,List.filter_cons,List.filter_cons,ih.stable k]

end LeastFirst
