import Mathlib.Algebra.Order.Field.Basic
import Mathlib.Algebra.Order.Field.Rat
import Mathlib.Algebra.BigOperators.Group.List.Basic
import Mathlib.Data.List.Count
import Mathlib.Order.Monotone.Basic
import Mathlib.Tactic.Linarith
import Mathlib.Tactic.Ring
set_option autoImplicit false

/-!
Two samples compared by the ranks of their values: the Mann-Whitney statistic,
from the sum of the ranks of the first one, counts the pairs in which its value
is the greater one, with half a pair for a tie.
-/

namespace RankSums

variable {α β : Type} [LinearOrder α] [LinearOrder β]

def below (xs ys : List α) : Nat := (xs.map fun x => ys.countP fun y => decide (x < y)).sum

def above (xs ys : List α) : Nat := (xs.map fun x => ys.countP fun y => decide (y < x)).sum

def ties (xs ys : List α) : Nat := (xs.map fun x => ys.count x).sum

/-- The rank of a value of a sample; equal values share the mean of theirs. -/
def rank (l : List α) (x : α) : ℚ := (l.countP fun y => decide (y < x)) + ((l.count x : ℚ)+1)/2

def rankSum (xs l : List α) : ℚ := (xs.map (rank l)).sum

def uStatistic (xs ys : List α) : ℚ :=
  rankSum xs (xs ++ ys) - (xs.length : ℚ)*(xs.length+1)/2

@[simp] theorem below_nil (ys : List α) : below [] ys = 0 := rfl

@[simp] theorem above_nil (ys : List α) : above [] ys = 0 := rfl

@[simp] theorem ties_nil (ys : List α) : ties [] ys = 0 := rfl

@[simp] theorem below_cons (x : α) (xs ys : List α) :
    below (x :: xs) ys = (ys.countP fun y => decide (x < y)) + below xs ys := rfl

@[simp] theorem above_cons (x : α) (xs ys : List α) :
    above (x :: xs) ys = (ys.countP fun y => decide (y < x)) + above xs ys := rfl

@[simp] theorem ties_cons (x : α) (xs ys : List α) :
    ties (x :: xs) ys = ys.count x + ties xs ys := rfl

theorem pairs_total (xs ys : List α) :
    below xs ys + above xs ys + ties xs ys = xs.length*ys.length := by
  have hone : ∀ x, (ys.countP fun y => decide (x < y)) + (ys.countP fun y => decide (y < x)) +
      ys.count x = ys.length := by
    intro x
    induction ys with
    | nil => rfl
    | cons y ys ih =>
      simp only [List.countP_cons,List.count_cons,List.length_cons,decide_eq_true_eq]
      rcases lt_trichotomy x y with h | h | h
      · simp [h,h.not_gt,h.ne']
        omega
      · subst h
        simp
        omega
      · simp [h,h.not_gt,h.ne]
        omega
  induction xs with
  | nil => simp
  | cons x xs ih =>
    have hx := hone x
    rw [below_cons,above_cons,ties_cons,List.length_cons,Nat.succ_mul,← ih,← hx]
    omega

theorem above_cons_right (y : α) (xs ys : List α) :
    above xs (y :: ys) = (xs.countP fun x => decide (y < x)) + above xs ys := by
  induction xs with
  | nil => rfl
  | cons x xs ih =>
    simp only [above_cons,ih,List.countP_cons]
    omega

theorem below_comm (xs ys : List α) : below xs ys = above ys xs := by
  induction xs with
  | nil =>
    induction ys with
    | nil => rfl
    | cons y ys ih => simpa using ih
  | cons x xs ih => rw [below_cons,above_cons_right,ih]

theorem rankSum_append (xs ys l : List α) :
    rankSum l (xs ++ ys) =
      above l xs + above l ys + ((ties l xs : ℚ)+ties l ys+l.length)/2 := by
  induction l with
  | nil => simp [rankSum]
  | cons x l ih =>
    have hcons : rankSum (x :: l) (xs ++ ys) = rank (xs ++ ys) x + rankSum l (xs ++ ys) := rfl
    simp only [hcons,ih,rank,List.countP_append,List.count_append,above_cons,ties_cons,
      List.length_cons,Nat.cast_add,Nat.cast_one]
    ring

/-- The statistic counts pairs. -/
theorem uStatistic_pairs (xs ys : List α) :
    uStatistic xs ys = above xs ys + (ties xs ys : ℚ)/2 := by
  -- among themselves as many pairs are below as above
  have hself : 2*(above xs xs : ℚ)+ties xs xs = xs.length*xs.length := by
    have htotal := pairs_total xs xs
    rw [below_comm xs xs] at htotal
    have hcast : (above xs xs : ℚ)+above xs xs+ties xs xs = xs.length*xs.length := by
      exact_mod_cast htotal
    linarith
  rw [uStatistic,rankSum_append]
  linarith

theorem above_eq_zero {xs ys : List α} : above xs ys = 0 ↔ ∀ x ∈ xs, ∀ y ∈ ys, x ≤ y := by
  simp [above,List.sum_eq_zero_iff_forall_eq_nat,List.countP_eq_zero]

theorem ties_eq_zero {xs ys : List α} : ties xs ys = 0 ↔ ∀ x ∈ xs, x ∉ ys := by
  simp [ties,List.sum_eq_zero_iff_forall_eq_nat,List.count_eq_zero]

theorem below_eq_iff {xs ys : List α} :
    below xs ys = xs.length*ys.length ↔ ∀ x ∈ xs, ∀ y ∈ ys, x < y := by
  have htotal := pairs_total xs ys
  constructor
  · intro h x hx y hy
    have habove : above xs ys = 0 := by omega
    have hties : ties xs ys = 0 := by omega
    have hle := above_eq_zero.mp habove x hx y hy
    exact lt_of_le_of_ne hle fun he => ties_eq_zero.mp hties x hx (he ▸ hy)
  · intro h
    have habove : above xs ys = 0 := above_eq_zero.mpr fun x hx y hy => (h x hx y hy).le
    have hties : ties xs ys = 0 := ties_eq_zero.mpr fun x hx hm => lt_irrefl x (h x hx x hm)
    omega

theorem below_map {f : α → β} (hf : StrictMono f) (xs ys : List α) :
    below (xs.map f) (ys.map f) = below xs ys := by
  simp [below,List.map_map,Function.comp_def,List.countP_map,hf.lt_iff_lt]

def excess (xs ys : List α) : ℚ :=
  ((below xs ys : ℚ)-above xs ys)/((xs.length : ℚ)*ys.length)

theorem excess_neg (xs ys : List α) : excess ys xs = -excess xs ys := by
  rw [excess,excess,below_comm ys xs,← below_comm xs ys,mul_comm (ys.length : ℚ)]
  ring

theorem excess_map {f : α → β} (hf : StrictMono f) (xs ys : List α) :
    excess (xs.map f) (ys.map f) = excess xs ys := by
  simp only [excess,← below_comm (ys.map f),below_map hf,List.length_map,below_comm ys xs]

section Range

variable {xs ys : List α} (hx : xs ≠ []) (hy : ys ≠ [])

include hx hy

omit [LinearOrder α] in
theorem pairs_pos : (0 : ℚ) < (xs.length : ℚ)*ys.length := by
  have hlx := List.length_pos_iff.mpr hx
  have hly := List.length_pos_iff.mpr hy
  exact_mod_cast Nat.mul_pos hlx hly

theorem excess_le_one : excess xs ys ≤ 1 := by
  have htotal := pairs_total xs ys
  rw [excess,div_le_one (pairs_pos hx hy)]
  have hle : (below xs ys : ℚ) ≤ (xs.length : ℚ)*ys.length := by
    exact_mod_cast (by omega : below xs ys ≤ xs.length*ys.length)
  have hnonneg : (0 : ℚ) ≤ above xs ys := Nat.cast_nonneg _
  linarith

theorem excess_eq_one : excess xs ys = 1 ↔ ∀ x ∈ xs, ∀ y ∈ ys, x < y := by
  have htotal := pairs_total xs ys
  rw [excess,div_eq_one_iff_eq (pairs_pos hx hy).ne',← below_eq_iff]
  constructor
  · intro h
    have hnat : below xs ys = xs.length*ys.length + above xs ys := by
      have hq : (below xs ys : ℚ) = (xs.length : ℚ)*ys.length + above xs ys := by linarith
      exact_mod_cast hq
    omega
  · intro h
    have habove : above xs ys = 0 := by omega
    rw [h,habove]
    push_cast
    ring

end Range

/-- What is left of the pairs is twice the statistic. -/
theorem one_sub_uStatistic {xs ys : List α} (hx : xs ≠ []) (hy : ys ≠ []) :
    1-2*uStatistic xs ys/((xs.length : ℚ)*ys.length) = excess xs ys := by
  have hpos := pairs_pos hx hy
  have htotal : (below xs ys : ℚ)+above xs ys+ties xs ys = (xs.length : ℚ)*ys.length := by
    exact_mod_cast pairs_total xs ys
  rw [excess,uStatistic_pairs,eq_div_iff hpos.ne',sub_mul,div_mul_cancel₀ _ hpos.ne']
  linarith

end RankSums
