import Mathlib.Algebra.Order.Floor.Semiring
import Mathlib.Algebra.Order.Field.Basic
import Mathlib.Data.List.GetD
import Mathlib.Data.List.Sort
import Mathlib.Tactic.Linarith
import Mathlib.Tactic.Ring
set_option autoImplicit false

/-!
Sorted lists read by rank, also between two ranks. An entry of a sorted list is
at most `x` when more entries than its rank are; so ranks depend on counts
alone, and grow with the entries.
-/

namespace OrderStatistics

section Ranks

variable {α : Type} [LinearOrder α]

theorem countP_eq_zero_of_lt {l : List α} {x : α} (h : ∀ y ∈ l, x < y) :
    l.countP (· ≤ x) = 0 := by
  rw [List.countP_eq_zero]
  intro y hy
  simpa using h y hy

theorem getElem_le_iff {l : List α} (h : l.SortedLE) {k : Nat} (hk : k < l.length) (x : α) :
    l[k] ≤ x ↔ k < l.countP (· ≤ x) := by
  constructor
  · intro hx
    have hfirst : (l.take (k+1)).countP (· ≤ x) = (l.take (k+1)).length := by
      rw [List.countP_eq_length]
      intro y hy
      obtain ⟨i,hi,rfl⟩ := List.mem_take_iff_getElem.mp hy
      have hik : i ≤ k := by omega
      simpa using (h.getElem_le_getElem_of_le hik).trans hx
    have hle := (List.take_sublist (k+1) l).countP_le (p := fun y => decide (y ≤ x))
    rw [hfirst,List.length_take] at hle
    omega
  · intro hcount
    by_contra hx
    have hlater : (l.drop k).countP (· ≤ x) = 0 := by
      apply countP_eq_zero_of_lt
      intro y hy
      obtain ⟨i,hi,rfl⟩ := List.mem_drop_iff_getElem.mp hy
      have hik : k ≤ k+i := by omega
      exact (not_le.mp hx).trans_le (h.getElem_le_getElem_of_le hik)
    have hsplit : (l.take k ++ l.drop k).countP (· ≤ x) =
        (l.take k).countP (· ≤ x) + (l.drop k).countP (· ≤ x) := List.countP_append
    rw [List.take_append_drop,hlater] at hsplit
    have hle := List.countP_le_length (p := fun y => decide (y ≤ x)) (l := l.take k)
    rw [List.length_take] at hle
    omega

theorem countP_le_of_forall₂ {a b : List α} (h : List.Forall₂ (· ≤ ·) a b) (x : α) :
    b.countP (· ≤ x) ≤ a.countP (· ≤ x) := by
  induction h with
  | nil => exact Nat.le_refl 0
  | @cons y z a b hyz _ ih =>
    rw [List.countP_cons,List.countP_cons]
    by_cases hz : z ≤ x
    · have hy := hyz.trans hz
      simp only [hz,hy,decide_true,if_true]
      omega
    · simp only [hz,decide_false,Bool.false_eq_true,if_false]
      omega

theorem getElem_le_getElem {a b s t : List α} (h : List.Forall₂ (· ≤ ·) a b)
    (hs : s.SortedLE) (hsa : s.Perm a) (ht : t.SortedLE) (htb : t.Perm b)
    {k : Nat} (hks : k < s.length) (hkt : k < t.length) : s[k] ≤ t[k] := by
  rw [getElem_le_iff hs hks,hsa.countP_eq]
  have hcount := (getElem_le_iff ht hkt t[k]).mp le_rfl
  rw [htb.countP_eq] at hcount
  exact hcount.trans_le (countP_le_of_forall₂ h _)

end Ranks

section Interpolation

variable {F : Type} [Field F] [LinearOrder F] [IsStrictOrderedRing F] [FloorSemiring F]

def interpolate (s : Nat → F) (x : F) : F :=
  s ⌊x⌋₊ * (1-(x-⌊x⌋₊)) + s (⌊x⌋₊+1) * (x-⌊x⌋₊)

theorem weight_range {x : F} (hx : 0 ≤ x) : 0 ≤ x-⌊x⌋₊ ∧ 0 ≤ 1-(x-⌊x⌋₊) := by
  have hle := Nat.floor_le hx
  have hlt := Nat.lt_floor_add_one x
  constructor
  · linarith
  · linarith

theorem interpolate_le {s t : Nat → F} (h : ∀ k, s k ≤ t k) {x : F} (hx : 0 ≤ x) :
    interpolate s x ≤ interpolate t x := by
  obtain ⟨h₀,h₁⟩ := weight_range hx
  exact add_le_add (mul_le_mul_of_nonneg_right (h _) h₁) (mul_le_mul_of_nonneg_right (h _) h₀)

theorem interpolate_range {s : Nat → F} (hs : Monotone s) {x : F} (hx : 0 ≤ x) :
    s ⌊x⌋₊ ≤ interpolate s x ∧ interpolate s x ≤ s (⌊x⌋₊+1) := by
  obtain ⟨h₀,h₁⟩ := weight_range hx
  have hstep := hs (Nat.le_succ ⌊x⌋₊)
  have hup := mul_le_mul_of_nonneg_right hstep h₀
  have hdown := mul_le_mul_of_nonneg_right hstep h₁
  unfold interpolate
  constructor
  · linarith
  · linarith

theorem interpolate_mono {s : Nat → F} (hs : Monotone s) {x y : F} (hx : 0 ≤ x) (hxy : x ≤ y) :
    interpolate s x ≤ interpolate s y := by
  cases (Nat.floor_le_floor hxy).eq_or_lt with
  | inl he =>
    have hstep := mul_le_mul_of_nonneg_right (hs (Nat.le_succ ⌊y⌋₊)) (sub_nonneg.mpr hxy)
    unfold interpolate
    rw [he]
    linarith
  | inr hlt =>
    calc interpolate s x ≤ s (⌊x⌋₊+1) := (interpolate_range hs hx).2
      _ ≤ s ⌊y⌋₊ := hs hlt
      _ ≤ interpolate s y := (interpolate_range hs (hx.trans hxy)).1

end Interpolation

section Stretched

variable {F : Type} [LinearOrder F] [Zero F]

/-- A list as a function of the rank, its last entry standing for all ranks
behind it. -/
def stretch (l : List F) (k : Nat) : F := l.getD (min k (l.length-1)) 0

theorem stretch_mono {l : List F} (h : l.SortedLE) : Monotone (stretch l) := by
  intro i j hij
  cases hl : l with
  | nil => simp [stretch]
  | cons x r =>
    rw [hl] at h
    have hi : min i ((x :: r).length-1) < (x :: r).length := by simp
    have hj : min j ((x :: r).length-1) < (x :: r).length := by simp
    rw [stretch,stretch,List.getD_eq_getElem _ _ hi,List.getD_eq_getElem _ _ hj]
    exact h.getElem_le_getElem_of_le (by omega)

omit [LinearOrder F] in
theorem stretch_mem {l : List F} (hl : l ≠ []) (k : Nat) : stretch l k ∈ l := by
  have hlen := List.length_pos_iff.mpr hl
  have hk : min k (l.length-1) < l.length := by omega
  rw [stretch,List.getD_eq_getElem _ _ hk]
  exact List.getElem_mem _

theorem stretch_le {a b s t : List F} (h : List.Forall₂ (· ≤ ·) a b) (hs : s.SortedLE)
    (hsa : s.Perm a) (ht : t.SortedLE) (htb : t.Perm b) (k : Nat) :
    stretch s k ≤ stretch t k := by
  have hlen : s.length = t.length := by rw [hsa.length_eq,htb.length_eq,h.length_eq]
  by_cases hnil : t.length = 0
  · rw [List.length_eq_zero_iff.mp (hlen.trans hnil),List.length_eq_zero_iff.mp hnil]
  · have hk : min k (t.length-1) < t.length := by omega
    rw [stretch,stretch,hlen,List.getD_eq_getElem _ _ hk,List.getD_eq_getElem _ _ (hlen ▸ hk)]
    exact getElem_le_getElem h hs hsa ht htb _ _

end Stretched

end OrderStatistics
