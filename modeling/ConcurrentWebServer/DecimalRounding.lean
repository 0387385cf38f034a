import Mathlib.Algebra.Order.Floor.Ring
import Mathlib.Algebra.Order.Field.Basic
import Mathlib.Tactic.FieldSimp
import Mathlib.Tactic.Linarith
import Mathlib.Tactic.Positivity
set_option autoImplicit false

/-! Rounding to a number of decimal places, to the even digit from the middle. -/

namespace DecimalRounding

variable {α : Type} [Field α] [LinearOrder α] [IsStrictOrderedRing α] [FloorRing α]

def halfEven (x : α) : Int :=
  if Int.fract x < 1/2 ∨ Int.fract x = 1/2 ∧ ⌊x⌋ % 2 = 0 then ⌊x⌋ else ⌊x⌋+1

def places (x : α) (n : Nat) : α := halfEven (x*10^n)/10^n

omit [IsStrictOrderedRing α] in
theorem halfEven_cases (x : α) :
    halfEven x = ⌊x⌋ ∧ Int.fract x ≤ 1/2 ∨ halfEven x = ⌊x⌋+1 ∧ 1/2 ≤ Int.fract x := by
  unfold halfEven
  split_ifs with hx
  · exact .inl ⟨rfl,hx.elim le_of_lt fun h => h.1.le⟩
  · exact .inr ⟨rfl,not_lt.mp fun h => hx (.inl h)⟩

omit [IsStrictOrderedRing α] in
theorem floor_le_halfEven (x : α) : ⌊x⌋ ≤ halfEven x := by
  rcases halfEven_cases x with ⟨h,_⟩ | ⟨h,_⟩ <;> omega

omit [IsStrictOrderedRing α] in
theorem halfEven_le_floor (x : α) : halfEven x ≤ ⌊x⌋+1 := by
  rcases halfEven_cases x with ⟨h,_⟩ | ⟨h,_⟩ <;> omega

theorem halfEven_mono {x y : α} (h : x ≤ y) : halfEven x ≤ halfEven y := by
  rcases (Int.floor_le_floor h).lt_or_eq with hlt | heq
  · have hx := halfEven_le_floor x
    have hy := floor_le_halfEven y
    omega
  · -- within one unit the fractions are in the order of the numbers
    have hfract : Int.fract x ≤ Int.fract y := by
      simp only [Int.fract,heq]
      exact sub_le_sub_right h _
    unfold halfEven
    rw [heq]
    split_ifs with hx hy hy
    · exact le_refl _
    · omega
    · exfalso
      rcases hy with hy | ⟨hy,heven⟩
      · exact hx (.inl (hfract.trans_lt hy))
      · rcases (hfract.trans_eq hy).lt_or_eq with hlt | hhalf
        · exact hx (.inl hlt)
        · exact hx (.inr ⟨hhalf,heven⟩)
    · exact le_refl _

theorem abs_halfEven_sub (x : α) : |(halfEven x : α)-x| ≤ 1/2 := by
  have hsum := Int.floor_add_fract x
  have hnonneg := Int.fract_nonneg x
  have hlt := Int.fract_lt_one x
  rw [abs_le]
  rcases halfEven_cases x with ⟨h,hle⟩ | ⟨h,hge⟩
  · rw [h]
    constructor <;> linarith
  · rw [h]
    push_cast
    constructor <;> linarith

theorem places_mono (n : Nat) : Monotone fun x : α => places x n := by
  intro x y h
  have hscale : (0 : α) < 10^n := by positivity
  have hmono : halfEven (x*10^n) ≤ halfEven (y*10^n) :=
    halfEven_mono (mul_le_mul_of_nonneg_right h hscale.le)
  exact div_le_div_of_nonneg_right (Int.cast_le.mpr hmono) hscale.le

theorem abs_places_sub (x : α) (n : Nat) : |places x n-x| ≤ 1/(2*10^n) := by
  have hscale : (0 : α) < 10^n := by positivity
  have hfactor : places x n-x = (halfEven (x*10^n)-x*10^n)/10^n := by
    rw [places]
    field_simp
  rw [hfactor,abs_div,abs_of_pos hscale,← div_div]
  exact div_le_div_of_nonneg_right (abs_halfEven_sub _) hscale.le

end DecimalRounding
