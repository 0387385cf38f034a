import Mathlib.Algebra.Order.Field.Basic
import Mathlib.Data.List.Count
import Mathlib.Tactic.Linarith
import Mathlib.Tactic.Ring
set_option autoImplicit false

/-!
Token buckets. A bucket is refilled at `rate` up to `cap` whenever a clock is
read, and one token is taken if there is one. Tokens are accounted for: what
has been taken and what is left have come in, unless it ran over.
-/

namespace TokenBucket

/-- The tokens at the last reading, and all readings at which one was taken. -/
structure Bucket (F : Type) where
  level : F
  last : F
  grants : List F
  deriving DecidableEq

section Reading

variable {F : Type} [Field F] [LinearOrder F]

def Bucket.refill (rate cap : F) (b : Bucket F) (now : F) : F :=
  min (b.level+(now-b.last)*rate) cap

def Bucket.read (rate cap : F) (b : Bucket F) (now : F) : Bucket F :=
  if 1 ≤ b.refill rate cap now then
    { level := b.refill rate cap now-1, last := now, grants := b.grants ++ [now] }
  else { b with level := b.refill rate cap now, last := now }

def Bucket.taken (b : Bucket F) (s e : F) : Nat := b.grants.countP fun t => s ≤ t ∧ t ≤ e

variable {rate cap now s e : F} {b : Bucket F}

@[simp] theorem read_last : (b.read rate cap now).last = now := by
  unfold Bucket.read
  split <;> rfl

theorem read_cases (rate cap now : F) (b : Bucket F) :
    (1 ≤ b.refill rate cap now ∧ (b.read rate cap now).level = b.refill rate cap now-1 ∧
      (b.read rate cap now).grants = b.grants ++ [now]) ∨
    (b.refill rate cap now < 1 ∧ (b.read rate cap now).level = b.refill rate cap now ∧
      (b.read rate cap now).grants = b.grants) := by
  by_cases h : 1 ≤ b.refill rate cap now
  · left
    simp [Bucket.read,h]
  · right
    simp [Bucket.read,h,not_le.mp h]

theorem taken_inside (rate cap : F) (b : Bucket F) (hs : s ≤ now) (he : now ≤ e) :
    ((b.read rate cap now).taken s e : F) + (b.read rate cap now).level =
      b.taken s e + b.refill rate cap now := by
  rcases read_cases rate cap now b with
    ⟨_,hlevel,hgrants⟩ | ⟨_,hlevel,hgrants⟩
  · simp only [Bucket.taken,hlevel,hgrants,List.countP_append,List.countP_singleton,hs,he,
      and_self,decide_true,if_true,Nat.cast_add,Nat.cast_one]
    ring
  · simp only [Bucket.taken,hlevel,hgrants]

theorem taken_outside (h : ¬ (s ≤ now ∧ now ≤ e)) :
    (b.read rate cap now).taken s e = b.taken s e := by
  rcases read_cases rate cap now b with
    ⟨_,_,hgrants⟩ | ⟨_,_,hgrants⟩
  · simp [Bucket.taken,hgrants,List.countP_append,h]
  · simp [Bucket.taken,hgrants]

theorem refill_le_cap : b.refill rate cap now ≤ cap := min_le_right _ _

end Reading

section Accounts

variable {F : Type} [Field F] [LinearOrder F] [IsStrictOrderedRing F] {rate cap now s e : F}
  {b : Bucket F}

theorem refill_nonneg (hr : 0 ≤ rate) (hcap : 0 ≤ cap) (hb : 0 ≤ b.level) (hnow : b.last ≤ now) :
    0 ≤ b.refill rate cap now := by
  have hin := mul_nonneg (sub_nonneg.mpr hnow) hr
  exact le_min (by linarith) hcap

theorem level_nonneg (hr : 0 ≤ rate) (hcap : 0 ≤ cap) (hb : 0 ≤ b.level) (hnow : b.last ≤ now) :
    0 ≤ (b.read rate cap now).level := by
  have hfill := refill_nonneg hr hcap hb hnow
  rcases read_cases rate cap now b with
    ⟨hone,hlevel,_⟩ | ⟨_,hlevel,_⟩
  · rw [hlevel]
    linarith
  · rwa [hlevel]

/-- What overflowed before does not come back. -/
theorem refill_le (cap : F) (hr : 0 ≤ rate) (hnow : b.last ≤ now) :
    b.refill rate cap now ≤ min b.level cap + (now-b.last)*rate := by
  have hin := mul_nonneg (sub_nonneg.mpr hnow) hr
  rw [min_add]
  exact min_le_min le_rfl (by linarith)

/-- No window of readings has more tokens taken than came in over it, and a
full bucket. -/
structure Window (rate cap s e : F) (b : Bucket F) : Prop where
  before : b.last < s → b.taken s e = 0
  during : s ≤ b.last → b.last ≤ e → b.taken s e + min b.level cap ≤ rate*(b.last-s)+cap
  behind : e < b.last → b.taken s e ≤ rate*(e-s)+cap

theorem window_start (hr : 0 ≤ rate) (hcap : 0 ≤ cap) (hse : s ≤ e) (level last : F) :
    Window rate cap s e ⟨level,last,[]⟩ := by
  refine ⟨fun _ => rfl,fun hs _ => ?_,fun _ => ?_⟩
  · have hin := mul_nonneg hr (sub_nonneg.mpr hs)
    have hmin := min_le_right level cap
    simp only [Bucket.taken,List.countP_nil,Nat.cast_zero]
    linarith
  · have hin := mul_nonneg hr (sub_nonneg.mpr hse)
    simp only [Bucket.taken,List.countP_nil,Nat.cast_zero]
    linarith

theorem Window.bound (hr : 0 ≤ rate) (hcap : 0 ≤ cap) (hse : s ≤ e) (hb : 0 ≤ b.level)
    (h : Window rate cap s e b) : b.taken s e ≤ rate*(e-s)+cap := by
  have hin := mul_nonneg hr (sub_nonneg.mpr hse)
  cases lt_or_ge b.last s with
  | inl hlast =>
    rw [h.before hlast,Nat.cast_zero]
    linarith
  | inr hlast =>
    cases lt_or_ge e b.last with
    | inl hpast => exact h.behind hpast
    | inr hwithin =>
      have hold := h.during hlast hwithin
      have hmin : 0 ≤ min b.level cap := le_min hb hcap
      have hrest := mul_le_mul_of_nonneg_left (sub_le_sub_right hwithin s) hr
      linarith

theorem Window.read (hr : 0 ≤ rate) (hcap : 0 ≤ cap) (hse : s ≤ e) (hb : 0 ≤ b.level)
    (hnow : b.last ≤ now) (h : Window rate cap s e b) :
    Window rate cap s e (b.read rate cap now) := by
  constructor
  · intro hs
    rw [read_last] at hs
    rw [taken_outside fun hin => absurd hin.1 (not_le.mpr hs)]
    exact h.before (hnow.trans_lt hs)
  · intro hs he
    rw [read_last] at hs he ⊢
    have hsum := taken_inside rate cap b hs he
    have hleft := min_le_left (b.read rate cap now).level cap
    have hfill := refill_le cap hr hnow
    have hfull : b.refill rate cap now ≤ cap := refill_le_cap
    cases lt_or_ge b.last s with
    | inl hlast =>
      have hin := mul_nonneg hr (sub_nonneg.mpr hs)
      rw [h.before hlast,Nat.cast_zero] at hsum
      linarith
    | inr hlast =>
      have hold := h.during hlast (hnow.trans he)
      linarith
  · intro he
    rw [read_last] at he
    rw [taken_outside fun hin => absurd hin.2 (not_le.mpr he)]
    exact h.bound hr hcap hse hb

def Bucket.total (b : Bucket F) : F := b.grants.length+b.level

omit [IsStrictOrderedRing F] in
theorem total_read : (b.read rate cap now).total = b.grants.length+b.refill rate cap now := by
  rcases read_cases rate cap now b with
    ⟨_,hlevel,hgrants⟩ | ⟨_,hlevel,hgrants⟩
  · simp only [Bucket.total,hlevel,hgrants,List.length_append,List.length_singleton,Nat.cast_add,
      Nat.cast_one]
    ring
  · simp only [Bucket.total,hlevel,hgrants]

/-- All that came in is accounted for as long as nothing runs over; and then at
most one token is left. -/
theorem total_read_eq (hone : b.level ≤ 1) (hin : (now-b.last)*rate ≤ 1) (hcap : 2 ≤ cap) :
    (b.read rate cap now).total = b.total+(now-b.last)*rate ∧
      (b.read rate cap now).level ≤ 1 := by
  have hfill : b.refill rate cap now = b.level+(now-b.last)*rate := min_eq_left (by linarith)
  constructor
  · rw [total_read,hfill,Bucket.total]
    ring
  · rcases read_cases rate cap now b with
      ⟨_,hlevel,_⟩ | ⟨hless,hlevel,_⟩
    · rw [hlevel,hfill]
      linarith
    · rw [hlevel]
      exact hless.le

end Accounts

end TokenBucket
