import ConcurrentWebServer.Execution
import ConcurrentWebServer.OrderStatistics
import Mathlib.Algebra.Order.Ring.Unbundled.Rat
import Mathlib.Data.Rat.Floor
set_option autoImplicit false

/-! `percentile` of load_client.py, over exact rationals. -/

namespace ConcurrentWebServer.LoadClient
open Execution OrderStatistics

section Model

def pyInt (x : ℚ) : Int := if 0 ≤ x then ⌊x⌋ else ⌈x⌉

/-- `s[i]`, where a negative index counts from the end; `abort` for an
`IndexError`. -/
def pyIndex {α : Type} (s : List α) (i : Int) : Exec α :=
  let k := if i < 0 then i+s.length else i
  match if k < 0 then none else s[k.toNat]? with
  | some x => .done x
  | none => .abort

def percentileIndices (n : Nat) (p : ℚ) : Int × Int :=
  let idx := p/100.0*(n-1)
  (pyInt idx,min (pyInt idx+1) (n-1))

def sorted (data : List ℚ) : List ℚ := data.mergeSort (· ≤ ·)

/-- The result `none` is `nan`. -/
def percentile (data : List ℚ) (p : ℚ) : Exec (Option ℚ) :=
  if data = [] then pure none
  else do
    let s := sorted data
    let idx := p/100.0*(s.length-1)
    let (lo,hi) := percentileIndices s.length p
    let frac := idx-lo
    let a ← pyIndex s lo
    let b ← pyIndex s hi
    pure (some (a*(1-frac)+b*frac))

end Model

section Quantiles

variable {data : List ℚ} {p q : ℚ}

def quantile (data : List ℚ) (p : ℚ) : ℚ :=
  interpolate (stretch (sorted data)) (p/100*(data.length-1))

theorem sorted_sortedLE (data : List ℚ) : (sorted data).SortedLE := List.sortedLE_mergeSort

theorem sorted_perm (data : List ℚ) : (sorted data).Perm data := List.mergeSort_perm _ _

@[simp] theorem sorted_length (data : List ℚ) : (sorted data).length = data.length :=
  (sorted_perm data).length_eq

theorem rank_range (hne : data ≠ []) (h₀ : 0 ≤ p) (h₁ : p ≤ 100) :
    0 ≤ p/100*(data.length-1) ∧ p/100*(data.length-1) ≤ data.length-1 := by
  have hlen : (1 : ℚ) ≤ data.length := by exact_mod_cast List.length_pos_iff.mpr hne
  have hlast : 0 ≤ (data.length-1 : ℚ) := by linarith
  have hpart : p/100 ≤ 1 := by linarith
  exact ⟨mul_nonneg (by linarith) hlast,mul_le_of_le_one_left hlast hpart⟩

theorem pyInt_eq {x : ℚ} (h : 0 ≤ x) : pyInt x = ⌊x⌋₊ := by
  rw [pyInt,if_pos h,Int.natCast_floor_eq_floor h]

theorem pyIndex_eq {s : List ℚ} {k : Nat} (h : k < s.length) : pyIndex s k = .done s[k] := by
  have hk : ¬ (k : Int) < 0 := by omega
  simp [pyIndex,hk,h]

theorem percentileIndices_eq (hne : data ≠ []) (h₀ : 0 ≤ p) (h₁ : p ≤ 100) :
    let k := ⌊p/100*(data.length-1)⌋₊
    k < data.length ∧ percentileIndices data.length p =
      ((k : Int),((min (k+1) (data.length-1) : Nat) : Int)) := by
  obtain ⟨hpos,hle⟩ := rank_range hne h₀ h₁
  have hlen := List.length_pos_iff.mpr hne
  have hfloor : ⌊p/100*(data.length-1 : ℚ)⌋₊ ≤ data.length-1 := by
    refine Nat.floor_le_of_le ?_
    rwa [Nat.cast_sub (by omega),Nat.cast_one]
  have hidx : p/100.0*((data.length : ℚ)-1) = p/100*(data.length-1) := by norm_num
  refine ⟨by omega,?_⟩
  simp only [percentileIndices,hidx,pyInt_eq hpos,Prod.mk.injEq,true_and]
  omega

theorem stretch_of_lt {l : List ℚ} {k : Nat} (hk : k < l.length) : stretch l k = l[k] := by
  have hmin : min k (l.length-1) = k := by omega
  rw [stretch,hmin,List.getD_eq_getElem _ _ hk]

theorem stretch_min (l : List ℚ) (k : Nat) : stretch l (min k (l.length-1)) = stretch l k := by
  rw [stretch,stretch,min_assoc,min_self]

theorem percentile_done (hne : data ≠ []) (h₀ : 0 ≤ p) (h₁ : p ≤ 100) :
    percentile data p = .done (some (quantile data p)) := by
  obtain ⟨hk,hidx⟩ := percentileIndices_eq hne h₀ h₁
  have hlo : ⌊p/100*(data.length-1 : ℚ)⌋₊ < (sorted data).length := by
    rwa [sorted_length]
  have hhi : min (⌊p/100*(data.length-1 : ℚ)⌋₊+1) ((sorted data).length-1) <
      (sorted data).length := by
    rw [sorted_length]
    omega
  have hrank : p/100.0*((data.length : ℚ)-1) = p/100*(data.length-1) := by norm_num
  have hstretch := stretch_min (sorted data) (⌊p/100*(data.length-1 : ℚ)⌋₊+1)
  rw [sorted_length] at hhi hstretch
  simp only [percentile,hne,if_false,sorted_length,hidx,pyIndex_eq hlo]
  rw [pyIndex_eq (by rwa [sorted_length])]
  simp only [done_bind,pure_eq,hrank,Int.cast_natCast]
  rw [← stretch_of_lt hlo,← stretch_of_lt (by rwa [sorted_length]),hstretch]
  rfl

theorem quantile_range (hne : data ≠ []) (h₀ : 0 ≤ p) (h₁ : p ≤ 100) {m M : ℚ}
    (hm : ∀ x ∈ data, m ≤ x) (hM : ∀ x ∈ data, x ≤ M) :
    m ≤ quantile data p ∧ quantile data p ≤ M := by
  have hmem : ∀ k, stretch (sorted data) k ∈ data := by
    intro k
    have hs : sorted data ≠ [] := fun hnil => hne ((hnil ▸ sorted_perm data).nil_eq).symm
    exact (sorted_perm data).mem_iff.mp (stretch_mem hs k)
  have hrange := interpolate_range (stretch_mono (sorted_sortedLE data)) (rank_range hne h₀ h₁).1
  exact ⟨(hm _ (hmem _)).trans hrange.1,hrange.2.trans (hM _ (hmem _))⟩

theorem quantile_mono (hne : data ≠ []) (h₀ : 0 ≤ p) (hpq : p ≤ q) (h₁ : q ≤ 100) :
    quantile data p ≤ quantile data q := by
  have hlen : (1 : ℚ) ≤ data.length := by exact_mod_cast List.length_pos_iff.mpr hne
  have hrank : p/100*(data.length-1 : ℚ) ≤ q/100*(data.length-1) :=
    mul_le_mul_of_nonneg_right (by linarith) (by linarith)
  exact interpolate_mono (stretch_mono (sorted_sortedLE data))
    (rank_range hne h₀ (hpq.trans h₁)).1 hrank

theorem quantile_le {data' : List ℚ} (h : List.Forall₂ (· ≤ ·) data data') (hne : data ≠ [])
    (h₀ : 0 ≤ p) (h₁ : p ≤ 100) : quantile data p ≤ quantile data' p := by
  unfold quantile
  rw [← h.length_eq]
  exact interpolate_le (stretch_le h (sorted_sortedLE _) (sorted_perm _) (sorted_sortedLE _)
    (sorted_perm _)) (rank_range hne h₀ h₁).1

theorem percentile_perm {data' : List ℚ} (h : data.Perm data') (p : ℚ) :
    percentile data p = percentile data' p := by
  have hsame : sorted data = sorted data' := by
    refine List.Perm.eq_of_sortedLE (sorted_sortedLE _) (sorted_sortedLE _) ?_
    exact (sorted_perm data).trans (h.trans (sorted_perm data').symm)
  have hnil : data = [] ↔ data' = [] := by
    rw [← List.length_eq_zero_iff,h.length_eq,List.length_eq_zero_iff]
  simp only [percentile,hsame,hnil]

theorem forall₂_set {i : Nat} {x y : ℚ} (hx : data[i]? = some x) (hxy : x ≤ y) :
    List.Forall₂ (· ≤ ·) data (data.set i y) := by
  induction data generalizing i with
  | nil => simp at hx
  | cons z r ih =>
    cases i with
    | zero =>
      simp only [List.getElem?_cons_zero,Option.some.injEq] at hx
      exact .cons (hx ▸ hxy) (List.forall₂_refl r)
    | succ i => exact .cons le_rfl (ih (by simpa using hx))

/-- `percentile` stays inside the sorted list and inside the data, grows with
the percentage and with each of the data, and does not see their order. -/
theorem percentile_quantile (data : List ℚ) (hne : data ≠ []) :
    (∀ p, 0 ≤ p → p ≤ 100 →
      let (lo,hi) := percentileIndices data.length p
      (0 ≤ lo ∧ lo < data.length) ∧ 0 ≤ hi ∧ hi < data.length) ∧
    (∀ p q, 0 ≤ p → p ≤ q → q ≤ 100 → ∃ a b m M,
      percentile data p = .done (some a) ∧ percentile data q = .done (some b) ∧
      data.min? = some m ∧ data.max? = some M ∧ m ≤ a ∧ a ≤ b ∧ b ≤ M) ∧
    (∀ data' p, data.Perm data' → percentile data p = percentile data' p) ∧
    ∀ p i x y, 0 ≤ p → p ≤ 100 → data[i]? = some x → x ≤ y → ∃ a b,
      percentile data p = .done (some a) ∧ percentile (data.set i y) p = .done (some b) ∧
      a ≤ b := by
  refine ⟨fun p h₀ h₁ => ?_,fun p q h₀ hpq h₁ => ?_,fun data' p h => percentile_perm h p,
    fun p i x y h₀ h₁ hx hxy => ?_⟩
  · obtain ⟨hk,hidx⟩ := percentileIndices_eq hne h₀ h₁
    have hlen := List.length_pos_iff.mpr hne
    rw [hidx]
    simp only
    omega
  · obtain ⟨m,hm⟩ := Option.isSome_iff_exists.mp (List.isSome_min?_of_ne_nil hne)
    obtain ⟨M,hM⟩ := Option.isSome_iff_exists.mp (List.isSome_max?_of_ne_nil hne)
    have hleast := (List.min?_eq_some_iff.mp hm).2
    have hgreatest := (List.max?_eq_some_iff.mp hM).2
    exact ⟨_,_,m,M,percentile_done hne h₀ (hpq.trans h₁),percentile_done hne (h₀.trans hpq) h₁,
      hm,hM,(quantile_range hne h₀ (hpq.trans h₁) hleast hgreatest).1,quantile_mono hne h₀ hpq h₁,
      (quantile_range hne (h₀.trans hpq) h₁ hleast hgreatest).2⟩
  · have hset : data.set i y ≠ [] := by simpa using hne
    exact ⟨_,_,percentile_done hne h₀ h₁,percentile_done hset h₀ h₁,
      quantile_le (forall₂_set hx hxy) hne h₀ h₁⟩

theorem percentile_quantile_three : ∃ a b m M,
    percentile [30,10,20] 50 = .done (some a) ∧ percentile [30,10,20] 95 = .done (some b) ∧
    [30,10,20].min? = some m ∧ [30,10,20].max? = some M ∧ m ≤ a ∧ a ≤ b ∧ b ≤ M :=
  (percentile_quantile [30,10,20] (by simp)).2.1 50 95 (by norm_num) (by norm_num) (by norm_num)

end Quantiles

end ConcurrentWebServer.LoadClient
