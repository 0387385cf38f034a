import Mathlib.Logic.Function.Basic
import Mathlib.Data.List.Range
import Mathlib.Data.Int.ModEq
import Mathlib.Tactic.Common
set_option autoImplicit false

/-!
A window of `count` cells in an array of `cap` cells, wrapping at the end.
Positions in the window are logical (0 is the first); `cell` gives the index.
-/

namespace CircularArray

def cell (cap : Nat) (head : Int) (i : Nat) : Int := (head+i) % cap

theorem cell_nonneg {cap : Nat} (hc : 0 < cap) (head : Int) (i : Nat) : 0 ≤ cell cap head i :=
  Int.emod_nonneg _ (by omega)

theorem cell_lt {cap : Nat} (hc : 0 < cap) (head : Int) (i : Nat) : cell cap head i < cap :=
  Int.emod_lt_of_pos _ (by omega)

@[simp] theorem cell_zero {cap : Nat} {head : Int} (h₀ : 0 ≤ head) (h : head < cap) :
    cell cap head 0 = head := by
  simpa [cell] using Int.emod_eq_of_lt h₀ h

theorem cell_cap {cap : Nat} {head : Int} (h₀ : 0 ≤ head) (h : head < cap) :
    cell cap head cap = head := by
  simpa [cell] using Int.emod_eq_of_lt h₀ h

theorem cell_succ (cap : Nat) (head : Int) (i : Nat) :
    (cell cap head i + 1) % cap = cell cap head (i+1) := by
  simp [cell,add_assoc]

theorem cell_next (cap : Nat) (head : Int) (i : Nat) :
    cell cap ((head+1) % cap) i = cell cap head (i+1) := by
  simp [cell,add_assoc,add_comm (1 : Int)]

theorem cell_pred (cap : Nat) (head : Int) (i : Nat) :
    (cell cap head (i+1) - 1 + cap) % cap = cell cap head i := by
  simp only [cell,Nat.cast_add,Nat.cast_one]
  rw [Int.add_emod_right,Int.emod_sub_emod]
  congr 1
  omega

theorem cell_injective {cap : Nat} {head : Int} {i j : Nat} (hi : i < cap) (hj : j < cap)
    (h : cell cap head i = cell cap head j) : i = j := by
  have hm : (i : Int) ≡ j [ZMOD cap] := Int.ModEq.add_left_cancel' head h
  have hij : (i : Int) = j := by
    rw [← Int.emod_eq_of_lt (Int.natCast_nonneg i) (Int.ofNat_lt.mpr hi),
      ← Int.emod_eq_of_lt (Int.natCast_nonneg j) (Int.ofNat_lt.mpr hj)]
    exact hm
  omega

def cells (cap : Nat) (head : Int) (count : Nat) : List Int :=
  (List.range count).map (cell cap head)

theorem mem_cells {cap count : Nat} {head k : Int} :
    k ∈ cells cap head count ↔ ∃ i < count, cell cap head i = k := by
  simp [cells]

theorem cell_mem_cells {cap count i : Nat} {head : Int} (hi : i < count) :
    cell cap head i ∈ cells cap head count :=
  mem_cells.mpr ⟨i,hi,rfl⟩

theorem cell_count_not_mem {cap count : Nat} {head : Int} (h : count < cap) :
    cell cap head count ∉ cells cap head count := by
  intro hm
  obtain ⟨i,hi,he⟩ := mem_cells.mp hm
  have := cell_injective (by omega) h he
  omega

variable {α : Type}

def view (slots : Int → α) (cap : Nat) (head : Int) (count : Nat) : List α :=
  (List.range count).map fun i => slots (cell cap head i)

@[simp] theorem view_length (slots : Int → α) (cap : Nat) (head : Int) (count : Nat) :
    (view slots cap head count).length = count := by simp [view]

@[simp] theorem view_getElem (slots : Int → α) (cap : Nat) (head : Int) (count i : Nat)
    (h : i < (view slots cap head count).length) :
    (view slots cap head count)[i] = slots (cell cap head i) := by simp [view]

theorem view_congr {slots slots' : Int → α} {cap count : Nat} {head : Int}
    (h : ∀ i < count, slots' (cell cap head i) = slots (cell cap head i)) :
    view slots' cap head count = view slots cap head count := by
  apply List.map_congr_left
  intro i hi
  exact h i (List.mem_range.mp hi)

theorem view_push (slots : Int → α) {cap count : Nat} {head : Int} (h : count < cap) (x : α) :
    view (Function.update slots (cell cap head count) x) cap head (count+1) =
      view slots cap head count ++ [x] := by
  have hkept : ∀ i < count, Function.update slots (cell cap head count) x (cell cap head i) =
      slots (cell cap head i) := by
    intro i hi
    refine Function.update_of_ne (fun he => ?_) _ _
    have := cell_injective (by omega) h he
    omega
  rw [← view_congr hkept]
  simp [view,List.range_succ]

theorem view_pop (slots : Int → α) {cap count : Nat} {head : Int} (h₀ : 0 ≤ head)
    (hh : head < cap) :
    view slots cap head (count+1) =
      slots head :: view slots cap ((head+1) % cap) count := by
  simp only [view,List.range_succ_eq_map,List.map_cons,List.map_map,cell_zero h₀ hh]
  congr 1
  apply List.map_congr_left
  intro i _
  simp [cell_next]

/-- Moving every entry after position `m` one place down erases position `m`. -/
theorem view_erase {slots slots' : Int → α} {cap count m : Nat} {head : Int} (hm : m < count+1)
    (hbefore : ∀ i < m, slots' (cell cap head i) = slots (cell cap head i))
    (hafter : ∀ i, m ≤ i → i < count →
      slots' (cell cap head i) = slots (cell cap head (i+1))) :
    view slots' cap head count = (view slots cap head (count+1)).eraseIdx m := by
  apply List.ext_getElem
  · rw [List.length_eraseIdx_of_lt (by simpa using hm)]
    simp
  · intro i h₁ h₂
    simp only [view_length] at h₁
    rw [List.getElem_eraseIdx]
    split
    · rename_i hi
      simp [hbefore i hi]
    · rename_i hi
      simp [hafter i (by omega) h₁]

end CircularArray
