import ConcurrentWebServer.BufferRefinement
set_option autoImplicit false

/-! How many rounds the compaction loop of `buffer_get` makes, and the slots it
stores to, for any removed request. -/

namespace ConcurrentWebServer.Queueing
open Execution CircularArray

section Rounds

variable {α : Type}

def Shift.writes (cap : Nat) (tail : Int) : Nat → Shift α → List Int
  | 0, _ => []
  | fuel+1, s => if s.next != tail then s.cur :: (s.step cap).writes cap tail fuel else []

theorem Shifted.writes {b : Buffer α} (h : b.WellFormed) {m k : Nat} {old : Int → α}
    {s : Shift α} (hs : Shifted b.cap b.head m k old s) (hk : m+k < b.count) {fuel : Nat}
    (hfuel : b.count-1-(m+k) ≤ fuel) :
    s.writes b.cap b.tail fuel =
      (List.range' (m+k) (b.count-1-(m+k))).map (cell b.cap b.head) := by
  have hle := h.count_le
  induction fuel generalizing k s with
  | zero =>
    rw [Nat.le_zero.mp hfuel]
    rfl
  | succ fuel ih =>
    unfold Shift.writes
    rw [hs.test h hk]
    by_cases hlt : m+k+1 < b.count
    · have hn : b.count-1-(m+k) = b.count-1-(m+(k+1))+1 := by omega
      rw [decide_eq_true hlt,if_pos rfl,hn,List.range'_succ,List.map_cons,hs.cur]
      rw [ih (hs.step h (by omega)) hlt (by omega)]
      rfl
    · have hn : b.count-1-(m+k) = 0 := by omega
      rw [decide_eq_false hlt,if_neg (by simp),hn]
      rfl

/-- The compaction loop makes one round for each entry after the removed one,
full buffers included, and ends at the new tail. It changes no slot but those
of the entries from the removed one on. -/
theorem compaction_rounds {b : Buffer α} (h : b.WellFormed) {m : Nat} (hm : m < b.count) :
    ∃ s,
      (∀ fuel, b.compactFrom m fuel = if b.count-1-m ≤ fuel then .done s else .unfinished) ∧
      s.cur = (b.tail-1+b.cap) % b.cap ∧
      (∀ fuel, b.count-1-m ≤ fuel →
        ((b.shiftFrom m).writes b.cap b.tail fuel).length = b.count-1-m ∧
        ∀ w ∈ (b.shiftFrom m).writes b.cap b.tail fuel,
          ∃ i, m ≤ i ∧ i < b.count ∧ w = (b.head+i) % b.cap) ∧
      ∀ j, (∀ i, m ≤ i → i < b.count → (b.head+i) % b.cap ≠ j) → s.slots j = b.slots j := by
  obtain ⟨s,hs,hloop⟩ := compactFrom_done h hm
  refine ⟨s,hloop,?_,fun fuel hfuel => ?_,fun j hj => ?_⟩
  · have hlast : m+(b.count-1-m) = b.count-1 := by omega
    have hpred := cell_pred b.cap b.head (b.count-1)
    have htail : cell b.cap b.head (b.count-1+1) = b.tail := by
      rw [Nat.sub_add_cancel (by omega),h.tail_eq]
      rfl
    rw [htail] at hpred
    rw [hs.cur,hlast,hpred]
  · have hw := (shifted_start h m).writes h hm hfuel
    have hstart : (b.shiftFrom m).writes b.cap b.tail fuel =
        (List.range' m (b.count-1-m)).map (cell b.cap b.head) := hw
    rw [hstart]
    refine ⟨by simp,fun w hmem => ?_⟩
    obtain ⟨i,hi,rfl⟩ := List.mem_map.mp hmem
    rw [List.mem_range'_1] at hi
    exact ⟨i,hi.1,by omega,rfl⟩
  · exact hs.kept j fun i hmi hik => hj i hmi (by omega)

theorem compaction_rounds_wrapped :
    ∃ s,
      (∀ fuel, wrappedBuffer.compactFrom 0 fuel = if 2 ≤ fuel then .done s else .unfinished) ∧
      s.cur = (wrappedBuffer.tail-1+wrappedBuffer.cap) % wrappedBuffer.cap ∧
      (∀ fuel, 2 ≤ fuel →
        ((wrappedBuffer.shiftFrom 0).writes 3 2 fuel).length = 2 ∧
        ∀ w ∈ (wrappedBuffer.shiftFrom 0).writes 3 2 fuel,
          ∃ i : Nat, 0 ≤ i ∧ i < 3 ∧ w = (2+i) % 3) ∧
      ∀ j : Int, (∀ i : Nat, 0 ≤ i → i < 3 → (2+i) % 3 ≠ j) → s.slots j = wrappedBuffer.slots j :=
  compaction_rounds wrappedBuffer_wellFormed (m := 0) (by decide)

end Rounds

end ConcurrentWebServer.Queueing
