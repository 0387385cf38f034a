import Mathlib.Data.List.Infix
import Mathlib.Data.List.TakeDrop
import Mathlib.Tactic.Common
set_option autoImplicit false

/-!
A list cut into segments of at most `room` entries. A segment also ends with
the first entry that stops it, which is its last one.
-/

namespace Segments

variable {α : Type} (stops : α → Bool)

structure Admissible (room : Nat) (l d : List α) : Prop where
  front : d <+: l
  length_le : d.length ≤ room
  closed : ∀ a x e, d = a ++ x :: e → stops x = true → e = []

structure IsSegment (room : Nat) (l d : List α) : Prop where
  admissible : Admissible stops room l d
  longest : ∀ e, Admissible stops room l e → e.length ≤ d.length

def firstSegment : Nat → List α → List α
  | 0, _ => []
  | _+1, [] => []
  | room+1, c :: r => if stops c then [c] else c :: firstSegment room r

def segments (room : Nat) : Nat → List α → List (List α)
  | 0, _ => []
  | n+1, l =>
      firstSegment stops room l :: segments room n (l.drop (firstSegment stops room l).length)

def remainder (room : Nat) : Nat → List α → List α
  | 0, l => l
  | n+1, l => remainder room n (l.drop (firstSegment stops room l).length)

/-- `l` cut into `pieces`, with `rest` behind them: each piece ends with an
entry that stops it, at the room, or where there is nothing more. -/
structure Divides (room : Nat) (l : List α) (pieces : List (List α)) (rest : List α) : Prop where
  whole : pieces.flatten ++ rest = l
  length_le : ∀ p ∈ pieces, p.length ≤ room
  closed : ∀ p ∈ pieces, ∀ a x e, p = a ++ x :: e → stops x = true → e = []
  ends : ∀ ps p qs, pieces = ps ++ p :: qs → (∀ x, p.getLast? = some x → stops x = false) →
    p.length ≠ room → qs.flatten = [] ∧ rest = []

section Segment

variable {stops} {room : Nat} {l d : List α}

@[simp] theorem firstSegment_nil (room : Nat) : firstSegment stops room [] = [] := by
  cases room <;> rfl

theorem firstSegment_front (room : Nat) (l : List α) : firstSegment stops room l <+: l := by
  induction room generalizing l with
  | zero => exact List.nil_prefix
  | succ room ih =>
    cases l with
    | nil => exact List.nil_prefix
    | cons c r =>
      unfold firstSegment
      split_ifs
      · exact (List.prefix_cons_inj c).mpr List.nil_prefix
      · exact (List.prefix_cons_inj c).mpr (ih r)

theorem firstSegment_length_le (room : Nat) (l : List α) :
    (firstSegment stops room l).length ≤ room := by
  induction room generalizing l with
  | zero => exact Nat.le_refl 0
  | succ room ih =>
    cases l with
    | nil => exact Nat.zero_le _
    | cons c r =>
      have hr := ih r
      unfold firstSegment
      split_ifs
      · simp
      · rw [List.length_cons]
        omega

theorem firstSegment_closed {a e : List α} {x : α} (h : firstSegment stops room l = a ++ x :: e)
    (hx : stops x = true) : e = [] := by
  induction room generalizing l a with
  | zero => simp [firstSegment] at h
  | succ room ih =>
    cases l with
    | nil => simp at h
    | cons c r =>
      unfold firstSegment at h
      split_ifs at h with hc
      · cases a with
        | nil => exact (List.cons.inj h).2.symm
        | cons y a => simp at h
      · cases a with
        | nil =>
          have hcx : c = x := (List.cons.inj h).1
          exact absurd (hcx ▸ hx) hc
        | cons y a => exact ih (List.cons.inj h).2

theorem firstSegment_admissible (room : Nat) (l : List α) :
    Admissible stops room l (firstSegment stops room l) :=
  ⟨firstSegment_front room l,firstSegment_length_le room l,fun _ _ _ => firstSegment_closed⟩

theorem firstSegment_longest {e : List α} (h : Admissible stops room l e) :
    e.length ≤ (firstSegment stops room l).length := by
  induction room generalizing l e with
  | zero => exact h.length_le
  | succ room ih =>
    cases l with
    | nil => exact h.front.length_le
    | cons c r =>
      cases e with
      | nil => exact Nat.zero_le _
      | cons y e =>
        obtain ⟨rfl,hfront⟩ := List.cons_prefix_cons.mp h.front
        unfold firstSegment
        split_ifs with hy
        · rw [h.closed [] y e rfl hy]
        · refine Nat.succ_le_succ (ih ⟨hfront,Nat.le_of_succ_le_succ h.length_le,?_⟩)
          intro a x t ht hx
          exact h.closed (y :: a) x t (by rw [ht]; rfl) hx

/-- There is one segment, and `firstSegment` computes it. -/
theorem isSegment_iff : IsSegment stops room l d ↔ d = firstSegment stops room l := by
  constructor
  · intro h
    have hle := firstSegment_longest h.admissible
    have hge := h.longest _ (firstSegment_admissible room l)
    have hfront := @firstSegment_front _ stops room l
    have hprefix := List.prefix_of_prefix_length_le h.admissible.front hfront hle
    exact hprefix.eq_of_length (Nat.le_antisymm hle hge)
  · intro h
    rw [h]
    exact ⟨firstSegment_admissible room l,fun _ => firstSegment_longest⟩

theorem firstSegment_eq_take (h : ∀ x ∈ l.take room, stops x = false) :
    firstSegment stops room l = l.take room := by
  induction room generalizing l with
  | zero => rfl
  | succ room ih =>
    cases l with
    | nil => rfl
    | cons c r =>
      rw [List.take_succ_cons,List.forall_mem_cons] at h
      rw [firstSegment,h.1,if_neg (by simp),ih h.2,List.take_succ_cons]

theorem firstSegment_ends (room : Nat) (l : List α) :
    (∃ x, (firstSegment stops room l).getLast? = some x ∧ stops x = true) ∨
      (firstSegment stops room l).length = room ∨ firstSegment stops room l = l := by
  induction room generalizing l with
  | zero => exact .inr (.inl rfl)
  | succ room ih =>
    cases l with
    | nil => exact .inr (.inr rfl)
    | cons c r =>
      unfold firstSegment
      split_ifs with hc
      · exact .inl ⟨c,rfl,hc⟩
      · rcases ih r with ⟨x,hx,hstop⟩ | hfull | hall
        · refine .inl ⟨x,?_,hstop⟩
          cases hs : firstSegment stops room r with
          | nil => simp [hs] at hx
          | cons y t =>
            rw [hs] at hx
            exact hx
        · exact .inr (.inl (congrArg Nat.succ hfull))
        · exact .inr (.inr (congrArg (c :: ·) hall))

theorem firstSegment_clear_iff :
    (∀ x ∈ firstSegment stops room l, stops x = false) ↔ ∀ x ∈ l.take room, stops x = false := by
  constructor
  · intro h
    have hfront := @firstSegment_front _ stops room l
    rcases @firstSegment_ends _ stops room l with ⟨x,hx,hstop⟩ | hfull | hall
    · rw [h x (List.mem_of_getLast? hx)] at hstop
      cases hstop
    · rw [List.prefix_iff_eq_take.mp hfront,hfull] at h
      exact h
    · intro x hx
      rw [hall] at h
      exact h x (List.mem_of_mem_take hx)
  · intro h
    rw [firstSegment_eq_take h]
    exact h

theorem firstSegment_append_drop (room : Nat) (l : List α) :
    firstSegment stops room l ++ l.drop (firstSegment stops room l).length = l :=
  (List.prefix_append_drop (firstSegment_front room l)).symm

end Segment

section Partition

variable {stops}

@[simp] theorem segments_length (room n : Nat) (l : List α) :
    (segments stops room n l).length = n := by
  induction n generalizing l with
  | zero => rfl
  | succ n ih => rw [segments,List.length_cons,ih]

theorem segments_flatten (room n : Nat) (l : List α) :
    (segments stops room n l).flatten ++ remainder stops room n l = l := by
  induction n generalizing l with
  | zero => rfl
  | succ n ih =>
    rw [segments,remainder,List.flatten_cons,List.append_assoc,ih,firstSegment_append_drop]

theorem mem_segments {room n : Nat} {l p : List α} (h : p ∈ segments stops room n l) :
    ∃ l', p = firstSegment stops room l' := by
  induction n generalizing l with
  | zero => cases h
  | succ n ih =>
    cases List.mem_cons.mp h with
    | inl he => exact ⟨l,he⟩
    | inr hr => exact ih hr

theorem segments_short {room n : Nat} {l p : List α} {qs rs : List (List α)}
    (h : segments stops room n l = qs ++ p :: rs)
    (hlast : ∀ x, p.getLast? = some x → stops x = false) (hroom : p.length ≠ room) :
    rs.flatten ++ remainder stops room n l = [] := by
  induction n generalizing l qs with
  | zero => simp [segments] at h
  | succ n ih =>
    rw [segments] at h
    rw [remainder]
    cases qs with
    | nil =>
      obtain ⟨hp,hrs⟩ := List.cons.inj h
      rw [← hrs,segments_flatten]
      rcases @firstSegment_ends _ stops room l with ⟨x,hx,hstop⟩ | hfull | hall
      · rw [hp] at hx
        rw [hlast x hx] at hstop
        cases hstop
      · exact absurd (hp ▸ hfull) hroom
      · rw [hall,List.drop_length]
    | cons q qs => exact ih (List.cons.inj h).2

theorem segments_divide (room n : Nat) (l : List α) :
    Divides stops room l (segments stops room n l) (remainder stops room n l) where
  whole := segments_flatten room n l
  length_le := by
    intro p hp
    obtain ⟨l',rfl⟩ := mem_segments hp
    exact firstSegment_length_le room l'
  closed := by
    intro p hp a x e he hx
    obtain ⟨l',rfl⟩ := mem_segments hp
    exact firstSegment_closed he hx
  ends := by
    intro ps p qs he hlast hroom
    exact List.append_eq_nil_iff.mp (segments_short he hlast hroom)

end Partition

end Segments
