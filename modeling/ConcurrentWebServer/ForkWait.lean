import Mathlib.Data.Finset.Card
import Mathlib.Data.Fintype.Defs
import Mathlib.Data.List.Nodup
import Mathlib.Tactic.Common
set_option autoImplicit false

/-!
Threads of one process that fork and wait. A wait is for no child in
particular, so a thread can be given the child of another one.
-/

namespace ForkWait

structure Child (D : Type) where
  pid : Nat
  data : D
  exited : Bool

/-- `wait(NULL)` reaps any child that has exited, and fails with ECHILD if there
are none at all; else it blocks. -/
inductive Wait {D : Type} : List (Child D) → Option (List (Child D)) → Prop where
  | reaped (left right : List (Child D)) {child : Child D} :
      child.exited = true → Wait (left ++ child :: right) (some (left ++ right))
  | echild : Wait [] none

section Lists

variable {D : Type} {children rest left right : List (Child D)} {old new c : Child D}

theorem Wait.sublist (h : Wait children (some rest)) : rest.Sublist children := by
  cases h with
  | reaped _ _ _ => exact (List.Sublist.refl _).append (List.sublist_cons_self _ _)

theorem Wait.length (h : Wait children (some rest)) : rest.length + 1 = children.length := by
  cases h with
  | reaped _ _ _ =>
    simp only [List.length_append,List.length_cons]
    omega

theorem Wait.nil (h : Wait children none) : children = [] := by
  cases h with
  | echild => rfl

theorem mem_of_replace (old : Child D) (h : c ∈ left ++ new :: right) :
    c = new ∨ c ∈ left ++ old :: right := by
  simp only [List.mem_append,List.mem_cons] at h ⊢
  tauto

end Lists

/-- The unreaped children, how many there have been, and for which child each
thread is waiting: they are numbered in the order of their forks. -/
structure Family (T D : Type) where
  children : List (Child D)
  forks : Nat
  awaited : T → Option Nat

section Steps

variable {T D : Type} [DecidableEq T]

inductive Step : Family T D → Family T D → Prop where
  | fork {s : Family T D} {t : T} (data : D) :
      s.awaited t = none →
      Step s
        { children := s.children ++ [⟨s.forks,data,false⟩]
          forks := s.forks+1
          awaited := Function.update s.awaited t (some s.forks) }
  | alter {s : Family T D} {left right : List (Child D)} {child : Child D} (data : D)
      (exited : Bool) :
      s.children = left ++ child :: right → child.exited = false →
      Step s { s with children := left ++ ⟨child.pid,data,exited⟩ :: right }
  | wait {s : Family T D} {t : T} {own : Nat} {rest : List (Child D)} :
      s.awaited t = some own → Wait s.children (some rest) →
      Step s { s with children := rest, awaited := Function.update s.awaited t none }

variable {s s' : Family T D}

structure Family.Numbered (s : Family T D) : Prop where
  distinct : (s.children.map Child.pid).Nodup
  below : ∀ c ∈ s.children, c.pid < s.forks
  awaited : ∀ t own, s.awaited t = some own → own < s.forks

theorem awaited_of_update {f : T → Option Nat} {t u : T} {o : Option Nat} {own : Nat}
    (h : Function.update f t o u = some own) : u = t ∧ o = some own ∨ f u = some own := by
  by_cases hu : u = t
  · subst hu
    rw [Function.update_self] at h
    exact .inl ⟨rfl,h⟩
  · rw [Function.update_of_ne hu] at h
    exact .inr h

theorem step_numbered (h : s.Numbered) (hl : Step s s') : s'.Numbered := by
  cases hl with
  | fork data ht =>
    refine ⟨?_,fun c hc => ?_,fun u own hu => ?_⟩
    · rw [List.map_append,List.nodup_append]
      refine ⟨h.distinct,List.nodup_singleton _,fun p hp q hq => ?_⟩
      obtain ⟨c,hc,rfl⟩ := List.mem_map.mp hp
      rw [List.map_singleton,List.mem_singleton] at hq
      have hlt := h.below c hc
      change q = s.forks at hq
      omega
    · rcases List.mem_append.mp hc with hc | hc
      · exact Nat.lt_succ_of_lt (h.below c hc)
      · rw [List.mem_singleton.mp hc]
        exact Nat.lt_succ_self _
    · rcases awaited_of_update hu with ⟨_,hown⟩ | hu
      · cases hown
        exact Nat.lt_succ_self _
      · exact Nat.lt_succ_of_lt (h.awaited u own hu)
  | @alter left right child data exited hc _ =>
    obtain ⟨hdistinct,hbelow,hawaited⟩ := h
    rw [hc] at hdistinct hbelow
    refine ⟨by simpa using hdistinct,fun c hm => ?_,hawaited⟩
    rcases mem_of_replace child hm with rfl | hm
    · exact hbelow child (by simp)
    · exact hbelow c hm
  | wait _ hw =>
    refine ⟨h.distinct.sublist (hw.sublist.map _),fun c hm => h.below c (hw.sublist.mem hm),
      fun u own hu => ?_⟩
    rcases awaited_of_update hu with ⟨_,hnone⟩ | hu
    · cases hnone
    · exact h.awaited u own hu

def Family.Ended (s : Family T D) (pid : Nat) : Prop :=
  pid < s.forks ∧ ∀ c ∈ s.children, c.pid = pid → c.exited = true

theorem step_ended {pid : Nat} (h : s.Ended pid) (hl : Step s s') : s'.Ended pid := by
  obtain ⟨hlt,hend⟩ := h
  cases hl with
  | fork data ht =>
    refine ⟨Nat.lt_succ_of_lt hlt,fun c hc hp => ?_⟩
    rcases List.mem_append.mp hc with hc | hc
    · exact hend c hc hp
    · rw [List.mem_singleton.mp hc] at hp
      change s.forks = pid at hp
      omega
  | @alter left right child data exited hc hrun =>
    rw [hc] at hend
    refine ⟨hlt,fun c hm hp => ?_⟩
    rcases mem_of_replace child hm with rfl | hm
    · have hdone := hend child (by simp) hp
      rw [hrun] at hdone
      cases hdone
    · exact hend c hm hp
  | wait _ hw => exact ⟨hlt,fun c hm hp => hend c (hw.sublist.mem hm) hp⟩

def Family.Fair (s : Family T D) (own : Nat) : Prop :=
  (∃ c ∈ s.children, c.exited = true ∧ c.pid ≠ own) →
    ∀ c ∈ s.children, c.pid = own → c.exited = true

omit [DecidableEq T] in
/-- A wait is sure to be for the own child in this case only. -/
theorem fair_iff (h : s.Numbered) (own : Nat) :
    s.Fair own ↔ ∀ rest, Wait s.children (some rest) →
      ∀ c ∈ rest, c.pid = own → c.exited = true := by
  have hdistinct := h.distinct
  rw [Family.Fair]
  generalize s.children = children at hdistinct ⊢
  constructor
  · intro hfair rest hw
    cases hw with
    | @reaped left right child hexit =>
      intro c hc hp
      by_cases howns : child.pid = own
      · rw [List.map_append,List.map_cons] at hdistinct
        have hnot := (List.nodup_middle.mp hdistinct).notMem
        rw [← List.map_append,howns,← hp] at hnot
        exact absurd (List.mem_map_of_mem hc) hnot
      · have hsub : (left ++ right).Sublist (left ++ child :: right) :=
          (Wait.reaped left right hexit).sublist
        exact hfair ⟨child,by simp,hexit,howns⟩ c (hsub.mem hc) hp
  · rintro hwait ⟨child,hm,hexit,hforeign⟩ c hc hp
    obtain ⟨left,right,rfl⟩ := List.append_of_mem hm
    refine hwait _ (.reaped left right hexit) c ?_ hp
    have hne : c ≠ child := by
      rintro rfl
      exact hforeign hp
    simpa [hne] using hc

def Family.Alone (s : Family T D) : Prop :=
  ∀ t, s.children.map Child.pid = (s.awaited t).toList

theorem step_alone [Subsingleton T] (h : s.Alone) (hl : Step s s') : s'.Alone := by
  cases hl with
  | @fork t data ht =>
    intro u
    have hnil := h t
    rw [ht,Option.toList_none] at hnil
    rw [Subsingleton.elim u t]
    simp [hnil]
  | alter data exited hc _ =>
    intro u
    have hu := h u
    rw [hc] at hu
    simpa using hu
  | @wait t own rest ht hw =>
    intro u
    have hlen := congrArg List.length (h t)
    rw [ht,List.length_map,Option.toList_some,List.length_singleton,← hw.length] at hlen
    rw [Subsingleton.elim u t,List.length_eq_zero_iff.mp (show rest.length = 0 by omega)]
    simp

omit [DecidableEq T] in
theorem Family.Alone.fair (h : s.Alone) {t : T} {own : Nat} (ht : s.awaited t = some own) :
    s.Fair own := by
  rintro ⟨c,hc,_,hforeign⟩
  have hm := List.mem_map_of_mem (f := Child.pid) hc
  rw [h t,ht,Option.toList_some,List.mem_singleton] at hm
  exact absurd hm hforeign

end Steps

section Counting

variable {T D : Type} [Fintype T]

def Family.waiting (s : Family T D) : Nat :=
  (Finset.univ.filter fun t => (s.awaited t).isSome).card

def Family.Balanced (s : Family T D) : Prop := s.children.length = s.waiting

variable {s s' : Family T D}

theorem Family.Balanced.no_echild (h : s.Balanced) {t : T} {own : Nat}
    (ht : s.awaited t = some own) : ¬ Wait s.children none := by
  intro hw
  have hmem : t ∈ Finset.univ.filter fun t => (s.awaited t).isSome := by simp [ht]
  have hpos : 0 < s.waiting := Finset.card_pos.mpr ⟨t,hmem⟩
  rw [Family.Balanced,hw.nil,List.length_nil] at h
  omega

theorem Family.Balanced.all_reaped (h : s.Balanced) (ht : ∀ t, s.awaited t = none) :
    s.children = [] := by
  have hzero : s.waiting = 0 := by simp [Family.waiting,ht]
  exact List.length_eq_zero_iff.mp (h.trans hzero)

variable [DecidableEq T]

theorem waiters_fork {f : T → Option Nat} {t : T} (ht : f t = none) (own : Nat) :
    (Finset.univ.filter fun u => (Function.update f t (some own) u).isSome).card =
      (Finset.univ.filter fun u => (f u).isSome).card + 1 := by
  have hset : (Finset.univ.filter fun u => (Function.update f t (some own) u).isSome) =
      insert t (Finset.univ.filter fun u => (f u).isSome) := by
    ext u
    by_cases hu : u = t <;> simp [hu]
  rw [hset,Finset.card_insert_of_notMem (by simp [ht])]

theorem waiters_wait {f : T → Option Nat} {t : T} {own : Nat} (ht : f t = some own) :
    (Finset.univ.filter fun u => (Function.update f t none u).isSome).card + 1 =
      (Finset.univ.filter fun u => (f u).isSome).card := by
  have hback : Function.update (Function.update f t none) t (some own) = f := by
    rw [Function.update_idem,← ht,Function.update_eq_self]
  have hfork := waiters_fork (f := Function.update f t none) (Function.update_self _ _ _) own
  rw [hback] at hfork
  exact hfork.symm

/-- Whoever's child a wait takes, it leaves one for each of the others. -/
theorem step_balanced (h : s.Balanced) (hl : Step s s') : s'.Balanced := by
  cases hl with
  | fork data ht =>
    rw [Family.Balanced,Family.waiting,waiters_fork ht,List.length_append,h]
    rfl
  | alter data exited hc _ =>
    rw [Family.Balanced,hc] at h
    simpa [Family.Balanced,Family.waiting] using h
  | wait ht hw =>
    have hlen := hw.length
    have hcount := waiters_wait ht
    rw [Family.Balanced,Family.waiting] at h ⊢
    dsimp only
    omega

end Counting

end ForkWait
