import ConcurrentWebServer.PollingWorkers
import Mathlib.Algebra.Order.BigOperators.Group.Finset
set_option autoImplicit false

/-! Once the flag is set the workers come to an end, and as long as it is not
some worker can go on. -/

namespace Polling

section Measure

/-- A worker is looked at as if it found the queue empty at once. -/
def Worker.stepsLeft {I : Type} : Worker I → Nat
  | .serving _ => 4
  | .finishing _ => 3
  | .getting => 2
  | .empty => 1
  | .exited => 0

def Main.stepsLeft : Main → Nat
  | .putting => 2
  | .joining => 1
  | .joined => 0

variable {W I R : Type} [Fintype W] {s s' : Phase W I R}

def Phase.stepsLeft (s : Phase W I R) : Nat :=
  3*s.queue.length + ∑ w, (s.worker w).stepsLeft + s.main.stepsLeft

variable [DecidableEq W] {maxsize : Nat} {makes : I → R → Prop} {a : Act}

theorem Phase.work_less (s : Phase W I R) (w : W) (p : Worker I) (queue : List I) (rows : List R)
    (n : Nat) (h : 3*queue.length + p.stepsLeft < 3*s.queue.length + (s.worker w).stepsLeft) :
    Phase.stepsLeft { s.move w p with queue := queue, rows := rows, unfinished := n } <
      s.stepsLeft := by
  have hsum := MesaMonitor.sum_update Worker.stepsLeft s.worker w p
  change 3*queue.length + ∑ u, (Function.update s.worker w p u).stepsLeft + s.main.stepsLeft <
    3*s.queue.length + ∑ u, (s.worker u).stepsLeft + s.main.stepsLeft
  omega

theorem step_less (hm : s.main ≠ .putting) (hstop : s.stop = true)
    (hl : Step maxsize makes s a s') :
    s'.stepsLeft < s.stepsLeft ∧ s'.main ≠ .putting ∧ s'.stop = true ∧ a = .other ∧
      s'.dispatched = s.dispatched := by
  cases hl with
  | put _ hput _ => exact absurd hput hm
  | set hput => exact absurd hput hm
  | @get w i rest hw hq =>
    refine ⟨s.work_less w (.serving i) rest s.rows s.unfinished ?_,hm,hstop,rfl,rfl⟩
    rw [hw,hq,List.length_cons]
    change 3*rest.length+4 < 3*(rest.length+1)+2
    omega
  | timeout w hw _ =>
    refine ⟨s.work_less w .empty s.queue s.rows s.unfinished ?_,hm,hstop,rfl,rfl⟩
    rw [hw]
    exact Nat.lt_succ_self _
  | test w hw =>
    rw [hstop,if_pos rfl]
    refine ⟨s.work_less w .exited s.queue s.rows s.unfinished ?_,hm,hstop,rfl,rfl⟩
    rw [hw]
    exact Nat.lt_succ_self _
  | @append w i r hw _ =>
    refine ⟨s.work_less w (.finishing i) s.queue (s.rows ++ [r]) s.unfinished ?_,hm,hstop,rfl,rfl⟩
    rw [hw]
    exact Nat.lt_succ_self _
  | @taskDone w i n hw _ =>
    refine ⟨s.work_less w .getting s.queue s.rows n ?_,hm,hstop,rfl,rfl⟩
    rw [hw]
    exact Nat.lt_succ_self _
  | join hj _ =>
    refine ⟨?_,by simp,hstop,rfl,rfl⟩
    simp only [Phase.stepsLeft,hj,Main.stepsLeft]
    omega

inductive Goes (maxsize : Nat) (makes : I → R → Prop) : Nat → Phase W I R → Phase W I R → Prop where
  | start (s : Phase W I R) : Goes maxsize makes 0 s s
  | step {n : Nat} {s s' s'' : Phase W I R} {a : Act} :
      Goes maxsize makes n s s' → Step maxsize makes s' a s'' → Goes maxsize makes (n+1) s s''

theorem goes_bounded (hm : s.main ≠ .putting) (hstop : s.stop = true) {n : Nat}
    (hg : Goes maxsize makes n s s') :
    n + s'.stepsLeft ≤ s.stepsLeft ∧ s'.main ≠ .putting ∧ s'.stop = true ∧
      s'.dispatched = s.dispatched := by
  induction hg with
  | start s => exact ⟨by omega,hm,hstop,rfl⟩
  | step _ hl ih =>
    obtain ⟨hle,hm',hstop',hd⟩ := ih hm hstop
    obtain ⟨hless,hm'',hstop'',_,hd'⟩ := step_less hm' hstop' hl
    exact ⟨by omega,hm'',hstop'',hd'.trans hd⟩

theorem Goes.runs {g : Phase W I R → Act → Prop} (hother : ∀ t, g t .other)
    (hm : s.main ≠ .putting) (hstop : s.stop = true) {n : Nat}
    (hg : Goes maxsize makes n s s') : Runs maxsize makes g s s' := by
  induction hg with
  | start s => exact .refl
  | step hg hl ih =>
    obtain ⟨_,hm',hstop',_⟩ := goes_bounded hm hstop hg
    obtain ⟨_,_,_,rfl,_⟩ := step_less hm' hstop' hl
    exact (ih hm hstop).tail ⟨.other,hl,hother _⟩

theorem comes_to_end (hm : s.main ≠ .putting) (hstop : s.stop = true) :
    ∃ n s', Goes maxsize makes n s s' ∧ ¬ ∃ a s'', Step maxsize makes s' a s'' := by
  by_contra hno
  -- a run that can always go on gets longer than it can be
  have hlong : ∀ n, ∃ s', Goes maxsize makes n s s' := by
    intro n
    induction n with
    | zero => exact ⟨s,.start s⟩
    | succ n ih =>
      obtain ⟨s',hg⟩ := ih
      by_contra hstuck
      refine hno ⟨n,s',hg,fun hstep => ?_⟩
      obtain ⟨a,s'',hl⟩ := hstep
      exact hstuck ⟨s'',hg.step hl⟩
  obtain ⟨s',hg⟩ := hlong (s.stepsLeft+1)
  have hle := (goes_bounded hm hstop hg).1
  omega

end Measure

section Deadlock

variable {W I R K : Type} [Fintype W] [DecidableEq W] {key : I → K} {item : R → K}
  {maxsize : Nat} {makes : I → R → Prop} {s s' : Phase W I R}

theorem worker_moves (hsome : ∀ i, ∃ r, makes i r) (h : Kept key item s) {w : W}
    (hw : s.worker w ≠ .exited) :
    ∃ s', Step maxsize makes s .other s' ∧ s'.dispatched = s.dispatched := by
  cases hp : s.worker w with
  | exited => exact absurd hp hw
  | empty => exact ⟨_,.test w hp,rfl⟩
  | getting =>
    cases hq : s.queue with
    | nil => exact ⟨_,.timeout w hp hq,rfl⟩
    | cons i rest => exact ⟨_,.get w hp hq,rfl⟩
  | serving i =>
    obtain ⟨r,hr⟩ := hsome i
    exact ⟨_,.append w r hp hr,rfl⟩
  | finishing i =>
    have hone : (s.worker w).undone ≤ ∑ u, (s.worker u).undone :=
      Finset.single_le_sum (f := fun u => (s.worker u).undone) (fun _ _ => Nat.zero_le _)
        (Finset.mem_univ w)
    have hcount := h.count
    rw [hp] at hone
    change 1 ≤ _ at hone
    exact ⟨_,.taskDone w hp (n := s.unfinished-1) (by omega),rfl⟩

structure Phase.Ended (s : Phase W I R) : Prop where
  joined : s.main = .joined
  exited (w : W) : s.worker w = .exited
  queue : s.queue = []

theorem moves_or_ends (hsome : ∀ i, ∃ r, makes i r) (h : Kept key item s)
    (hm : s.main ≠ .putting) :
    (∃ a s', Step maxsize makes s a s') ∨ s.Stranded ∨ s.Ended := by
  by_cases hexit : ∀ w, s.worker w = .exited
  · by_cases hq : s.queue = []
    · have hzero : s.unfinished = 0 := by
        rw [h.count,hq]
        simp [hexit,Worker.undone]
      cases hj : s.main with
      | putting => exact absurd hj hm
      | joining => exact .inl ⟨_,_,.join hj hzero⟩
      | joined => exact .inr (.inr ⟨hj,hexit,hq⟩)
    · exact .inr (.inl ⟨hexit,hq⟩)
  · rw [not_forall] at hexit
    obtain ⟨w,hw⟩ := hexit
    obtain ⟨s',hl,_⟩ : ∃ s', Step maxsize makes s .other s' ∧ _ := worker_moves hsome h hw
    exact .inl ⟨_,s',hl⟩

end Deadlock

end Polling
