import ConcurrentWebServer.LoadClientModel
import ConcurrentWebServer.PollingProgress
import Mathlib.Data.Fintype.Basic
import Mathlib.Data.Rat.Defs
set_option autoImplicit false

/-! The load phase of `main`: `dispatcher_fn`, the threads that run
`worker_safe`, and `work_q.join()`. -/

namespace ConcurrentWebServer.LoadClient
open Polling

abbrev LoadPhase (F W : Type) := Phase W (Task F) (Row F)

variable {F W : Type} [Neg F] [OfScientific F]

def Answers (task : Task F) (row : Row F) : Prop := ∃ tsMs got, row = workerRow task tsMs got

theorem answers_request (task : Task F) (row : Row F) (h : Answers task row) :
    row.request = task.request := by
  obtain ⟨tsMs,got,rfl⟩ := h
  cases got <;> rfl

/-- When `stop_event` is set, `work_q` is empty or some worker is not between
its `Empty` and its test. -/
def CoveredSet (s : LoadPhase F W) (a : Act) : Prop := a = .set → s.Covered

omit [Neg F] [OfScientific F] in
theorem coveredSet_other (s : LoadPhase F W) : CoveredSet s .other := fun h => by cases h

variable [DecidableEq W]

def LoadRuns (maxsize : Nat) (g : LoadPhase F W → Act → Prop) :
    LoadPhase F W → LoadPhase F W → Prop := Runs maxsize Answers g

def LoadReaches (maxsize : Nat) : LoadPhase F W → LoadPhase F W → Prop :=
  Reaches maxsize Answers

/-- What becomes of the requests that are put in `work_q`. -/
theorem requests_answered (F W : Type) [Neg F] [OfScientific F] [DecidableEq W] [Fintype W]
    [Nonempty W] (maxsize : Nat) :
    (∀ s : LoadPhase F W, LoadRuns maxsize CoveredSet (.start _ _ _) s → ¬ s.Stranded) ∧
    (∀ s : LoadPhase F W, LoadReaches maxsize (.start _ _ _) s → s.main = .joined →
      (s.rows.map Row.request : Multiset (String × FileType)) = s.dispatched.map Task.request) ∧
    ∀ s : LoadPhase F W, LoadReaches maxsize (.start _ _ _) s → s.main = .putting →
      (s.Covered ↔ ∀ s', LoadReaches maxsize s.afterSet s' → ¬ s'.Stranded) := by
  refine ⟨fun s h => runs_not_stranded answers_request h,fun s h hj => ?_,fun s h hm => ?_⟩
  · have hk := runs_kept answers_request h
    exact hk.all_rows (hk.done hj)
  · exact covered_iff answers_request (runs_kept answers_request h) hm

def someTask : Task Rat := ⟨"/small/a.html",.small,0⟩

theorem requests_answered_failing : ∃ s : LoadPhase Rat Unit, s.dispatched = [someTask] ∧
    (s.rows.map Row.request : Multiset (String × FileType)) = s.dispatched.map Task.request ∧
    ¬ s.Stranded := by
  obtain ⟨hsafe,hrows,_⟩ := requests_answered Rat Unit 3
  obtain ⟨s,hrun,hput,hjoined⟩ : ∃ s : LoadPhase Rat Unit, LoadRuns 3 CoveredSet (.start _ _ _) s ∧
      s.dispatched = [someTask] ∧ s.main = .joined :=
    ⟨_,((((((Relation.ReflTransGen.refl).tail
      ⟨.other,.put someTask rfl (by decide),coveredSet_other _⟩).tail
      ⟨.other,.get () rfl rfl,coveredSet_other _⟩).tail ⟨.set,.set rfl,fun _ => .inl rfl⟩).tail
      ⟨.other,.append () (workerRow someTask 1 none) rfl ⟨1,none,rfl⟩,coveredSet_other _⟩).tail
      ⟨.other,.taskDone () rfl rfl,coveredSet_other _⟩).tail
      ⟨.other,.join rfl rfl,coveredSet_other _⟩,rfl,rfl⟩
  exact ⟨s,hput,hrows s hrun.reaches hjoined,hsafe s hrun⟩

/-- The worker finds the queue empty, then come the task and the event, and
then the test. -/
theorem task_stranded : ∃ s : LoadPhase Rat Unit, LoadReaches 3 (.start _ _ _) s ∧
    s.Stranded ∧ s.main = .joining ∧ ¬ ∃ a s', Step 3 Answers s a s' := by
  obtain ⟨s,hrun,hexit,hqueue⟩ : ∃ s : LoadPhase Rat Unit, LoadReaches 3 (.start _ _ _) s ∧
      (∀ w, s.worker w = .exited) ∧ s.queue = [someTask] :=
    ⟨_,((((Relation.ReflTransGen.refl).tail ⟨.other,.timeout () rfl rfl,trivial⟩).tail
      ⟨.other,.put someTask rfl (by decide),trivial⟩).tail
      ⟨.set,.set rfl,trivial⟩).tail ⟨.other,.test () rfl,trivial⟩,fun _ => rfl,rfl⟩
  have hstranded : s.Stranded := ⟨hexit,by rw [hqueue]; simp⟩
  exact ⟨s,hrun,hstranded,stranded_stuck (runs_kept answers_request hrun) hstranded⟩

/-- The load phase goes on as long as the dispatcher does, and behind it comes
to an end with a row for each request, and with all threads gone. -/
theorem load_phase_ends (F W : Type) [Neg F] [OfScientific F] [DecidableEq W] [Fintype W]
    [Nonempty W] {maxsize : Nat} {s : LoadPhase F W}
    (h : LoadRuns maxsize CoveredSet (.start _ _ _) s) :
    (s.main = .putting → ∃ s', Step maxsize Answers s .other s' ∧ s'.dispatched = s.dispatched) ∧
    (s.main ≠ .putting →
      (∀ n s', Goes maxsize Answers n s s' → n + s'.stepsLeft ≤ s.stepsLeft) ∧
      (∀ n s', Goes maxsize Answers n s s' → (¬ ∃ a s'', Step maxsize Answers s' a s'') →
        s'.Ended ∧ s'.rows.length = s.dispatched.length ∧
          (s'.rows.map Row.request : Multiset (String × FileType)) =
            s.dispatched.map Task.request) ∧
      ∃ n s', Goes maxsize Answers n s s' ∧ s'.Ended) := by
  have hsome : ∀ task : Task F, ∃ row, Answers task row := by
    intro task
    exact ⟨_,task.now,none,rfl⟩
  have hk := runs_kept answers_request h
  refine ⟨fun hm => ?_,fun hm => ?_⟩
  · obtain ⟨w⟩ := (inferInstance : Nonempty W)
    exact worker_moves hsome hk (hk.stay hm w)
  · have hstop : s.stop = true := by
      cases hs : s.stop with
      | true => rfl
      | false => exact absurd (hk.stop.mpr hs) hm
    have hend : ∀ n s', Goes maxsize Answers n s s' →
        (¬ ∃ a s'', Step maxsize Answers s' a s'') →
        s'.Ended ∧ Kept Task.request Row.request s' := by
      intro n s' hg hstuck
      have hrun : LoadRuns maxsize CoveredSet (.start _ _ _) s' :=
        h.trans (hg.runs coveredSet_other hm hstop)
      have hk' := runs_kept answers_request hrun
      have hm' := (goes_bounded hm hstop hg).2.1
      rcases moves_or_ends hsome hk' hm' with hmove | hstrand | hended
      · exact absurd hmove hstuck
      · exact absurd hstrand (runs_not_stranded answers_request hrun)
      · exact ⟨hended,hk'⟩
    refine ⟨fun n s' hg => (goes_bounded hm hstop hg).1,fun n s' hg hstuck => ?_,?_⟩
    · obtain ⟨hended,hk'⟩ := hend n s' hg hstuck
      have hrows := hk'.all_rows (hk'.done hended.joined)
      rw [(goes_bounded hm hstop hg).2.2.2] at hrows
      have hcard := congrArg Multiset.card hrows
      simp only [Multiset.coe_card,List.length_map] at hcard
      exact ⟨hended,hcard,hrows⟩
    · obtain ⟨n,s',hg,hstuck⟩ := comes_to_end hm hstop
      exact ⟨n,s',hg,(hend n s' hg hstuck).1⟩

theorem load_phase_ends_queued : ∃ s s' : LoadPhase Rat (Fin 2), s.queue = [someTask] ∧ s'.Ended ∧
    s.stepsLeft = 8 ∧ ∃ n ≤ 8, Goes 3 Answers n s s' := by
  obtain ⟨s,hrun,hm,hq,hsteps⟩ : ∃ s : LoadPhase Rat (Fin 2),
      LoadRuns 3 CoveredSet (.start _ _ _) s ∧ s.main ≠ .putting ∧ s.queue = [someTask] ∧
      s.stepsLeft = 8 :=
    ⟨_,(Relation.ReflTransGen.refl.tail
      ⟨.other,.put someTask rfl (by decide),coveredSet_other _⟩).tail
      ⟨.set,.set rfl,fun _ => .inr ⟨0,by simp [Phase.start]⟩⟩,by simp,rfl,rfl⟩
  obtain ⟨hbound,_,n,s',hg,hended⟩ := (load_phase_ends Rat (Fin 2) hrun).2 hm
  have hle := hbound n s' hg
  exact ⟨s,s',hq,hended,hsteps,n,by omega,hg⟩

end ConcurrentWebServer.LoadClient
