import ConcurrentWebServer.ProcessModel
import Mathlib.Data.Fintype.Basic
set_option autoImplicit false

/-! Which child a worker's `wait_or_die(NULL)` is for. -/

namespace ConcurrentWebServer.Forking
open ForkWait
open Server (Boot)

theorem awaited_eq_some {p : Place} {own : Nat} :
    p.awaited = some own ↔ ∃ t, p = .waiting t own := by
  cases p <;> simp [Place.awaited,eq_comm]

section Counts

variable {W : Type} [Fintype W]

def Processes.waiters (s : Processes W) : Nat :=
  (Finset.univ.filter fun w => (s.place w).awaited.isSome).card

variable [DecidableEq W] {boot : Boot} {s : Processes W}

theorem reaches_balanced (h : Reaches boot s) : s.family.Balanced := by
  refine reaches_family ?_ (fun _ _ => step_balanced) h
  simp [Family.Balanced,Family.waiting,Processes.family,Processes.start,Place.awaited]

/-- There is an unreaped child for each worker that waits for one, whichever
it is, and none is left when nobody waits. -/
theorem wait_finds_child (h : Reaches boot s) :
    s.children.length = s.waiters ∧
    (∀ w t own, s.place w = .waiting t own → ¬ Wait s.children none) ∧
    ((∀ w t own, s.place w ≠ .waiting t own) → s.children = []) := by
  have hb := reaches_balanced h
  refine ⟨hb,fun w t own hw => hb.no_echild (t := w) (congrArg Place.awaited hw),fun hout => ?_⟩
  refine hb.all_reaped fun w => ?_
  rw [Option.eq_none_iff_forall_ne_some]
  intro own hown
  obtain ⟨t,ht⟩ := awaited_eq_some.mp hown
  exact hout w t own ht

theorem forked_run (g : Processes Unit → Act Unit → Prop) (hg : ∀ s, g s .other) :
    ∃ s : Processes Unit, Runs g (Processes.start Unit ⟨fun _ => none,by simp⟩) s ∧
      s.place () = .waiting ⟨4,false⟩ 0 ∧ s.fds 4 = some (.conn 0) ∧
      s.children = [⟨0,⟨s.fds,4,1⟩,false⟩] ∧ s.closed = [] := by
  refine ⟨_,(((((Relation.ReflTransGen.refl).tail ⟨.other,.accept 4 rfl rfl,hg _⟩).tail
    ⟨.other,.put false rfl,hg _⟩).tail
    ⟨.other,.get (w := ()) (t := ⟨4,false⟩) 0 rfl rfl,hg _⟩).tail
    ⟨.other,.status (w := ()) rfl rfl,hg _⟩).tail
    ⟨.other,.fork (w := ()) rfl,hg _⟩,rfl,rfl,rfl,rfl⟩

theorem wait_finds_child_forked : ∃ s : Processes Unit, s.place () = .waiting ⟨4,false⟩ 0 ∧
    s.children.length = s.waiters ∧ ¬ Wait s.children none := by
  obtain ⟨s,hs,hw,_,_,_⟩ := forked_run (fun _ _ => True) (fun _ => trivial)
  obtain ⟨hcount,hfind,_⟩ := wait_finds_child hs
  exact ⟨s,hw,hcount,hfind () _ _ hw⟩

end Counts

section Own

variable {W : Type}

/-- Whenever `request_serve_dynamic` has returned, the child it forked has
terminated. -/
def OwnDone (s : Processes W) : Prop :=
  (∀ w t own, s.place w = .closing t (some own) → s.family.Ended own) ∧
    ∀ i own, (i,some own) ∈ s.closed → s.family.Ended own

/-- A wait does not return while its own child is running and another one is
there to be reaped. -/
def FairWait (s : Processes W) : Act W → Prop
  | .wait w => ∀ t own, s.place w = .waiting t own → s.family.Fair own
  | .close _ | .other => True

variable [DecidableEq W] {boot : Boot} {s s' : Processes W}

theorem reaches_numbered (h : Reaches boot s) : s.family.Numbered := by
  refine reaches_family ⟨?_,?_,?_⟩ (fun _ _ => step_numbered) h
  · simp [Processes.family,Processes.start]
  · simp [Processes.family,Processes.start]
  · simp [Processes.family,Processes.start,Place.awaited]

theorem step_keeps_ended {a : Act W} {pid : Nat} (hl : Step s a s') (h : s.family.Ended pid) :
    s'.family.Ended pid := by
  rcases step_family hl with he | hf
  · rw [he]
    exact h
  · exact step_ended h hf

omit [DecidableEq W] in
theorem not_ended {c : Child Inherited} {pid : Nat} (hc : c ∈ s.children) (hpid : c.pid = pid)
    (hrun : c.exited = false) : ¬ s.family.Ended pid := by
  rintro ⟨_,hend⟩
  have hexit := hend c hc hpid
  rw [hrun] at hexit
  cases hexit

/-- What a wait can lead to. -/
theorem wait_step {w : W} (hl : Step s (.wait w) s') :
    ∃ t own rest, s.place w = .waiting t own ∧ Wait s.children (some rest) ∧
      s' = { s.move w (.closing t (some own)) with children := rest } := by
  cases hl with
  | wait hw hreap => exact ⟨_,_,_,hw,hreap,rfl⟩

theorem fairWait_iff (h : Reaches boot s) {w : W} {t : Ticket} {own : Nat}
    (hw : s.place w = .waiting t own) :
    FairWait s (.wait w) ↔ ∀ s', Step s (.wait w) s' → s'.family.Ended own := by
  have hnum := reaches_numbered h
  have hlt := hnum.awaited w own (congrArg Place.awaited hw)
  have hfair : FairWait s (.wait w) ↔ s.family.Fair own := by
    rw [FairWait]
    constructor
    · intro hf
      exact hf t own hw
    · intro hf t' own' hw'
      rw [hw] at hw'
      cases hw'
      exact hf
  rw [hfair,fair_iff hnum]
  constructor
  · intro hwait s' hl
    obtain ⟨t',own',rest,hw',hreap,rfl⟩ := wait_step hl
    exact ⟨hlt,hwait rest hreap⟩
  · intro hstep rest hreap
    exact (hstep _ (.wait hw hreap)).2

theorem closing_of_update {f : W → Place} {w u : W} {p : Place} {t : Ticket} {own : Nat}
    (hp : ∀ t own, p ≠ .closing t (some own))
    (h : Function.update f w p u = .closing t (some own)) : f u = .closing t (some own) := by
  by_cases hu : u = w
  · subst hu
    rw [Function.update_self] at h
    exact absurd h (hp _ _)
  · rwa [Function.update_of_ne hu] at h

theorem step_closing {a : Act W} (hl : Step s a s') {u : W} {t : Ticket} {own : Nat}
    (h : s'.place u = .closing t (some own)) :
    s.place u = .closing t (some own) ∨ a = .wait u ∧ s.place u = .waiting t own := by
  cases hl with
  | get _ _ _ => exact .inl (closing_of_update (by simp) h)
  | openFile _ _ _ _ => exact .inl (closing_of_update (by simp) h)
  | closeFile _ => exact .inl (closing_of_update (by simp) h)
  | reply _ => exact .inl (closing_of_update (by simp) h)
  | status _ _ => exact .inl (closing_of_update (by simp) h)
  | fork _ => exact .inl (closing_of_update (by simp) h)
  | @wait w t' own' rest hw _ =>
    change Function.update s.place w (.closing t' (some own')) u = _ at h
    by_cases hu : u = w
    · subst hu
      rw [Function.update_self] at h
      cases h
      exact .inr ⟨rfl,hw⟩
    · rw [Function.update_of_ne hu] at h
      exact .inl h
  | close _ _ => exact .inl (closing_of_update (by simp) h)
  | _ => exact .inl h

theorem step_closed {a : Act W} (hl : Step s a s') {i : Nat} {o : Option Nat}
    (h : (i,o) ∈ s'.closed) :
    (i,o) ∈ s.closed ∨ ∃ w t, a = .close w ∧ s.place w = .closing t o ∧
      s.fds t.connFd = some (.conn i) := by
  cases hl with
  | close hw hi =>
    rcases List.mem_cons.mp h with he | h
    · cases he
      exact .inr ⟨_,_,rfl,hw,hi⟩
    · exact .inl h
  | _ => exact .inl h

theorem step_ownDone {a : Act W} (hr : Reaches boot s) (hl : Step s a s') (hg : FairWait s a)
    (h : OwnDone s) : OwnDone s' := by
  obtain ⟨hclosing,hclosed⟩ := h
  refine ⟨fun w t own hw => ?_,fun i own hm => ?_⟩
  · rcases step_closing hl hw with hold | ⟨rfl,hold⟩
    · exact step_keeps_ended hl (hclosing w t own hold)
    · exact (fairWait_iff hr hold).mp hg _ hl
  · rcases step_closed hl hm with hold | ⟨w,t,_,hw,_⟩
    · exact step_keeps_ended hl (hclosed i own hold)
    · exact step_keeps_ended hl (hclosing w t own hw)

theorem runs_ownDone (h : Runs FairWait (Processes.start W boot) s) : OwnDone s := by
  induction h with
  | refl => exact ⟨by simp [Processes.start],by simp [Processes.start]⟩
  | tail hs hl ih =>
    obtain ⟨a,ha,hg⟩ := hl
    exact step_ownDone (Runs.reaches hs) ha hg ih

theorem alone_fair [Subsingleton W] (h : Reaches boot s) (a : Act W) : FairWait s a := by
  have halone : s.family.Alone := by
    refine reaches_family (fun w => ?_) (fun _ _ => step_alone) h
    simp [Processes.family,Processes.start,Place.awaited]
  cases a with
  | wait w =>
    intro t own hw
    exact halone.fair (t := w) (congrArg Place.awaited hw)
  | close w => trivial
  | other => trivial

theorem alone_ownDone [Subsingleton W] (h : Reaches boot s) : OwnDone s := by
  have hrun : Runs FairWait (Processes.start W boot) s := by
    induction h with
    | refl => exact .refl
    | tail hs hl ih =>
      obtain ⟨a,ha,_⟩ := hl
      exact ih.tail ⟨a,ha,alone_fair hs a⟩
  exact runs_ownDone hrun

/-- As long as every wait is fair, each request is left with its own child
terminated; and a wait that is not fair may return to a running one. -/
theorem own_child_ended (W : Type) [DecidableEq W] (boot : Boot) :
    (∀ s : Processes W, Runs FairWait (Processes.start W boot) s → OwnDone s) ∧
    ∀ (s : Processes W) (w : W) (t : Ticket) (own : Nat), Reaches boot s →
      s.place w = .waiting t own →
      (FairWait s (.wait w) ↔ ∀ s', Step s (.wait w) s' → s'.family.Ended own) :=
  ⟨fun _ => runs_ownDone,fun _ _ _ _ h hw => fairWait_iff h hw⟩

theorem own_child_ended_exit : ∃ s : Processes Unit, s.place () = .closing ⟨4,false⟩ (some 0) ∧
    s.family.Ended 0 := by
  obtain ⟨s,hs,hw,_,hc,_⟩ := forked_run FairWait (fun _ => trivial)
  have hexit := hs.tail ⟨.other,.exit [] [] hc rfl,trivial⟩
  have hwait := hexit.tail ⟨.wait (),.wait hw (.reaped [] [] rfl),alone_fair (Runs.reaches hexit) _⟩
  have hplace := Function.update_self () (Place.closing ⟨4,false⟩ (some 0)) s.place
  exact ⟨_,hplace,((own_child_ended Unit _).1 _ hwait).1 () _ _ hplace⟩

/-- Worker 0 waits for child 0, which is running, and is given child 1. -/
theorem stolen_child : ∃ s : Processes (Fin 2),
    Reaches ⟨fun _ => none,by simp⟩ s ∧ s.place 0 = .closing ⟨4,false⟩ (some 0) ∧
      ¬ s.family.Ended 0 ∧ ¬ OwnDone s := by
  have hrun : Reaches ⟨fun _ => none,by simp⟩ _ :=
    ((((((((((((Relation.ReflTransGen.refl).tail ⟨.other,.accept 4 rfl rfl,trivial⟩).tail
      ⟨.other,.put false rfl,trivial⟩).tail ⟨.other,.accept 5 rfl rfl,trivial⟩).tail
      ⟨.other,.put false rfl,trivial⟩).tail
      ⟨.other,.get (w := (1 : Fin 2)) (t := ⟨5,false⟩) {⟨4,false⟩} rfl rfl,trivial⟩).tail
      ⟨.other,.get (w := 0) (t := ⟨4,false⟩) 0 rfl rfl,trivial⟩).tail
      ⟨.other,.status (w := 0) rfl rfl,trivial⟩).tail
      ⟨.other,.status (w := 1) rfl rfl,trivial⟩).tail
      ⟨.other,.fork (w := 0) rfl,trivial⟩).tail
      ⟨.other,.fork (w := 1) rfl,trivial⟩).tail
      ⟨.other,.exit [_] [] rfl rfl,trivial⟩).tail
      ⟨.wait 0,.wait rfl (.reaped [_] [] rfl),trivial⟩
  exact ⟨_,hrun,rfl,not_ended (.head _) rfl rfl,
    fun h => not_ended (.head _) rfl rfl (h.1 0 _ _ rfl)⟩

end Own

end ConcurrentWebServer.Forking
