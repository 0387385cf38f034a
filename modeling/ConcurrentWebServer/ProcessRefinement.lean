import ConcurrentWebServer.ConnectionOwnership
import ConcurrentWebServer.StreamEnds
set_option autoImplicit false

/-! The server goes through the states of its process model. -/

namespace ConcurrentWebServer.Forking
open Execution MesaMonitor Queueing Requests
open Server (Boot Descriptors STDOUT_FILENO Job AcceptorPc WorkerPc flight flight_conserved Owned
  roles_of_worker reaches_owned reaches_monitor)

/-! A server state keeps no record of which child a worker forked, and a state
of the process model none of what has been read and written. -/

def ticket (job : Job) : Ticket := ⟨job.req.connFd,job.req.isStatic⟩

def acceptorFd : AcceptorPc → Option Nat
  | .accepting | .putting => none
  | .parsing fd _ | .refusing fd _ _ | .closing fd _ => some fd
  | .submitting job => some job.req.connFd

def Place.anonymous : Place → Place
  | .waiting t _ => .waiting t 0
  | .closing t _ => .closing t none
  | p => p

def workerPlace : WorkerPc → Place
  | .idle | .getting => .idle
  | .serving job => .serving (ticket job)
  | .mapped job srcfd _ => .mapping (ticket job) srcfd
  | .header job _ | .body job _ => .replying (ticket job)
  | .forking job => .forking (ticket job)
  | .waiting job => .waiting (ticket job) 0
  | .closing job => .closing (ticket job) none

def view (c : ForkWait.Child Inherited) : Descriptors × Bool := (c.data.fds,c.exited)

def serverView (c : Server.Child) : Descriptors × Bool := (c.fds,c.exited)

variable {W : Type} [Fintype W]

structure Simulates (s : Server.Process W) (p : Processes W) : Prop where
  fds : p.fds = s.fds
  accepted : p.accepted = s.accepted
  parsing : p.parsing = acceptorFd s.acceptor
  pending : p.pending = s.flying.map ticket
  place : Place.anonymous ∘ p.place = workerPlace ∘ s.worker
  children : p.children.map view = s.children.map serverView
  closed : (p.closed.map Prod.fst : Multiset Nat) =
    (s.closed.filterMap Server.byWorker).map Prod.fst

variable {s s' : Server.Process W} {p : Processes W}

section Places

omit [Fintype W]

theorem eq_of_anonymous {q x : Place} (h : q.anonymous = x) (hw : ∀ t own, x ≠ .waiting t own)
    (hc : ∀ t own, x ≠ .closing t own) : q = x := by
  cases q with
  | waiting t own => exact absurd h.symm (hw t 0)
  | closing t own => exact absurd h.symm (hc t none)
  | _ => exact h

theorem waiting_of_anonymous {q : Place} {t : Ticket} {own : Nat}
    (h : q.anonymous = .waiting t own) : ∃ own, q = .waiting t own := by
  cases q with
  | waiting t' own' =>
    cases h
    exact ⟨own',rfl⟩
  | closing _ _ => cases h
  | _ => cases h

theorem closing_of_anonymous {q : Place} {t : Ticket} {own : Option Nat}
    (h : q.anonymous = .closing t own) : ∃ own, q = .closing t own := by
  cases q with
  | closing t' own' =>
    cases h
    exact ⟨own',rfl⟩
  | waiting _ _ => cases h
  | _ => cases h

end Places

theorem Simulates.at (h : Simulates s p) {w : W} {x : WorkerPc} (hw : s.worker w = x) :
    (p.place w).anonymous = workerPlace x := by
  rw [← hw]
  exact congrFun h.place w

theorem Simulates.placed (h : Simulates s p) {w : W} {x : WorkerPc} (hw : s.worker w = x)
    (hx : ∀ job, x ≠ .waiting job ∧ x ≠ .closing job) : p.place w = workerPlace x := by
  refine eq_of_anonymous (h.at hw) (fun t own ht => ?_) fun t own ht => ?_
  · cases x with
    | waiting job => exact (hx job).1 rfl
    | _ => cases ht
  · cases x with
    | closing job => exact (hx job).2 rfl
    | _ => cases ht

theorem split_view {children : List (ForkWait.Child Inherited)} {left right : List Server.Child}
    {child : Server.Child}
    (h : children.map view = (left ++ child :: right).map serverView) :
    ∃ left' child' right', children = left' ++ child' :: right' ∧
      left'.map view = left.map serverView ∧ view child' = serverView child ∧
      right'.map view = right.map serverView := by
  rw [List.map_append,List.map_cons] at h
  obtain ⟨left',rest,rfl,hleft,hrest⟩ := List.map_eq_append_iff.mp h
  obtain ⟨child',right',rfl,hchild,hright⟩ := List.map_eq_cons_iff.mp hrest
  exact ⟨left',child',right',rfl,hleft,hchild,hright⟩

variable [DecidableEq W] {fs : FileSystem} {inputs : Nat → Stream' Received}

theorem Simulates.move (h : Simulates s p) (w : W) {q : Place} {x : WorkerPc}
    (hq : q.anonymous = workerPlace x) :
    Place.anonymous ∘ Function.update p.place w q = workerPlace ∘ Function.update s.worker w x := by
  rw [Function.comp_update,Function.comp_update,h.place,hq]

def Steps (p p' : Processes W) : Prop := Runs (fun _ _ => True) p p'

omit [Fintype W] in
theorem Steps.single {p p' : Processes W} {a : Act W} (h : Step p a p') : Steps p p' :=
  Relation.ReflTransGen.single ⟨a,h,trivial⟩

theorem Simulates.stay (h : Simulates s p) {w : W} {x : WorkerPc} {conns : Nat → Conn}
    (hx : workerPlace (s.worker w) = workerPlace x) :
    Simulates { s.work w x with conns := conns } p := by
  refine ⟨h.fds,h.accepted,h.parsing,h.pending,?_,h.children,h.closed⟩
  have hmove := h.move w (h.at rfl |>.trans hx)
  rwa [Function.update_eq_self] at hmove

theorem pending_change (hwf : s.monitor.shared.Sound)
    (hr : Ready (bufferMonitor Job.filesize) s.monitor)
    {l : Label (Option W) (Op Job) (Done Job)}
    {m : State (Option W) (Buffer Job) (Op Job) (Done Job)}
    (hl : MesaMonitor.Step (bufferMonitor Job.filesize) s.monitor l m) (h : Simulates s p) :
    (flight.total m).map ticket + (flight.out l).map ticket =
      p.pending + (flight.into l).map ticket := by
  rw [h.pending,← Multiset.map_add,← Multiset.map_add,
    flight.total_step flight_conserved hwf hr hl]
  rfl

omit [DecidableEq W] in
theorem Simulates.through (h : Simulates s p) {pc : AcceptorPc} {conns : Nat → Conn}
    {m : State (Option W) (Buffer Job) (Op Job) (Done Job)} {refused : Multiset Nat}
    (hpc : acceptorFd pc = acceptorFd s.acceptor) (hm : (flight.total m).map ticket = p.pending) :
    Simulates { s with acceptor := pc, conns := conns, monitor := m, refused := refused } p :=
  ⟨h.fds,h.accepted,h.parsing.trans hpc.symm,hm.symm,h.place,h.children,h.closed⟩

theorem simulate_fork (ho : Owned s) (h : Simulates s p) {w : W} {job : Job} {output : List UInt8}
    (hw : s.worker w = .forking job) :
    ∃ p', Steps p p' ∧ Simulates { s.work w (.waiting job) with
      children := s.children ++ [⟨job.conn,Server.dup2 s.fds job.req.connFd STDOUT_FILENO,output,
        false⟩] } p' := by
  have hp := h.placed hw (by simp)
  obtain ⟨R,hR,_⟩ := roles_of_worker s w
  rw [hw] at hR
  have hconn : s.fds job.req.connFd = some (.conn job.conn) := ho.open hR
  refine ⟨_,(Steps.single (.fork hp)).tail ⟨.other,.redirect p.children [] rfl rfl ?_,trivial⟩,
    ⟨h.fds,h.accepted,h.parsing,h.pending,h.move w rfl,?_,h.closed⟩⟩
  · change p.fds job.req.connFd ≠ none
    rw [h.fds,hconn]
    simp
  · change (p.children ++ [_]).map view = (s.children ++ [_]).map serverView
    rw [List.map_append,List.map_append,h.children,← h.fds]
    rfl

omit [DecidableEq W] in
theorem Simulates.childWrite (h : Simulates s p) {left right : List Server.Child}
    {child : Server.Child} {rest : List UInt8} {conns : Nat → Conn}
    (hch : s.children = left ++ child :: right) :
    Simulates { s with
      conns := conns, children := left ++ { child with output := rest } :: right } p := by
  refine ⟨h.fds,h.accepted,h.parsing,h.pending,h.place,?_,h.closed⟩
  rw [h.children,hch,List.map_append,List.map_append]
  rfl

theorem simulate_exit (h : Simulates s p) {left right : List Server.Child} {child : Server.Child}
    (hch : s.children = left ++ child :: right) (hrun : child.exited = false) :
    ∃ p', Steps p p' ∧ Simulates { s with
      children := left ++ { child with exited := true, fds := fun _ => none } :: right } p' := by
  obtain ⟨left',child',right',hpch,hleft,hchild,hright⟩ := split_view (hch ▸ h.children)
  have hrun' : child'.exited = false := (congrArg Prod.snd hchild).trans hrun
  refine ⟨_,.single (.exit left' right' hpch hrun'),⟨h.fds,h.accepted,h.parsing,h.pending,h.place,
    ?_,h.closed⟩⟩
  simp only [List.map_append,List.map_cons,hleft,hright]
  rfl

theorem simulate_wait (h : Simulates s p) {w : W} {job : Job} {left right : List Server.Child}
    {child : Server.Child} (hw : s.worker w = .waiting job)
    (hch : s.children = left ++ child :: right) (hexit : child.exited = true) :
    ∃ p', Steps p p' ∧
      Simulates { s.work w (.closing job) with children := left ++ right } p' := by
  obtain ⟨own,hp⟩ := waiting_of_anonymous (h.at hw)
  obtain ⟨left',child',right',hpch,hleft,hchild,hright⟩ := split_view (hch ▸ h.children)
  have hexit' : child'.exited = true := (congrArg Prod.snd hchild).trans hexit
  have hreap : ForkWait.Wait p.children (some (left' ++ right')) :=
    hpch ▸ .reaped left' right' hexit'
  refine ⟨_,.single (.wait hp hreap),⟨h.fds,h.accepted,h.parsing,h.pending,h.move w rfl,?_,
    h.closed⟩⟩
  simp only [List.map_append,hleft,hright]

theorem simulate_close (h : Simulates s p) {w : W} {job : Job} {i : Nat} {conn : Conn}
    (hw : s.worker w = .closing job) (hi : s.fds job.req.connFd = some (.conn i)) :
    ∃ p', Steps p p' ∧ Simulates { ((s.bind job.req.connFd none).touch i conn).work w .idle with
      closed := (i,some w) ::ₘ s.closed } p' := by
  obtain ⟨own,hp⟩ := closing_of_anonymous (h.at hw)
  refine ⟨_,.single (.close hp (by rw [h.fds]; exact hi)),⟨?_,h.accepted,h.parsing,h.pending,
    h.move w rfl,h.children,?_⟩⟩
  · exact congrArg (fun fds => Function.update fds job.req.connFd none) h.fds
  · refine (congrArg (i ::ₘ ·) h.closed).trans ?_
    rw [← Multiset.map_cons Prod.fst (i,w)]
    exact congrArg _ (Multiset.filterMap_cons_some Server.byWorker _ _ rfl).symm

/-- A step of the server is some steps of the process model. -/
theorem simulate_step (ho : Owned s) (hwf : s.monitor.shared.Sound)
    (hr : Ready (bufferMonitor Job.filesize) s.monitor) (h : Simulates s p)
    (hl : Server.Step fs inputs s s') : ∃ p', Steps p p' ∧ Simulates s' p' := by
  have hfds := h.fds
  have hparsing := h.parsing
  cases hl with
  | accept fd ha hfd =>
    rw [ha] at hparsing
    refine ⟨_,.single (.accept fd hparsing (by rw [hfds]; exact hfd)),⟨?_,?_,rfl,h.pending,h.place,
      h.children,h.closed⟩⟩
    · exact congrArg₂ (fun fds c => Function.update fds fd (some (.conn c))) hfds h.accepted
    · exact congrArg (· + 1) h.accepted
  | refuse ha _ _ => exact ⟨p,.refl,h.through (by rw [ha]; rfl) h.pending.symm⟩
  | approve ha _ hd =>
    obtain ⟨_,_,hv,_⟩ := decides_ok hd
    obtain ⟨_,_,_,rfl⟩ := verdict_ok hv
    exact ⟨p,.refl,h.through (by rw [ha]; rfl) h.pending.symm⟩
  | page ha _ _ => exact ⟨p,.refl,h.through (by rw [ha]; rfl) h.pending.symm⟩
  | @reject fd c i conn ha hi _ =>
    rw [ha] at hparsing
    refine ⟨_,.single (.reject hparsing (by rw [hfds]; exact hi)),⟨?_,h.accepted,rfl,h.pending,
      h.place,h.children,?_⟩⟩
    · exact congrArg (fun fds => Function.update fds fd none) hfds
    · exact h.closed.trans (congrArg _ (Multiset.filterMap_cons_none _ _ rfl).symm)
  | @submit job m ha hm =>
    rw [ha] at hparsing
    have hpending : (flight.total m).map ticket + 0 = p.pending + {ticket job} :=
      pending_change hwf hr hm h
    rw [add_zero,add_comm,Multiset.singleton_add] at hpending
    exact ⟨_,.single (.put job.req.isStatic hparsing),⟨hfds,h.accepted,rfl,hpending.symm,h.place,
      h.children,h.closed⟩⟩
  | @submitted job m ha hm =>
    have hpending : (flight.total m).map ticket + 0 = p.pending + 0 := pending_change hwf hr hm h
    exact ⟨p,.refl,h.through (by rw [ha]; rfl) (add_right_cancel hpending)⟩
  | @internal m hm =>
    have hpending : (flight.total m).map ticket + 0 = p.pending + 0 := pending_change hwf hr hm h
    exact ⟨p,.refl,h.through rfl (add_right_cancel hpending)⟩
  | @fetch w m hw hm =>
    have hpending : (flight.total m).map ticket + 0 = p.pending + 0 := pending_change hwf hr hm h
    have hstay : Simulates (s.work w .getting) p := h.stay (by rw [hw]; rfl)
    exact ⟨p,.refl,hstay.through rfl (add_right_cancel hpending)⟩
  | @fetched w job m hw hm =>
    have hpending : (flight.total m).map ticket + {ticket job} = p.pending + 0 :=
      pending_change hwf hr hm h
    rw [add_zero,add_comm,Multiset.singleton_add] at hpending
    have hp := h.placed hw (by simp)
    exact ⟨_,.single (.get _ hp hpending.symm),⟨hfds,h.accepted,hparsing,rfl,h.move w rfl,
      h.children,h.closed⟩⟩
  | @openFile w job srcfd content srcp hw hst hfd _ _ =>
    have hp := h.placed hw (by simp)
    refine ⟨_,.single (.openFile srcfd hp hst (by rw [hfds]; exact hfd)),⟨?_,h.accepted,hparsing,
      h.pending,h.move w rfl,h.children,h.closed⟩⟩
    exact congrArg (fun fds => Function.update fds srcfd (some .file)) hfds
  | @closeFile w job srcfd srcp hw _ =>
    have hp := h.placed hw (by simp)
    refine ⟨_,.single (.closeFile hp),⟨?_,h.accepted,hparsing,h.pending,h.move w rfl,h.children,
      h.closed⟩⟩
    exact congrArg (fun fds => Function.update fds srcfd none) hfds
  | header hw _ _ => exact ⟨p,.refl,h.stay (by rw [hw]; rfl)⟩
  | @body w job srcp i conn hw _ _ =>
    have hp := h.placed hw (by simp)
    exact ⟨_,.single (.reply hp),⟨hfds,h.accepted,hparsing,h.pending,h.move w rfl,h.children,
      h.closed⟩⟩
  | @status w job i conn hw hst _ _ =>
    have hp := h.placed hw (by simp)
    exact ⟨_,.single (.status hp hst),⟨hfds,h.accepted,hparsing,h.pending,h.move w rfl,h.children,
      h.closed⟩⟩
  | fork hw _ => exact simulate_fork ho h hw
  | childWrite hch _ _ _ => exact ⟨p,.refl,h.childWrite hch⟩
  | childExit hch hrun _ => exact simulate_exit h hch hrun
  | wait hw hch hexit => exact simulate_wait h hw hch hexit
  | close hw hi _ => exact simulate_close h hw hi

variable {capacity : Nat} {policy : SchedPolicy} {malloced : Int → Job} {boot : Boot}
  {b₀ : Buffer Job}

omit [DecidableEq W] in
theorem simulates_start (hb : b₀.contents = []) :
    Simulates (Server.Process.start W boot b₀) (Processes.start W boot) := by
  refine ⟨rfl,rfl,rfl,?_,rfl,rfl,rfl⟩
  simp [Processes.start,Server.Process.flying,Server.Process.start,MesaMonitor.start,
    Weights.total,Weights.pc,flight,hb]

theorem reaches_simulated (hc : FitsInt policy capacity)
    (hinit : bufferInit malloced capacity policy = .done b₀)
    (h : Server.Reaches fs inputs (Server.Process.start W boot b₀) s) :
    ∃ p, Reaches boot p ∧ Simulates s p := by
  induction h with
  | refl =>
    rw [bufferInit_done malloced hc.pos policy] at hinit
    cases hinit
    exact ⟨_,.refl,simulates_start rfl⟩
  | tail hs hl ih =>
    obtain ⟨p,hp,hsim⟩ := ih
    obtain ⟨ho,_⟩ := reaches_owned hc hinit hs
    have hm := reaches_monitor hs
    obtain ⟨hwf,_⟩ := reaches_refines hc hinit hm
    obtain ⟨p',hsteps,hsim'⟩ := simulate_step ho hwf (reaches_sound hm).ready hsim hl
    exact ⟨p',hp.trans hsteps,hsim'⟩

def isWaiting : WorkerPc → Bool
  | .waiting _ => true
  | _ => false

omit [DecidableEq W] in
theorem Simulates.waiters (h : Simulates s p) :
    p.waiters = (Finset.univ.filter fun w => isWaiting (s.worker w)).card := by
  have hplace : ∀ q : Place, q.anonymous.awaited.isSome = q.awaited.isSome := by
    intro q
    cases q <;> rfl
  have hworker : ∀ x, (workerPlace x).awaited.isSome = isWaiting x := by
    intro x
    cases x <;> rfl
  rw [Processes.waiters]
  congr 2
  funext w
  rw [← hplace,h.at rfl,hworker]

theorem server_children (hc : FitsInt policy capacity)
    (hinit : bufferInit malloced capacity policy = .done b₀)
    (h : Server.Reaches fs inputs (Server.Process.start W boot b₀) s) :
    s.children.length = (Finset.univ.filter fun w => isWaiting (s.worker w)).card := by
  obtain ⟨p,hp,hsim⟩ := reaches_simulated hc hinit h
  have hlen := congrArg List.length hsim.children
  rw [List.length_map,List.length_map] at hlen
  rw [← hlen,← hsim.waiters]
  exact reaches_balanced hp

end ConcurrentWebServer.Forking
