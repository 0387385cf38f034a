import ConcurrentWebServer.BufferConcurrency
import ConcurrentWebServer.ConnectionRoles
import ConcurrentWebServer.ServerRuns
import Mathlib.Data.Multiset.Filter
import Mathlib.Data.Fintype.BigOperators
import Mathlib.Algebra.Order.BigOperators.Group.Finset
import Mathlib.Tactic.Abel
set_option autoImplicit false

/-! Every connection has one owner from `accept` to `close`, and is closed once. -/

namespace ConcurrentWebServer.Server
open Execution MesaMonitor Queueing Requests

section Invariants

variable {W : Type} [Fintype W] {fs : FileSystem} {inputs : Nat → Stream' Received}
  {s s' : Process W}

theorem Owned.free (h : Owned s) {fd : Nat} (hfd : s.fds fd = none) : fd ∉ s.held.map Prod.fst := by
  intro hm
  obtain ⟨⟨fd',c⟩,hc,rfl⟩ := Multiset.mem_map.mp hm
  have ht := (h.table fd' c).mpr hc
  rw [hfd] at ht
  cases ht

theorem Owned.conns (h : Owned s) : (s.held.map Prod.snd).Nodup :=
  Multiset.nodup_of_le (h.ids ▸ Multiset.le_add_right _ _) (Multiset.nodup_range _)

theorem Owned.lt (h : Owned s) {fd c : Nat} (hm : (fd,c) ∈ s.held) : c < s.accepted := by
  rw [← Multiset.mem_range,← h.ids]
  exact Multiset.mem_add.mpr (.inl (Multiset.mem_map.mpr ⟨_,hm,rfl⟩))

theorem Owned.keep (h : Owned s) (hh : s'.held = s.held) (hf : SameConns s s')
    (ha : s'.accepted = s.accepted) (hc : s'.closed = s.closed) : Owned s' where
  table fd c := by rw [hf,h.table,hh]
  distinct := by rw [hh]; exact h.distinct
  ids := by rw [hh,ha,hc]; exact h.ids

omit [Fintype W] in
theorem sameConns_of_eq (h : s'.fds = s.fds) : SameConns s s' := fun fd c => by rw [h]

theorem held_move {fd c : Nat} {st st' : Stage} {R : Multiset Role}
    (h : s.roles = ⟨fd,c,st⟩ ::ₘ R) (h' : s'.roles = ⟨fd,c,st'⟩ ::ₘ R) : s'.held = s.held := by
  simp only [Process.held,h,h',Multiset.map_cons,Role.key]

theorem owned_change (h : Owned s) (hl : Change fs inputs s s') : Owned s' := by
  cases hl with
  | accept fd hfd hfds _ hr ha hc _ =>
    have hheld : s'.held = (fd,s.accepted) ::ₘ s.held := by
      rw [Process.held,hr,Multiset.map_cons]
      rfl
    refine ⟨fun fd' c => ?_,?_,?_⟩
    · rw [hfds,hheld,Multiset.mem_cons]
      by_cases he : fd' = fd
      · subst he
        have hn : (fd',c) ∉ s.held := fun hm => h.free hfd (Multiset.mem_map_of_mem Prod.fst hm)
        simp [hn,eq_comm]
      · simp [he,h.table]
    · rw [hheld,Multiset.map_cons,Multiset.nodup_cons]
      exact ⟨h.free hfd,h.distinct⟩
    · rw [hheld,hc,ha,Multiset.map_cons,Multiset.cons_add,h.ids,Multiset.range_succ]
  | advance hr hr' _ _ hf ha hc _ => exact h.keep (held_move hr hr') hf ha hc
  | quiet hr _ hf ha hc _ => exact h.keep (by rw [Process.held,hr]; rfl) hf ha hc
  | fork hr hr' _ _ _ _ _ _ hf ha hc =>
    exact h.keep (held_move hr hr') (sameConns_of_eq hf) ha hc
  | childWrite _ _ _ _ _ _ hr hf ha hc =>
    exact h.keep (by rw [Process.held,hr]; rfl) (sameConns_of_eq hf) ha hc
  | childExit _ _ _ _ _ hr hf ha hc =>
    exact h.keep (by rw [Process.held,hr]; rfl) (sameConns_of_eq hf) ha hc
  | wait hr hr' _ _ _ _ _ _ _ hf ha hc =>
    exact h.keep (held_move hr hr') (sameConns_of_eq hf) ha hc
  | @close fd c R conn who hr hr' _ _ hfds hc ha _ =>
    have hheld : s.held = (fd,c) ::ₘ s'.held := by
      rw [Process.held,hr,Multiset.map_cons,Process.held,hr']
      rfl
    have hd := h.distinct
    rw [hheld,Multiset.map_cons,Multiset.nodup_cons] at hd
    refine ⟨fun fd' c' => ?_,hd.2,?_⟩
    · rw [hfds]
      by_cases he : fd' = fd
      · subst he
        have hn : (fd',c') ∉ s'.held := by
          intro hm
          exact hd.1 (Multiset.mem_map.mpr ⟨_,hm,rfl⟩)
        simp [hn]
      · rw [Function.update_of_ne he,h.table,hheld,Multiset.mem_cons]
        simp [he]
    · rw [ha,← h.ids,hheld,hc,Multiset.map_cons,Multiset.map_cons,Multiset.add_cons,
        Multiset.cons_add]

theorem roles_start (boot : Boot) {b : Buffer Job} (hb : b.contents = []) :
    (Process.start W boot b).roles = 0 := by
  simp [Process.roles,Process.flying,Process.start,MesaMonitor.start,AcceptorPc.roles,
    WorkerPc.roles,Weights.total,Weights.pc,flight,hb]

theorem owned_start (boot : Boot) {b : Buffer Job} (hb : b.contents = []) :
    Owned (Process.start W boot b) := by
  have hheld : (Process.start W boot b).held = 0 := by
    rw [Process.held,roles_start boot hb,Multiset.map_zero]
  refine ⟨fun fd c => ?_,?_,?_⟩
  · rw [hheld]
    simp [Process.start,boot.clear]
  · simp [hheld]
  · rw [hheld]
    simp [Process.start]

omit [Fintype W] in
theorem Sources.keep (h : Sources s)
    (hw : ∀ w job srcfd srcp, s'.worker w = .mapped job srcfd srcp →
      s.worker w = .mapped job srcfd srcp)
    (hf : ∀ fd, s.fds fd = some .file → s'.fds fd = some .file) : Sources s' where
  opened hm := hf _ (h.opened (hw _ _ _ _ hm))
  apart hv hm := h.apart (hw _ _ _ _ hv) (hw _ _ _ _ hm)

variable [DecidableEq W]

omit [Fintype W] in
theorem mapped_of_update {f : W → WorkerPc} {w : W} {p : WorkerPc}
    (hp : ∀ job srcfd srcp, p ≠ .mapped job srcfd srcp) (u : W) (job : Job) (srcfd : Nat)
    (srcp : List UInt8) (h : Function.update f w p u = .mapped job srcfd srcp) :
    f u = .mapped job srcfd srcp := by
  by_cases he : u = w
  · subst he
    rw [Function.update_self] at h
    exact absurd h (hp _ _ _)
  · rwa [Function.update_of_ne he] at h

theorem file_of_update {fds : Descriptors} {fd : Nat} {d : Option Descriptor}
    (hfd : fds fd ≠ some .file) (fd' : Nat) (h : fds fd' = some .file) :
    Function.update fds fd d fd' = some .file := by
  have hne : fd' ≠ fd := by
    rintro rfl
    exact hfd h
  rw [Function.update_of_ne hne,h]

omit [Fintype W] in
theorem mapped_cases {f : W → WorkerPc} {u w : W} {job job' : Job} {srcfd fd : Nat}
    {srcp srcp' : List UInt8}
    (h : Function.update f w (.mapped job srcfd srcp) u = .mapped job' fd srcp') :
    u = w ∧ fd = srcfd ∨ f u = .mapped job' fd srcp' := by
  by_cases he : u = w
  · subst he
    rw [Function.update_self] at h
    cases h
    exact .inl ⟨rfl,rfl⟩
  · rw [Function.update_of_ne he] at h
    exact .inr h

omit [Fintype W] in
theorem Sources.openFile (h : Sources s) {w : W} {job : Job} {srcfd : Nat} {srcp : List UInt8}
    (hfd : s.fds srcfd = none) :
    Sources ((s.bind srcfd (some .file)).work w (.mapped job srcfd srcp)) := by
  have hfree : ∀ {v : W} {job' : Job} {srcp' : List UInt8},
      s.worker v ≠ .mapped job' srcfd srcp' := by
    intro v job' srcp' hv
    have ho := h.opened hv
    rw [hfd] at ho
    cases ho
  refine ⟨fun hu => ?_,fun hu hv => ?_⟩
  · rcases mapped_cases hu with ⟨_,rfl⟩ | hu
    · exact Function.update_self _ _ _
    · exact file_of_update (by simp [hfd]) _ (h.opened hu)
  · rcases mapped_cases hu with ⟨rfl,rfl⟩ | hu
    · rcases mapped_cases hv with ⟨rfl,_⟩ | hv
      · rfl
      · exact absurd hv hfree
    · rcases mapped_cases hv with ⟨_,rfl⟩ | hv
      · exact absurd hu hfree
      · exact h.apart hu hv

omit [Fintype W] in
theorem Sources.closeFile (h : Sources s) {w : W} {job : Job} {srcfd : Nat} {srcp : List UInt8}
    (hw : s.worker w = .mapped job srcfd srcp) :
    Sources ((s.bind srcfd none).work w (.header job srcp)) := by
  have hold := mapped_of_update (f := s.worker) (w := w) (p := .header job srcp) (by simp)
  refine ⟨fun {u job' fd' srcp'} hu => ?_,fun hu hv => h.apart (hold _ _ _ _ hu) (hold _ _ _ _ hv)⟩
  have hne : fd' ≠ srcfd := by
    rintro rfl
    have huw := h.apart (hold _ _ _ _ hu) hw
    subst huw
    have hself := (Function.update_self _ _ _).symm.trans hu
    cases hself
  exact (Function.update_of_ne hne _ _).trans (h.opened (hold _ _ _ _ hu))

omit [Fintype W] in
theorem sources_step (h : Sources s) (hl : Step fs inputs s s') : Sources s' := by
  cases hl with
  | accept fd _ hfd => exact h.keep (fun _ _ _ _ hm => hm) (file_of_update (by simp [hfd]))
  | reject _ hi _ => exact h.keep (fun _ _ _ _ hm => hm) (file_of_update (by simp [hi]))
  | openFile _ _ hfd _ _ => exact h.openFile hfd
  | closeFile hw _ => exact h.closeFile hw
  | fetch _ _ => exact h.keep (mapped_of_update (by simp)) (fun _ hf => hf)
  | fetched _ _ => exact h.keep (mapped_of_update (by simp)) (fun _ hf => hf)
  | header _ _ _ => exact h.keep (mapped_of_update (by simp)) (fun _ hf => hf)
  | body _ _ _ => exact h.keep (mapped_of_update (by simp)) (fun _ hf => hf)
  | status _ _ _ _ => exact h.keep (mapped_of_update (by simp)) (fun _ hf => hf)
  | fork _ _ => exact h.keep (mapped_of_update (by simp)) (fun _ hf => hf)
  | wait _ _ _ => exact h.keep (mapped_of_update (by simp)) (fun _ hf => hf)
  | close _ hi _ => exact h.keep (mapped_of_update (by simp)) (file_of_update (by simp [hi]))
  | _ => exact h.keep (fun _ _ _ _ hm => hm) (fun _ hf => hf)

omit [Fintype W] in
theorem step_monitor (hl : Step fs inputs s s') : s'.monitor = s.monitor ∨
    ∃ l, MesaMonitor.Step (bufferMonitor Job.filesize) s.monitor l s'.monitor := by
  cases hl with
  | submit _ hm => exact .inr ⟨_,hm⟩
  | submitted _ hm => exact .inr ⟨_,hm⟩
  | internal hm => exact .inr ⟨_,hm⟩
  | fetch _ hm => exact .inr ⟨_,hm⟩
  | fetched _ hm => exact .inr ⟨_,hm⟩
  | _ => exact .inl rfl

variable {capacity : Nat} {policy : SchedPolicy} {malloced : Int → Job} {boot : Boot}
  {b₀ : Buffer Job}

omit [Fintype W] in
theorem reaches_monitor (h : Reaches fs inputs (Process.start W boot b₀) s) :
    MesaMonitor.Reaches (bufferMonitor Job.filesize)
      (MesaMonitor.start (Option W) (Op Job) (Done Job) b₀) s.monitor := by
  induction h with
  | refl => exact .refl
  | tail _ hl ih =>
    rcases step_monitor hl with he | hm
    · rw [he]
      exact ih
    · exact ih.tail hm

theorem reaches_owned (hc : FitsInt policy capacity)
    (hinit : bufferInit malloced capacity policy = .done b₀)
    (h : Reaches fs inputs (Process.start W boot b₀) s) : Owned s ∧ Sources s := by
  induction h with
  | refl =>
    rw [bufferInit_done malloced hc.pos policy] at hinit
    cases hinit
    exact ⟨owned_start boot rfl,by simp [Process.start],by simp [Process.start]⟩
  | tail hs hl ih =>
    obtain ⟨ho,hf⟩ := ih
    have hm := reaches_monitor hs
    obtain ⟨hwf,_⟩ := reaches_refines hc hinit hm
    exact ⟨owned_change ho (step_change hwf (reaches_sound hm).ready ho hf hl),sources_step hf hl⟩

theorem reaches_change (hc : FitsInt policy capacity)
    (hinit : bufferInit malloced capacity policy = .done b₀)
    (h : Reaches fs inputs (Process.start W boot b₀) s) (hl : Step fs inputs s s') :
    Change fs inputs s s' := by
  obtain ⟨ho,hf⟩ := reaches_owned hc hinit h
  have hm := reaches_monitor h
  obtain ⟨hwf,_⟩ := reaches_refines hc hinit hm
  exact step_change hwf (reaches_sound hm).ready ho hf hl

end Invariants

section Closers

/-! Who closes what: `request_parse` the connections it returns `-1` for, and
a worker those it dequeued. -/

def byAcceptor {W : Type} : Nat × Option W → Option Nat
  | (c,none) => some c
  | (_,some _) => none

def byWorker {W : Type} : Nat × Option W → Option (Nat × W)
  | (c,some w) => some (c,w)
  | (_,none) => none

theorem closers {W : Type} (m : Multiset (Nat × Option W)) :
    m.map Prod.fst = m.filterMap byAcceptor + (m.filterMap byWorker).map Prod.fst := by
  induction m using Multiset.induction with
  | empty => rfl
  | cons p m ih =>
    obtain ⟨c,who⟩ := p
    cases who with
    | none =>
      rw [Multiset.filterMap_cons_some byAcceptor _ _ rfl,Multiset.filterMap_cons_none _ _ rfl,
        Multiset.map_cons,ih,Multiset.cons_add]
    | some w =>
      rw [Multiset.filterMap_cons_none _ _ rfl,Multiset.filterMap_cons_some byWorker _ _ rfl,
        Multiset.map_cons,Multiset.map_cons,ih,Multiset.add_cons]

def AcceptorPc.dismissed : AcceptorPc → Multiset Nat
  | .refusing _ c _ | .closing _ c => {c}
  | .accepting | .parsing _ _ | .submitting _ | .putting => 0

def AcceptorPc.welcome : AcceptorPc → Multiset Nat
  | .parsing _ c => {c}
  | .submitting job => {job.conn}
  | .accepting | .refusing _ _ _ | .closing _ _ | .putting => 0

def WorkerPc.tags {W : Type} (w : W) (p : WorkerPc) : Multiset (Nat × W) :=
  p.roles.map fun r => (r.conn,w)

variable {W : Type} [Fintype W] {fs : FileSystem} {inputs : Nat → Stream' Received}
  {s s' : Process W}

structure Decided (s : Process W) : Prop where
  refused : s.refused = s.acceptor.dismissed + s.closed.filterMap byAcceptor
  taken : s.taken = ∑ w, (s.worker w).tags w + s.closed.filterMap byWorker

theorem Decided.keep (h : Decided s) (ha : s'.acceptor.dismissed = s.acceptor.dismissed)
    (hw : ∑ w, (s'.worker w).tags w = ∑ w, (s.worker w).tags w) (hr : s'.refused = s.refused)
    (ht : s'.taken = s.taken) (hc : s'.closed = s.closed) : Decided s' where
  refused := by rw [ha,hr,hc]; exact h.refused
  taken := by rw [hw,ht,hc]; exact h.taken

variable [DecidableEq W]

theorem tags_move {f : W → WorkerPc} {w : W} {p q : WorkerPc} (hw : f w = p)
    (h : q.tags w = p.tags w) : ∑ u, (Function.update f w q u).tags u = ∑ u, (f u).tags u := by
  obtain ⟨R,hR,hR'⟩ := sum_worker WorkerPc.tags f w
  rw [hR,hR',hw,h]

theorem decided_step (ho : Owned s) (h : Decided s) (hl : Step fs inputs s s') : Decided s' := by
  cases hl with
  | accept fd ha _ => exact h.keep (by rw [ha]; rfl) rfl rfl rfl rfl
  | @refuse fd c i f p conn ha _ _ =>
    refine ⟨?_,h.taken⟩
    change c ::ₘ s.refused = {c} + s.closed.filterMap byAcceptor
    rw [h.refused,ha,← Multiset.singleton_add]
    exact congrArg _ (zero_add _)
  | approve ha _ _ => exact h.keep (by rw [ha]; rfl) rfl rfl rfl rfl
  | page ha _ _ => exact h.keep (by rw [ha]; rfl) rfl rfl rfl rfl
  | @reject fd c i conn ha hi _ =>
    obtain ⟨R,hR,_⟩ := roles_of_acceptor s
    rw [ha] at hR
    have hc := ho.denotes hR hi
    subst hc
    refine ⟨?_,?_⟩
    · change s.refused = 0 + ((i,none) ::ₘ s.closed).filterMap byAcceptor
      rw [h.refused,ha,Multiset.filterMap_cons_some byAcceptor _ _ rfl,zero_add]
      rfl
    · change s.taken = _ + ((i,none) ::ₘ s.closed).filterMap byWorker
      rw [h.taken,Multiset.filterMap_cons_none _ _ rfl]
      rfl
  | submit ha _ => exact h.keep (by rw [ha]; rfl) rfl rfl rfl rfl
  | submitted ha _ => exact h.keep (by rw [ha]; rfl) rfl rfl rfl rfl
  | fetch hw _ => exact h.keep rfl (tags_move hw rfl) rfl rfl rfl
  | @fetched w job m hw _ =>
    obtain ⟨R,hR,hR'⟩ := sum_worker WorkerPc.tags s.worker w
    refine ⟨h.refused,?_⟩
    change (job.conn,w) ::ₘ s.taken =
      ∑ u, (Function.update s.worker w (.serving job) u).tags u + _
    rw [h.taken,hR,hR',hw,← Multiset.singleton_add]
    change {(job.conn,w)} + (0 + R + s.closed.filterMap byWorker) =
      {(job.conn,w)} + R + s.closed.filterMap byWorker
    rw [zero_add,add_assoc]
  | openFile hw _ _ _ _ => exact h.keep rfl (tags_move hw rfl) rfl rfl rfl
  | closeFile hw _ => exact h.keep rfl (tags_move hw rfl) rfl rfl rfl
  | header hw _ _ => exact h.keep rfl (tags_move hw rfl) rfl rfl rfl
  | body hw _ _ => exact h.keep rfl (tags_move hw rfl) rfl rfl rfl
  | status hw _ _ _ => exact h.keep rfl (tags_move hw rfl) rfl rfl rfl
  | fork hw _ => exact h.keep rfl (tags_move hw rfl) rfl rfl rfl
  | wait hw _ _ => exact h.keep rfl (tags_move hw rfl) rfl rfl rfl
  | @close w job i conn hw hi _ =>
    obtain ⟨Q,hQ,_⟩ := roles_of_worker s w
    rw [hw] at hQ
    have hc := ho.denotes hQ hi
    subst hc
    obtain ⟨R,hR,hR'⟩ := sum_worker WorkerPc.tags s.worker w
    refine ⟨?_,?_⟩
    · change s.refused = _ + ((job.conn,some w) ::ₘ s.closed).filterMap byAcceptor
      rw [h.refused,Multiset.filterMap_cons_none _ _ rfl]
      rfl
    · change s.taken = ∑ u, (Function.update s.worker w .idle u).tags u +
        ((job.conn,some w) ::ₘ s.closed).filterMap byWorker
      rw [h.taken,hR,hR',hw,Multiset.filterMap_cons_some byWorker _ _ rfl,← Multiset.singleton_add]
      change ({(job.conn,w)} : Multiset (Nat × W)) + R + _ = 0 + R + _
      rw [zero_add,add_left_comm,add_assoc]
  | _ => exact h.keep rfl rfl rfl rfl rfl

end Closers

section Owners

inductive Owner (W : Type) where
  | acceptor : Owner W
  | slot : Int → Owner W
  | worker : W → Owner W

structure Holding (W : Type) where
  owner : Owner W
  fd : Nat
  conn : Nat

def Role.holding {W : Type} (o : Owner W) (r : Role) : Holding W := ⟨o,r.fd,r.conn⟩

variable {W : Type} {fs : FileSystem} {inputs : Nat → Stream' Received} {s s' : Process W}

def Process.acceptorRoles (s : Process W) : Multiset Role :=
  s.acceptor.roles + (flight.pc (s.monitor.pc main)).map Job.ready

def Process.workerRoles (s : Process W) (w : W) : Multiset Role :=
  (s.worker w).roles + (flight.pc (s.monitor.pc (some w))).map Job.ready

/-- Outside its calls of the buffer, a thread is outside the monitor. -/
structure Coupled (s : Process W) : Prop where
  acceptor : s.acceptor = .putting ∨ s.monitor.pc main = .idle
  worker (w : W) : s.worker w = .getting ∨ s.monitor.pc (some w) = .idle

theorem roles_card_acceptor (p : AcceptorPc) : p.roles.card ≤ 1 := by
  cases p <;> simp [AcceptorPc.roles]

theorem roles_card_worker (p : WorkerPc) : p.roles.card ≤ 1 := by
  cases p <;> simp [WorkerPc.roles]

theorem flight_card (p : Pc (Op Job) (Done Job)) : (flight.pc p).card ≤ 1 := by
  have hop : ∀ op, (flight.op op).card ≤ 1 := by
    intro op
    cases op <;> simp [flight]
  cases p with
  | idle => simp [Weights.pc]
  | unlock r => cases r <;> simp [Weights.pc,flight]
  | _ => exact hop _

theorem Coupled.acceptor_card (h : Coupled s) : s.acceptorRoles.card ≤ 1 := by
  rw [Process.acceptorRoles,Multiset.card_add,Multiset.card_map]
  rcases h.acceptor with ha | hm
  · rw [ha]
    simpa [AcceptorPc.roles] using flight_card (s.monitor.pc main)
  · rw [hm]
    simpa [Weights.pc] using roles_card_acceptor s.acceptor

theorem Coupled.worker_card (h : Coupled s) (w : W) : (s.workerRoles w).card ≤ 1 := by
  rw [Process.workerRoles,Multiset.card_add,Multiset.card_map]
  rcases h.worker w with hw | hm
  · rw [hw]
    simpa [WorkerPc.roles] using flight_card (s.monitor.pc (some w))
  · rw [hm]
    simpa [Weights.pc] using roles_card_worker (s.worker w)

theorem Coupled.main_idle (h : Coupled s) (ha : s.acceptor ≠ .putting) :
    s.monitor.pc main = .idle := h.acceptor.resolve_left ha

theorem Coupled.worker_idle (h : Coupled s) {w : W} (hw : s.worker w ≠ .getting) :
    s.monitor.pc (some w) = .idle := (h.worker w).resolve_left hw

variable [DecidableEq W]

theorem Coupled.work (h : Coupled s) {w : W} {p : WorkerPc} (hw : s.worker w ≠ .getting)
    (ha : s'.acceptor = s.acceptor) (hm : s'.monitor = s.monitor)
    (hs : s'.worker = Function.update s.worker w p) : Coupled s' := by
  refine ⟨by rw [ha,hm]; exact h.acceptor,fun u => ?_⟩
  rw [hm,hs]
  by_cases hu : u = w
  · subst hu
    exact .inr (h.worker_idle hw)
  · rw [Function.update_of_ne hu]
    exact h.worker u

theorem coupled_step (h : Coupled s) (hl : Step fs inputs s s') : Coupled s' := by
  cases hl with
  | accept fd ha _ => exact ⟨.inr (h.main_idle (by simp [ha])),h.worker⟩
  | refuse ha _ _ => exact ⟨.inr (h.main_idle (by simp [ha])),h.worker⟩
  | approve ha _ _ => exact ⟨.inr (h.main_idle (by simp [ha])),h.worker⟩
  | page ha _ _ => exact ⟨.inr (h.main_idle (by simp [ha])),h.worker⟩
  | reject ha _ _ => exact ⟨.inr (h.main_idle (by simp [ha])),h.worker⟩
  | submit ha hm =>
    exact ⟨.inl rfl,fun w => (h.worker w).imp id fun hi => hm.idle hi (by simp [main])⟩
  | submitted ha hm =>
    exact ⟨.inr hm.returned,fun w => (h.worker w).imp id fun hi => hm.idle hi (by simp)⟩
  | internal hm =>
    exact ⟨h.acceptor.imp id fun hi => hm.idle hi (by simp),
      fun w => (h.worker w).imp id fun hi => hm.idle hi (by simp)⟩
  | @fetch w m hw hm =>
    refine ⟨h.acceptor.imp id fun hi => hm.idle hi (by simp [main]),fun u => ?_⟩
    change Function.update s.worker w .getting u = .getting ∨ m.pc (some u) = .idle
    by_cases hu : u = w
    · subst hu
      exact .inl (Function.update_self _ _ _)
    · rw [Function.update_of_ne hu]
      exact (h.worker u).imp id fun hi => hm.idle hi (by simp [Ne.symm hu])
  | @fetched w job m hw hm =>
    refine ⟨h.acceptor.imp id fun hi => hm.idle hi (by simp),fun u => ?_⟩
    change Function.update s.worker w (.serving job) u = .getting ∨ m.pc (some u) = .idle
    by_cases hu : u = w
    · subst hu
      exact .inr hm.returned
    · rw [Function.update_of_ne hu]
      exact (h.worker u).imp id fun hi => hm.idle hi (by simp)
  | openFile hw _ _ _ _ => exact h.work (by simp [hw]) rfl rfl rfl
  | closeFile hw _ => exact h.work (by simp [hw]) rfl rfl rfl
  | header hw _ _ => exact h.work (by simp [hw]) rfl rfl rfl
  | body hw _ _ => exact h.work (by simp [hw]) rfl rfl rfl
  | status hw _ _ _ => exact h.work (by simp [hw]) rfl rfl rfl
  | fork hw _ => exact h.work (by simp [hw]) rfl rfl rfl
  | childWrite _ _ _ _ => exact ⟨h.acceptor,h.worker⟩
  | childExit _ _ _ => exact ⟨h.acceptor,h.worker⟩
  | wait hw _ _ => exact h.work (by simp [hw]) rfl rfl rfl
  | close hw _ _ => exact h.work (by simp [hw]) rfl rfl rfl

omit [DecidableEq W] in
theorem map_sum_workers [Fintype W] {A B : Type} (f : A → B) (g : W → Multiset A) :
    (∑ w, g w).map f = ∑ w, (g w).map f :=
  map_sum (Multiset.mapAddMonoidHom f) g Finset.univ

variable [Fintype W]

/-- Who holds what: the acceptor, every live slot of the buffer, and the workers. -/
def Process.holdings (s : Process W) : Multiset (Holding W) :=
  s.acceptorRoles.map (Role.holding .acceptor) +
    (s.monitor.shared.live : Multiset Int).map
      (fun i => (s.monitor.shared.slots i).ready.holding (.slot i)) +
    ∑ w, (s.workerRoles w).map (Role.holding (.worker w))

omit [DecidableEq W] in
theorem mem_holdings {a : Holding W} : a ∈ s.holdings ↔
    (∃ r ∈ s.acceptorRoles, r.holding .acceptor = a) ∨
    (∃ i ∈ s.monitor.shared.live, (s.monitor.shared.slots i).ready.holding (.slot i) = a) ∨
    ∃ w, ∃ r ∈ s.workerRoles w, r.holding (.worker w) = a := by
  simp only [Process.holdings,Multiset.mem_add,Multiset.mem_map,Multiset.mem_sum,Finset.mem_univ,
    true_and,Multiset.mem_coe,or_assoc]

def Holding.key (a : Holding W) : Nat × Nat := (a.fd,a.conn)

omit [DecidableEq W] in
theorem holdings_held (s : Process W) : s.holdings.map Holding.key = s.held := by
  have hslots : (s.monitor.shared.live : Multiset Int).map
      (fun i => (s.monitor.shared.slots i).ready.key) =
        ((s.monitor.shared.contents : Multiset Job).map Job.ready).map Role.key := by
    simp only [Multiset.map_coe,Buffer.contents,Buffer.live,CircularArray.view,
      CircularArray.cells,List.map_map,Function.comp_def]
  have hkey : ∀ o : Owner W, Holding.key ∘ Role.holding o = Role.key := fun _ => rfl
  simp only [Process.holdings,Multiset.map_add,Multiset.map_map,map_sum_workers,hkey]
  rw [show (Holding.key ∘ fun i => (s.monitor.shared.slots i).ready.holding (.slot i) :
    Int → Nat × Nat) = fun i => (s.monitor.shared.slots i).ready.key from rfl,hslots]
  simp only [Process.held,Process.roles,Process.flying,Weights.total,Fintype.sum_option,
    Process.acceptorRoles,Process.workerRoles,Multiset.map_add,map_sum_workers,
    Finset.sum_add_distrib]
  change _ + ((s.monitor.shared.contents : Multiset Job).map Job.ready).map Role.key + _ =
    _ + (_ + _ + ((s.monitor.shared.contents : Multiset Job).map Job.ready).map Role.key) + _
  simp only [main]
  abel

omit [DecidableEq W] in
theorem holdings_card (h : Coupled s) :
    s.holdings.card ≤ s.monitor.shared.count + Fintype.card W + 1 := by
  have hworkers : ∑ w, (s.workerRoles w).card ≤ Fintype.card W := by
    have hle := Finset.sum_le_card_nsmul Finset.univ (fun w => (s.workerRoles w).card) 1
      (fun w _ => h.worker_card w)
    simpa using hle
  have hacceptor := h.acceptor_card
  simp only [Process.holdings,Multiset.card_add,Multiset.card_map,Multiset.card_sum,
    Multiset.coe_card,Buffer.live,CircularArray.cells,List.length_map,List.length_range]
  omega

omit [DecidableEq W] in
theorem decided_ids (ho : Owned s) (h : Decided s) :
    s.refused + s.taken.map Prod.fst + (s.acceptor.welcome + s.flying.map Job.conn) =
      Multiset.range s.accepted := by
  have hacceptor : (s.acceptor.roles.map Role.key).map Prod.snd =
      s.acceptor.welcome + s.acceptor.dismissed := by
    cases s.acceptor <;> rfl
  have hworker : ∀ w, ((s.worker w).tags w).map Prod.fst =
      ((s.worker w).roles.map Role.key).map Prod.snd := by
    intro w
    simp only [WorkerPc.tags,Multiset.map_map]
    rfl
  rw [← ho.ids,closers,h.refused,h.taken,Multiset.map_add,map_sum_workers]
  simp only [hworker,Process.held,Process.roles,Multiset.map_add,map_sum_workers,hacceptor]
  rw [show ((s.flying.map Job.ready).map Role.key).map Prod.snd = s.flying.map Job.conn by
    simp only [Multiset.map_map]; rfl]
  abel

omit [DecidableEq W] in
theorem owner_unique (ho : Owned s) {fd c : Nat} (h : s.fds fd = some (.conn c)) :
    ∃! o, ⟨o,fd,c⟩ ∈ s.holdings := by
  have hm := (ho.table fd c).mp h
  have hheld : s.held.Nodup := Multiset.Nodup.of_map _ ho.distinct
  rw [← holdings_held] at hm hheld
  obtain ⟨⟨o,fd',c'⟩,ha,he⟩ := Multiset.mem_map.mp hm
  cases he
  refine ⟨o,ha,fun o' ha' => ?_⟩
  exact congrArg Holding.owner (Multiset.inj_on_of_nodup_map hheld _ ha' _ ha rfl)

omit [DecidableEq W] in
theorem holding_open (ho : Owned s) {a : Holding W} (h : a ∈ s.holdings) :
    s.fds a.fd = some (.conn a.conn) := by
  apply (ho.table _ _).mpr
  rw [← holdings_held]
  exact Multiset.mem_map_of_mem Holding.key h

omit [DecidableEq W] in
theorem open_or_closed (ho : Owned s) {c : Nat} (hc : c < s.accepted) :
    (∃! fd, s.fds fd = some (.conn c)) ∧ (s.closed.map Prod.fst).count c = 0 ∨
      (∀ fd, s.fds fd ≠ some (.conn c)) ∧ (s.closed.map Prod.fst).count c = 1 := by
  have hcount := congrArg (Multiset.count c) ho.ids
  rw [Multiset.count_add,Multiset.count_eq_one_of_mem (Multiset.nodup_range _)
    (Multiset.mem_range.mpr hc)] at hcount
  by_cases hm : c ∈ s.held.map Prod.snd
  · have hone := Multiset.count_eq_one_of_mem ho.conns hm
    obtain ⟨⟨fd,c'⟩,hfd,rfl⟩ := Multiset.mem_map.mp hm
    refine .inl ⟨⟨fd,(ho.table _ _).mpr hfd,fun fd' hfd' => ?_⟩,by omega⟩
    exact congrArg Prod.fst
      (Multiset.inj_on_of_nodup_map ho.conns _ ((ho.table _ _).mp hfd') _ hfd rfl)
  · have hzero := Multiset.count_eq_zero_of_notMem hm
    refine .inr ⟨fun fd hfd => hm ?_,by omega⟩
    exact Multiset.mem_map.mpr ⟨_,(ho.table _ _).mp hfd,rfl⟩

omit [DecidableEq W] in
theorem open_card (ho : Owned s) {F : Finset Nat}
    (hF : ∀ fd ∈ F, ∃ c, s.fds fd = some (.conn c)) : F.card ≤ s.holdings.card := by
  have hsub : F.val ≤ s.held.map Prod.fst := by
    rw [Multiset.le_iff_subset F.nodup]
    intro fd hfd
    obtain ⟨c,hc⟩ := hF fd hfd
    exact Multiset.mem_map.mpr ⟨_,(ho.table _ _).mp hc,rfl⟩
  have hcard := Multiset.card_le_card hsub
  rwa [Multiset.card_map,← holdings_held,Multiset.card_map] at hcard

variable {capacity : Nat} {policy : SchedPolicy} {malloced : Int → Job} {boot : Boot}
  {b₀ : Buffer Job}

theorem reaches_decided (hc : FitsInt policy capacity)
    (hinit : bufferInit malloced capacity policy = .done b₀)
    (h : Reaches fs inputs (Process.start W boot b₀) s) : Decided s ∧ Coupled s := by
  induction h with
  | refl =>
    refine ⟨⟨rfl,?_⟩,⟨.inr rfl,fun w => .inr rfl⟩⟩
    simp [Process.start,WorkerPc.tags,WorkerPc.roles]
  | tail hs hl ih =>
    exact ⟨decided_step (reaches_owned hc hinit hs).1 ih.1 hl,coupled_step ih.2 hl⟩

/-- Ownership of the connections, in every reachable state. -/
theorem connections_owned (hc : FitsInt policy capacity)
    (hinit : bufferInit malloced capacity policy = .done b₀)
    (h : Reaches fs inputs (Process.start W boot b₀) s) :
    (∀ fd c, s.fds fd = some (.conn c) → c < s.accepted ∧ ∃! o, ⟨o,fd,c⟩ ∈ s.holdings) ∧
    (∀ a ∈ s.holdings, s.fds a.fd = some (.conn a.conn)) ∧
    (s.holdings.map Holding.fd).Nodup ∧
    (∀ c < s.accepted,
      (∃! fd, s.fds fd = some (.conn c)) ∧ (s.closed.map Prod.fst).count c = 0 ∨
      (∀ fd, s.fds fd ≠ some (.conn c)) ∧ (s.closed.map Prod.fst).count c = 1) ∧
    (∀ c, (c,none) ∈ s.closed → c ∈ s.refused) ∧
    (∀ c w, (c,some w) ∈ s.closed → (c,w) ∈ s.taken) ∧
    (s.refused + s.taken.map Prod.fst).Nodup ∧
    (∀ F : Finset Nat, (∀ fd ∈ F, ∃ c, s.fds fd = some (.conn c)) →
      F.card ≤ capacity + Fintype.card W + 1) := by
  obtain ⟨ho,_⟩ := reaches_owned hc hinit h
  obtain ⟨hd,hcoupled⟩ := reaches_decided hc hinit h
  obtain ⟨hwf,hcap,_⟩ := reaches_refines hc hinit (reaches_monitor h)
  refine ⟨fun fd c hfd => ⟨ho.lt ((ho.table _ _).mp hfd),owner_unique ho hfd⟩,
    fun a => holding_open ho,?_,fun c => open_or_closed ho,fun c hm => ?_,fun c w hm => ?_,?_,
    fun F hF => ?_⟩
  · have hfst := ho.distinct
    rw [← holdings_held,Multiset.map_map] at hfst
    exact hfst
  · rw [hd.refused]
    exact Multiset.mem_add.mpr (.inr ((Multiset.mem_filterMap _ _).mpr ⟨_,hm,rfl⟩))
  · rw [hd.taken]
    exact Multiset.mem_add.mpr (.inr ((Multiset.mem_filterMap _ _).mpr ⟨_,hm,rfl⟩))
  · exact Multiset.nodup_of_le (decided_ids ho hd ▸ Multiset.le_add_right _ _)
      (Multiset.nodup_range _)
  · have hcount := hwf.count_le
    calc F.card ≤ s.holdings.card := open_card ho hF
      _ ≤ s.monitor.shared.count + Fintype.card W + 1 := holdings_card hcoupled
      _ ≤ capacity + Fintype.card W + 1 := by omega

theorem connections_owned_busy : ∃ s : Process (Fin 2),
    s.worker 0 = .mapped (pageJob 4 0) 5 [88] ∧ ⟨.worker 0,4,0⟩ ∈ s.holdings ∧
    ⟨.slot 1,6,1⟩ ∈ s.holdings ∧ ⟨.acceptor,7,2⟩ ∈ s.holdings ∧
    (∀ fd c, s.fds fd = some (.conn c) → ∃! o, ⟨o,fd,c⟩ ∈ s.holdings) ∧
    ∀ F : Finset Nat, (∀ fd ∈ F, ∃ c, s.fds fd = some (.conn c)) → F.card ≤ 2+2+1 := by
  obtain ⟨s,hrun,hs⟩ := busy_reached (fun _ => pageJob 0 0) ⟨fun _ => none,by simp⟩ fun _ _ => rfl
  obtain ⟨hopen,_,_,_,_,_,_,hbound⟩ :=
    connections_owned (fitsInt_of_le .fifo 2 (by decide) (by decide)) rfl hrun
  refine ⟨s,hs.mapped,
    mem_holdings.mpr (.inr (.inr ⟨0,⟨4,0,.header (pageRequest 4) [88]⟩,?_,rfl⟩)),?_,
    mem_holdings.mpr (.inl ⟨⟨7,2,.parsing⟩,?_,rfl⟩),fun fd c hfd => (hopen fd c hfd).2,hbound⟩
  · rw [Process.workerRoles,hs.mapped]
    exact Multiset.mem_add.mpr (.inl (Multiset.mem_singleton_self _))
  · refine mem_holdings.mpr (.inr (.inl ⟨1,?_,?_⟩))
    · rw [hs.shared]
      decide
    · rw [hs.shared]
      rfl
  · rw [Process.acceptorRoles,hs.acceptor]
    exact Multiset.mem_add.mpr (.inl (Multiset.mem_singleton_self _))

/-- Nobody holds the third connection, and two slots hold the second. -/
theorem connection_lost : ∃ s : Process (Fin 1),
    Reaches pageFs pageInputs
      (Process.start (Fin 1) ⟨fun _ => none,by simp⟩ (noneWaits fun _ => pageJob 0 0)) s ∧
    s.fds 6 = some (.conn 2) ∧ (∀ o, ⟨o,6,2⟩ ∉ s.holdings) ∧
    ⟨.slot 0,5,1⟩ ∈ s.holdings ∧ ⟨.slot 1,5,1⟩ ∈ s.holdings := by
  obtain ⟨s,hrun,hs⟩ := overflow_reached (fun _ => pageJob 0 0) ⟨fun _ => none,by simp⟩
    fun _ _ => rfl
  have hlive : s.monitor.shared.live = [0,1] := by
    rw [hs.shared]
    decide
  have hslot : ∀ i ∈ s.monitor.shared.live, s.monitor.shared.slots i = pageJob 5 1 := by
    rw [hlive,hs.shared]
    simp [oneLost,wrapped,twoWait]
  have hheld : ∀ i ∈ s.monitor.shared.live, ⟨.slot i,5,1⟩ ∈ s.holdings := fun i hi =>
    mem_holdings.mpr (.inr (.inl ⟨i,hi,by rw [hslot i hi]; rfl⟩))
  refine ⟨s,hrun,by rw [hs.fds]; rfl,fun o ho => ?_,hheld 0 (by simp [hlive]),
    hheld 1 (by simp [hlive])⟩
  rcases mem_holdings.mp ho with ⟨r,hr,he⟩ | ⟨i,hi,he⟩ | ⟨w,r,hr,he⟩
  · rw [Process.acceptorRoles,hs.acceptor,hs.quiet.idle] at hr
    exact absurd hr (Multiset.notMem_zero r)
  · rw [hslot i hi] at he
    cases congrArg Holding.fd he
  · have hw : w = 0 := Subsingleton.elim _ _
    rw [hw,Process.workerRoles,hs.worker,hs.quiet.idle] at hr
    have hr' : r = (pageJob 4 0).ready := by simpa [WorkerPc.roles,Weights.pc] using hr
    rw [hr'] at he
    cases congrArg Holding.fd he

end Owners

end ConcurrentWebServer.Server
